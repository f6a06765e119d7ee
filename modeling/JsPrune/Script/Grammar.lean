import JsPrune.Script.Token
import JsPrune.Script.Tree
/-!
# The notation of the grammar

A grammar rule reads a phrase off the front of a script, or fails.  Rules that refer to each other
do so through a parameter, `Grammar`, which stands for all of them; they are tied together at the
end.

Some brackets are read before it is known whether they form an expression or a pattern.  Such a
phrase records what it could be, and the rule that uses it decides.
-/

namespace JsPrune.Script

abbrev Read (α : Type) := StateT Input Option α

structure Setting where
  /-- Whether the statement may end with the expression, and so a semicolon may be missing. -/
  endsStatement : Bool
  /-- Whether the word `in` belongs to the loop around the expression. -/
  withoutIn : Bool
  deriving DecidableEq, Repr

namespace Setting

def inner : Setting := ⟨false, false⟩

def statement : Setting := ⟨true, false⟩

/-- The semicolon that can be missing behind an expression. -/
def insertion (setting : Setting) : Insertion :=
  if setting.endsStatement then .possible false else .never

end Setting

inductive Form where
  /-- A variable, or a property of an object. -/
  | reference
  /-- An array or object literal, which may also be a pattern. -/
  | literal (isExpression isPattern : Bool)
  | grouped
  /-- An assignment, which may also be a pattern with a default. -/
  | assigned (isPattern : Bool)
  /-- Any other expression that binds most tightly. -/
  | value
  /-- The creation of an object. -/
  | created
  /-- Any other expression. -/
  | operation
  deriving DecidableEq, Repr

namespace Form

def isExpression : Form → Bool
  | .literal isExpression _ => isExpression
  | _ => true

def isPattern : Form → Bool
  | .reference => true
  | .literal _ isPattern => isPattern
  | _ => false

def isParameter : Form → Bool
  | .assigned isPattern => isPattern
  | form => form.isPattern

def isUpdatable : Form → Bool
  | .reference | .grouped => true
  | _ => false

def isAssignable (form : Form) : Bool :=
  form.isUpdatable || form.isPattern

def isPrimary : Form → Bool
  | .created | .operation | .assigned _ => false
  | _ => true

end Form

structure Phrase where
  tree : Tree
  form : Form

inductive Goal where
  | statement
  /-- An expression without commas. -/
  | expression (setting : Setting)
  | operand (setting : Setting)
  /-- What follows the word `new`. -/
  | creation (setting : Setting)
  deriving DecidableEq, Repr

/-- All rules of the grammar, as one rule for each goal. -/
abbrev Grammar := Goal → Read Phrase

namespace Read

def gap (insertion : Insertion) : Read Gap := fun input =>
  some (Script.gap insertion false input, input)

def peek : Read Input := fun input =>
  match Script.gap .never false input with
  | .token next => some (next, input)
  | .semicolon => none

/-- The input at the next token, unless a semicolon is missing before it. -/
def peekWithin (insertion : Insertion) : Read (Option Input) := fun input =>
  match Script.gap insertion false input with
  | .token next => some (some next, input)
  | .semicolon => some (none, input)

/-- Moves to the start of a statement or an operand, where a comment of the markup form can
stand, and gives the offset. -/
def enter : Read Input := fun input =>
  match Script.gap .never true input with
  | .token next => some (next, next)
  | .semicolon => none

def offset : Read Nat := fun input => some (input.offset, input)

def dropFrom (start : Input) (n : Nat) : Read Unit := fun _ => some ((), start.drop n)

def token (rule : Token.Rule) : Read Span := do
  let start ← peek
  let n ← (rule start.rest : Option Nat)
  dropFrom start n
  return ⟨start.offset, ← offset⟩

def symbol (p : String) : Read Span :=
  token fun cs => if Token.punctuator? cs == some p then some p.length else none

def wordAt? (input : Input) : Option String :=
  (Token.word input.rest).map fun n => String.ofList (input.rest.take n)

def keyword (w : String) : Read Span := do
  let start ← peek
  if wordAt? start = some w then
    dropFrom start w.length
    return ⟨start.offset, ← offset⟩
  else failure

def close (kind : Kind) (start : Nat) (parts : List Tree) : Read Tree := do
  return .node kind ⟨start, ← offset⟩ parts

def leaf (kind : Kind) (rule : Token.Rule) : Read Tree := do
  return .node kind (← token rule) []

def identifier : Read Tree := do
  let start ← peek
  let w ← wordAt? start
  if Token.reservedWords.contains w then failure
  leaf .identifier Token.word

def privateName : Read Tree :=
  leaf .privateName fun
    | '#' :: cs => Token.behind 1 (Token.word cs)
    | _ => none

def anyWord : Read Tree := leaf .property Token.word

def startsWith (c : Char) : Read Bool := do
  return (← peek).rest.head? == some c

def isAtWord (w : String) : Read Bool := do
  return wordAt? (← peek) == some w

def optionalSymbol (p : String) : Read Bool := do
  if Token.punctuator? (← peek).rest == some p then
    let _ ← symbol p
    return true
  else return false

def semicolon (commentCounts : Bool) : Read Unit := do
  match ← peekWithin (.possible commentCounts) with
  | none => return ()
  | some _ =>
    let _ ← symbol ";"

def manyUntil (n : Nat) (done : Read Bool) (rule : Read Tree) : Read (List Tree) :=
  match n with
  | 0 => failure
  | n + 1 => do
    if ← done then return []
    let first ← rule
    return first :: (← manyUntil n done rule)

end Read

end JsPrune.Script
