import JsPrune.Script.Parser
import JsPrune.Script.Statement
/-!
# Parsing a script

The rules are tied together by a bound on how deep phrases nest, which the length of the script
gives.  A script is a list of statements behind an optional line that names an interpreter.
-/

namespace JsPrune.Script

def rule (n : Nat) (g : Grammar) : Goal → Read Phrase
  | .statement => do return ⟨← Statement.statement n g, .operation⟩
  | .expression setting => Expression.expression n g setting
  | .operand setting => Expression.operand n g setting
  | .creation setting => Expression.creation n g setting

def grammar : Nat → Grammar
  | 0, _ => failure
  | n + 1, goal => rule n (grammar n) goal

def skipInterpreter : Read Unit := do
  let start ← Read.peek
  if "#!".toList.isPrefixOf start.rest then
    Read.dropFrom start (Token.countWhile (fun c => c != '\n') start.rest)

def isAtEnd : Read Bool := do
  return (← Read.enter).rest.isEmpty

def script (n : Nat) : Read Tree := do
  skipInterpreter
  let statements ← Read.manyUntil n isAtEnd (Phrase.tree <$> grammar n .statement)
  Read.close .script 0 statements

def parse? (source : String) : Option Tree :=
  let input := Input.ofString source
  ((script (16 * (input.rest.length + 4))).run input).map Prod.fst

/-- The parser that scripts are pruned with.  It gives up where others would find errors. -/
def parser : Parser := ⟨parse?, fun _ => false⟩

end JsPrune.Script
