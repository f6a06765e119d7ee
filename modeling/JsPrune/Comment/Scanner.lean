import JsPrune.Comment.Basic
/-!
# Finding the comments of a script

The scanner reads a script lexeme by lexeme, without a syntax tree.  It keeps just enough state to
know where a comment can start: inside strings, templates and regular expressions nothing does.  A
slash that opens no comment starts a regular expression or divides, which the previous lexeme
decides.

Scanning is a fold of `step`: one step splits a lexeme off the characters that are left and gives
the state after it.  Every split function returns the characters that it takes and those that it
leaves, in this order.
-/

namespace JsPrune.Scanner

/-- What the scanner remembers between two lexemes. -/
structure State where
  /-- Whether a slash that opens no comment starts a regular expression. -/
  regexAllowed : Bool
  /-- Whether the last lexeme was a dot, so that a word is a property name. -/
  afterDot : Bool
  depth : Nat
  /-- For every open substitution of a template, the innermost first, how many braces were open
  before it. -/
  templates : List Nat
  deriving DecidableEq, Repr

def State.initial : State := ⟨true, false, 0, []⟩

def State.after (st : State) (regexAllowed : Bool) : State :=
  { st with regexAllowed, afterDot := false }

structure Move where
  taken : List Char
  rest : List Char
  next : State
  /-- For a comment its kind, and whether it is terminated. -/
  comment : Option (Comment.Kind × Bool)
  deriving DecidableEq, Repr

/-- The words after which an expression starts, and so a regular expression can. -/
def expressionKeywords : List String :=
  ["await", "case", "delete", "do", "else", "in", "instanceof", "new", "of", "return", "throw",
   "typeof", "void", "yield"]

/-- The characters of words: ASCII letters and digits, the underscore, the dollar sign, the
backslash, the number sign, and everything beyond ASCII. -/
def isWordPart (c : Char) : Bool :=
  c.isAlphanum || c == '_' || c == '$' || c == '\\' || c == '#' || decide (0x80 ≤ c.toNat)

def isSpace (c : Char) : Bool :=
  c == ' ' || c == '\t' || c == '\n' || c == '\x0c' || c == '\r'

def push (cs : List Char) (split : List Char × List Char) : List Char × List Char :=
  (cs ++ split.1, split.2)

def splitWhile (p : Char → Bool) : List Char → List Char × List Char
  | [] => ([], [])
  | c :: cs => if p c then push [c] (splitWhile p cs) else ([], c :: cs)

def splitLine (cs : List Char) : List Char × List Char :=
  splitWhile (fun c => !isLineTerminator c) cs

def splitBlock : List Char → (List Char × List Char) × Bool
  | [] => (([], []), false)
  | '*' :: '/' :: cs => ((['*', '/'], cs), true)
  | c :: cs => let (split, closed) := splitBlock cs; (push [c] split, closed)

/-- Splits the rest of a string off, after its opening quote.  A backslash escapes the character
after it, also a whole line break of two characters; a bare line break ends the string. -/
def splitString (quote : Char) : List Char → List Char × List Char
  | [] => ([], [])
  | '\\' :: '\r' :: '\n' :: cs => push ['\\', '\r', '\n'] (splitString quote cs)
  | '\\' :: c :: cs => push ['\\', c] (splitString quote cs)
  | c :: cs =>
    if c == '\n' || c == '\r' then ([], c :: cs)
    else if c == quote then ([c], cs)
    else push [c] (splitString quote cs)

/-- Splits the text of a template off, through its closing backtick or the opening of the next
substitution, and says whether it was the latter. -/
def splitTemplate : List Char → (List Char × List Char) × Bool
  | [] => (([], []), false)
  | '\\' :: c :: cs => let (split, opens) := splitTemplate cs; (push ['\\', c] split, opens)
  | '\x60' :: cs => ((['\x60'], cs), false)
  | '$' :: '{' :: cs => ((['$', '{'], cs), true)
  | c :: cs => let (split, opens) := splitTemplate cs; (push [c] split, opens)

/-- Splits the rest of a regular expression off, after its opening slash, flags included.  A slash
inside a class does not close it; a line break shows that it was none. -/
def splitRegex (inClass : Bool) : List Char → List Char × List Char
  | [] => ([], [])
  | '\\' :: c :: cs => push ['\\', c] (splitRegex inClass cs)
  | c :: cs =>
    if c == '\n' || c == '\r' then ([], c :: cs)
    else if c == '[' then push [c] (splitRegex true cs)
    else if c == ']' then push [c] (splitRegex false cs)
    else if c == '/' && !inClass then push [c] (splitWhile isWordPart cs)
    else push [c] (splitRegex inClass cs)

def lexeme (split : List Char × List Char) (next : State) : Move :=
  ⟨split.1, split.2, next, none⟩

def slash (st : State) : List Char → Move
  | '/' :: cs =>
    let split := push ['/', '/'] (splitLine cs)
    ⟨split.1, split.2, st, some (.line, true)⟩
  | '*' :: cs =>
    let (split, closed) := splitBlock cs
    let split := push ['/', '*'] split
    ⟨split.1, split.2, st, some (.block, closed)⟩
  | cs =>
    if st.regexAllowed then lexeme (push ['/'] (splitRegex false cs)) (st.after false)
    else match cs with
      | '=' :: cs => lexeme (['/', '='], cs) (st.after true)
      | cs => lexeme (['/'], cs) (st.after true)

/-- A lexeme that ends in the text of a template: `opener` is what stands before that text. -/
def template (st : State) (opener : Char) (cs : List Char) : Move :=
  let (split, opens) := splitTemplate cs
  let next := st.after opens
  lexeme (push [opener] split)
    (if opens then { next with templates := st.depth :: st.templates } else next)

/-- A closing brace ends a substitution if as many braces are open as before it; else it closes
a brace. -/
def closeBrace (st : State) (cs : List Char) : Move :=
  match st.templates with
  | [] => lexeme (['}'], cs) { st.after true with depth := st.depth - 1 }
  | d :: outer =>
    if d == st.depth then template { st with templates := outer } '}' cs
    else lexeme (['}'], cs) { st.after true with depth := st.depth - 1 }

/-- A word.  Only after an expression keyword that is not a property name does a slash start a
regular expression. -/
def word (st : State) (cs : List Char) : Move :=
  let split := splitWhile isWordPart cs
  lexeme split (st.after (!st.afterDot && expressionKeywords.contains (String.ofList split.1)))

/-- A dot: the start of a number, or the sign that a property name follows. -/
def dot (st : State) (cs : List Char) : Move :=
  if cs.head?.any Char.isDigit then
    lexeme (push ['.'] (splitWhile isWordPart cs)) (st.after false)
  else lexeme (['.'], cs) { st with regexAllowed := true, afterDot := true }

/-- Splits the first lexeme off `c :: cs`. -/
def step (st : State) (c : Char) (cs : List Char) : Move :=
  if c == '/' then slash st cs
  else if c == '\'' || c == '"' then lexeme (push [c] (splitString c cs)) (st.after false)
  else if c == '\x60' then template st c cs
  else if c == '{' then lexeme ([c], cs) { st.after true with depth := st.depth + 1 }
  else if c == '}' then closeBrace st cs
  else if c == ')' || c == ']' then lexeme ([c], cs) (st.after false)
  else if c == '.' then dot st cs
  else if (c == '+' || c == '-') && cs.head? == some c then lexeme ([c, c], cs.tail) st
  else if c.isDigit then lexeme (splitWhile isWordPart (c :: cs)) (st.after false)
  else if isWordPart c then word st (c :: cs)
  else if isSpace c then lexeme ([c], cs) st
  else if c == '?' && cs.head? == some '.' then
    lexeme ([c, '.'], cs.tail) { st with regexAllowed := true, afterDot := true }
  else lexeme ([c], cs) (st.after true)

def byteLength (cs : List Char) : Nat :=
  cs.foldr (fun c n => c.utf8Size + n) 0

def scanFrom : Nat → Nat → State → List Char → List Comment
  | 0, _, _, _ => []
  | _ + 1, _, _, [] => []
  | n + 1, offset, st, c :: cs =>
    let move := step st c cs
    let stop := offset + byteLength move.taken
    let later := scanFrom n stop move.next move.rest
    match move.comment with
    | some (kind, terminated) =>
      ⟨⟨offset, stop⟩, kind, String.ofList move.taken, terminated⟩ :: later
    | none => later

/-- A first line that starts with `#!` names an interpreter and is no part of the script. -/
def splitHashbang : List Char → List Char × List Char
  | '#' :: '!' :: cs => push ['#', '!'] (splitLine cs)
  | cs => ([], cs)

end JsPrune.Scanner

namespace JsPrune

def Comment.all (source : String) : List Comment :=
  let (hashbang, cs) := Scanner.splitHashbang source.toList
  Scanner.scanFrom cs.length (Scanner.byteLength hashbang) .initial cs

end JsPrune
