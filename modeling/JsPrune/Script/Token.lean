import JsPrune.Script.Gap
/-!
# Tokens

The lexical forms of a script: words, strings, templates, regular expressions, numbers and
punctuators.  Each rule looks at the characters that are left and gives the number of those that
belong to its token, or nothing if no such token stands there.
-/

namespace JsPrune.Script.Token

abbrev Rule := List Char → Option Nat

def behind (n : Nat) (length : Option Nat) : Option Nat := length.map (n + ·)

def countWhile (p : Char → Bool) : List Char → Nat
  | [] => 0
  | c :: cs => if p c then countWhile p cs + 1 else 0

def isWordPart (inside : Bool) (c : Char) : Bool :=
  if c.toNat < 0x80 then
    c.isAlpha || c == '_' || c == '$' || c == '\x7f' || (inside && c.isDigit)
  else !isSpace c

def isHexDigit (c : Char) : Bool :=
  c.isDigit || ('a' ≤ c && c ≤ 'f') || ('A' ≤ c && c ≤ 'F')

def isOctalDigit (c : Char) : Bool := '0' ≤ c && c ≤ '7'

def hexDigits (n : Nat) : Rule := fun cs =>
  if (cs.take n).length == n && (cs.take n).all isHexDigit then some n else none

def bracedDigits : Rule := fun cs =>
  let n := countWhile isHexDigit cs
  if 0 < n && (cs.drop n).head? == some '}' then some (n + 1) else none

def codePoint : Rule
  | '{' :: cs => behind 1 (bracedDigits cs)
  | cs => hexDigits 4 cs

def wordPart (inside : Bool) : Rule
  | '\\' :: 'u' :: cs => behind 2 (codePoint cs)
  | c :: _ => if isWordPart inside c then some 1 else none
  | [] => none

def wordRest : Nat → List Char → Nat
  | 0, _ => 0
  | n + 1, cs =>
    match wordPart true cs with
    | some k => k + wordRest n (cs.drop k)
    | none => 0

def word : Rule := fun cs =>
  (wordPart false cs).map fun k =>
    let plain := k + countWhile (isWordPart true) (cs.drop k)
    match cs.drop plain with
    | '\\' :: rest => plain + wordRest (rest.length + 1) ('\\' :: rest)
    | _ => plain

/-- An escape of a string or template, behind its backslash.  A line break of two characters is
escaped as a whole. -/
def escaped : Rule
  | [] => none
  | c :: cs =>
    if c == 'x' then behind 1 (hexDigits 2 cs)
    else if c == 'u' then behind 1 (codePoint cs)
    else if isOctalDigit c then some (1 + countWhile isOctalDigit (cs.take 2))
    else if (c == '\r' || c == '?') && cs.head?.any isBreak then some 2
    else some 1

def stringRest (quote : Char) : Nat → Rule
  | 0, _ => none
  | _ + 1, [] => none
  | n + 1, c :: cs =>
    if c == quote then some 1
    else if c == '\\' then
      (escaped cs).bind fun k => behind (1 + k) (stringRest quote n (cs.drop k))
    else if c == '\n' || c == '\r' then none
    else behind 1 (stringRest quote n cs)

def string : Rule
  | [] => none
  | c :: cs =>
    if c == '"' || c == '\'' then behind 1 (stringRest c (cs.length + 1) cs) else none

/-- At most `n` parts of template text, through the closing backtick or the opening of a
substitution. -/
def templateRest : Nat → Rule
  | 0, _ => none
  | _ + 1, [] => none
  | n + 1, c :: cs =>
    if c == '\x60' then some 1
    else if c == '$' && cs.head? == some '{' then some 2
    else if c == '\\' then
      (escaped cs).bind fun k => behind (1 + k) (templateRest n (cs.drop k))
    else if c == '\x00' then none
    else behind 1 (templateRest n cs)

def templateText : Rule := fun cs => templateRest (cs.length + 1) cs

def regexRest : Bool → Rule
  | _, [] => none
  | inClass, '\\' :: c :: cs => if c == '\n' then none else behind 2 (regexRest inClass cs)
  | inClass, c :: cs =>
    if c == '\n' || c == '\\' then none
    else if c == '/' && !inClass then some 1
    else behind 1 (regexRest (if inClass then c != ']' else c == '[') cs)

def regex : Rule
  | '/' :: '/' :: _ => none
  | '/' :: cs => (regexRest false cs).map fun k => 1 + k + countWhile Char.isLower (cs.drop k)
  | _ => none

def countDigits (isDigit : Char → Bool) : List Char → Nat
  | [] => 0
  | '_' :: c :: cs => if isDigit c then countDigits isDigit cs + 2 else 0
  | c :: cs => if isDigit c then countDigits isDigit cs + 1 else 0

def digits (isDigit : Char → Bool) : Rule
  | [] => none
  | c :: cs => if isDigit c then some (countDigits isDigit cs + 1) else none

def basedDigits : Rule
  | '0' :: c :: cs =>
    if c == 'x' || c == 'X' then behind 2 (digits isHexDigit cs)
    else if c == 'o' || c == 'O' then behind 2 (digits isOctalDigit cs)
    else if c == 'b' || c == 'B' then behind 2 (digits (fun d => d == '0' || d == '1') cs)
    else none
  | _ => none

def exponent : List Char → Nat
  | [] => 0
  | c :: cs =>
    if c == 'e' || c == 'E' then
      let sign := if cs.head? == some '+' || cs.head? == some '-' then 1 else 0
      match digits Char.isDigit (cs.drop sign) with
      | some k => 1 + sign + k
      | none => 0
    else 0

/-- Whether a point can follow the digits of a number: unless it starts with a zero and goes on
with another one or with an underscore. -/
def canHavePoint : List Char → Bool
  | '0' :: c :: _ => c != '0' && c != '_'
  | _ => true

/-- The number of characters behind the digits of a decimal number: the mark of a big integer, or a
fraction and an exponent. -/
def decimalTail (pointAllowed : Bool) : List Char → Nat
  | [] => 0
  | c :: cs =>
    if c == 'n' then 1
    else if !pointAllowed then 0
    else if c == '.' then
      let k := (digits Char.isDigit cs).getD 0
      1 + k + exponent (cs.drop k)
    else exponent (c :: cs)

def decimal : Rule
  | '.' :: cs =>
    (digits Char.isDigit cs).map fun k => 1 + k + exponent (cs.drop k)
  | cs => (digits Char.isDigit cs).map fun k => k + decimalTail (canHavePoint cs) (cs.drop k)

def number : Rule := fun cs =>
  match basedDigits cs with
  | some k => some (if (cs.drop k).head? == some 'n' then k + 1 else k)
  | none => decimal cs

/-- The punctuators, every one before those that it starts with. -/
def punctuators : List String :=
  [">>>=", "...", "===", "!==", "**=", "<<=", ">>=", ">>>", "&&=", "||=", "??=", "=>", "==", "!=",
   "<=", ">=", "&&", "||", "??", "?.", "++", "--", "+=", "-=", "*=", "/=", "%=", "&=", "|=", "^=",
   "<<", ">>", "**", "(", ")", "[", "]", "\x7b", "\x7d", ".", ";", ",", "<", ">", "+", "-", "*",
   "/", "%", "&", "|", "^", "!", "~", "?", ":", "=", "@"]

/-- The longest punctuator at the front.  A question mark before a decimal fraction stands
alone. -/
def punctuator? (cs : List Char) : Option String :=
  match punctuators.find? fun p => p.toList.isPrefixOf cs with
  | some "?." => if (cs.drop 2).head?.any Char.isDigit then some "?" else some "?."
  | found => found

def infixOperators : List String :=
  ["===", "!==", ">>>", "==", "!=", "<=", ">=", "&&", "||", "??", "<<", ">>", "**", "<", ">", "+",
   "-", "*", "/", "%", "&", "|", "^"]

def updatingAssignments : List String :=
  [">>>=", "**=", "<<=", ">>=", "&&=", "||=", "??=", "+=", "-=", "*=", "/=", "%=", "&=", "|=", "^="]

def leadingOperators : List String := ["++", "--", "+", "-", "!", "~"]

def leadingWords : List String := ["typeof", "void", "delete", "await"]

def reservedWords : List String :=
  ["break", "case", "catch", "class", "const", "continue", "debugger", "default", "delete", "do",
   "else", "export", "extends", "false", "finally", "for", "function", "if", "import", "in",
   "instanceof", "new", "null", "return", "super", "switch", "this", "throw", "true", "try",
   "typeof", "var", "void", "while", "with"]

end JsPrune.Script.Token
