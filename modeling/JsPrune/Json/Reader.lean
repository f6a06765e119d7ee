import JsPrune.Json.Basic
import JsPrune.Json.Number
/-!
# Reading JSON text

A reader takes a value off the front of a text and returns what it leaves.  It fails at the first
character that cannot belong to a document, and the failure tells whether the text ended too early
or went wrong.
-/

namespace JsPrune.Json

inductive Fault where
  /-- The text ends inside a value. -/
  | unexpectedEnd
  /-- A character cannot stand where it does. -/
  | malformed
  deriving DecidableEq, Repr

abbrev Reader (α : Type) := List Char → Except Fault (α × List Char)

namespace Reader

def refuse {α : Type} : Reader α
  | [] => .error .unexpectedEnd
  | _ => .error .malformed

def skipSpace : List Char → List Char
  | [] => []
  | c :: cs =>
    if c == ' ' || c == '\t' || c == '\n' || c == '\r' then skipSpace cs else c :: cs

def literal {α : Type} (value : α) : List Char → Reader α
  | [], cs => .ok (value, cs)
  | _ :: _, [] => .error .unexpectedEnd
  | w :: ws, c :: cs => if c == w then literal value ws cs else .error .malformed

def splitDigits : List Char → List Nat × List Char
  | [] => ([], [])
  | c :: cs =>
    if c.isDigit then
      let (digits, rest) := splitDigits cs
      ((c.toNat - '0'.toNat) :: digits, rest)
    else ([], c :: cs)

def digits : Reader (List Nat) := fun cs =>
  match splitDigits cs with
  | ([], rest) => refuse rest
  | split => .ok split

def wholePart : Reader (List Nat)
  | '0' :: cs => if cs.head?.any Char.isDigit then .error .malformed else .ok ([0], cs)
  | cs => digits cs

def fractionPart : Reader (List Nat)
  | '.' :: cs => digits cs
  | cs => .ok ([], cs)

def magnitude (cs : List Char) : Except Fault (Int × List Char) :=
  (digits cs).map fun (ds, rest) => (((ds.foldl (fun n d => 10 * n + d) 0 : Nat) : Int), rest)

def exponentPart : Reader Int
  | [] => .ok (0, [])
  | c :: cs =>
    if c == 'e' || c == 'E' then
      match cs with
      | '-' :: cs => (magnitude cs).map fun (n, rest) => (-n, rest)
      | '+' :: cs => magnitude cs
      | cs => magnitude cs
    else .ok (0, c :: cs)

def unsignedNumber : Reader Unit := fun cs => do
  let (whole, cs) ← wholePart cs
  let (fraction, cs) ← fractionPart cs
  let (exponent, cs) ← exponentPart cs
  if overflows whole fraction exponent then .error .malformed else .ok ((), cs)

def number : Reader Json := fun cs => do
  let unsigned := match cs with
    | '-' :: rest => rest
    | _ => cs
  let ((), rest) ← unsignedNumber unsigned
  .ok (.number (String.ofList (cs.take (cs.length - rest.length))), rest)

def hexValue? (c : Char) : Option Nat :=
  if c.isDigit then some (c.toNat - '0'.toNat)
  else if 'a' ≤ c ∧ c ≤ 'f' then some (c.toNat - 'a'.toNat + 10)
  else if 'A' ≤ c ∧ c ≤ 'F' then some (c.toNat - 'A'.toNat + 10)
  else none

/-- Reads a code unit of four hexadecimal digits.  A text of fewer than four bytes is too short
for one. -/
def codeUnit : Reader Nat
  | a :: b :: c :: d :: cs =>
    match hexValue? a, hexValue? b, hexValue? c, hexValue? d with
    | some a, some b, some c, some d => .ok (((a * 16 + b) * 16 + c) * 16 + d, cs)
    | _, _, _, _ => .error .malformed
  | cs =>
    if cs.foldr (fun c n => c.utf8Size + n) 0 < 4 then .error .unexpectedEnd else .error .malformed

def trailingSurrogate (leading : Nat) : Reader Char
  | '\\' :: 'u' :: cs => do
    let (trailing, cs) ← codeUnit cs
    if 0xDC00 ≤ trailing ∧ trailing ≤ 0xDFFF then
      .ok (Char.ofNat ((leading - 0xD800) * 0x400 + (trailing - 0xDC00) + 0x10000), cs)
    else .error .malformed
  | ['\\'] => .error .unexpectedEnd
  | [] => .error .unexpectedEnd
  | _ => .error .malformed

/-- Reads the character that code units name.  Surrogates come in pairs only. -/
def escapedUnits : Reader Char := fun cs => do
  let (unit, cs) ← codeUnit cs
  if 0xDC00 ≤ unit ∧ unit ≤ 0xDFFF then .error .malformed
  else if 0xD800 ≤ unit ∧ unit ≤ 0xDBFF then trailingSurrogate unit cs
  else .ok (Char.ofNat unit, cs)

def escaped : Reader Char
  | [] => .error .unexpectedEnd
  | c :: cs =>
    if c == '"' || c == '\\' || c == '/' then .ok (c, cs)
    else if c == 'b' then .ok ('\x08', cs)
    else if c == 'f' then .ok ('\x0c', cs)
    else if c == 'n' then .ok ('\n', cs)
    else if c == 'r' then .ok ('\r', cs)
    else if c == 't' then .ok ('\t', cs)
    else if c == 'u' then escapedUnits cs
    else .error .malformed

def characters : Nat → Reader (List Char)
  | 0, cs => refuse cs
  | _ + 1, [] => .error .unexpectedEnd
  | n + 1, c :: cs =>
    if c == '"' then .ok ([], cs)
    else if c.toNat < 0x20 then .error .malformed
    else do
      let (c, cs) ← if c == '\\' then escaped cs else .ok (c, cs)
      let (later, cs) ← characters n cs
      .ok (c :: later, cs)

def string : Reader String := fun cs =>
  (characters (cs.length + 1) cs).map fun (chars, rest) => (String.ofList chars, rest)

/-- Reads at most `n` further items of an array, each after a comma, through the closing
bracket. -/
def furtherItems (item : Reader Json) : Nat → Reader (List Json)
  | 0, cs => refuse cs
  | n + 1, cs =>
    match skipSpace cs with
    | ']' :: cs => .ok ([], cs)
    | ',' :: cs => do
      let (first, cs) ← item (skipSpace cs)
      let (later, cs) ← furtherItems item n cs
      .ok (first :: later, cs)
    | cs => refuse cs

def array (item : Reader Json) : Reader Json := fun cs =>
  match skipSpace cs with
  | ']' :: cs => .ok (.array [], cs)
  | cs => do
    let (first, cs) ← item cs
    let (later, cs) ← furtherItems item (cs.length + 1) cs
    .ok (.array (first :: later), cs)

def member (value : Reader Json) : Reader (String × Json)
  | '"' :: cs => do
    let (name, cs) ← string cs
    match skipSpace cs with
    | ':' :: cs => do
      let (content, cs) ← value (skipSpace cs)
      .ok ((name, content), cs)
    | cs => refuse cs
  | cs => refuse cs

/-- Reads at most `n` further members of an object, each after a comma, through the closing brace.
Of two members with one name the later one counts. -/
def furtherMembers (value : Reader Json) :
    Nat → List (String × Json) → Reader (List (String × Json))
  | 0, _, cs => refuse cs
  | n + 1, members, cs =>
    match skipSpace cs with
    | '}' :: cs => .ok (members, cs)
    | ',' :: cs => do
      let ((name, content), cs) ← member value (skipSpace cs)
      furtherMembers value n (setMember name content members) cs
    | cs => refuse cs

def object (value : Reader Json) : Reader Json := fun cs =>
  match skipSpace cs with
  | '}' :: cs => .ok (.object [], cs)
  | cs => do
    let (first, cs) ← member value cs
    let (members, cs) ← furtherMembers value (cs.length + 1) [first] cs
    .ok (.object members, cs)

/-- Reads a value whose parts `inner` reads.  Without `inner` the value must have no parts. -/
def valueOver (inner : Option (Reader Json)) : Reader Json
  | [] => .error .unexpectedEnd
  | c :: cs =>
    if c == 'n' then literal .null "ull".toList cs
    else if c == 't' then literal (.bool true) "rue".toList cs
    else if c == 'f' then literal (.bool false) "alse".toList cs
    else if c == '"' then (string cs).map fun (s, rest) => (.string s, rest)
    else if c == '-' || c.isDigit then number (c :: cs)
    else match inner with
      | none => .error .malformed
      | some inner =>
        if c == '[' then array inner cs
        else if c == '{' then object inner cs
        else .error .malformed

def value : Nat → Reader Json
  | 0 => valueOver none
  | depth + 1 => valueOver (some (value depth))

end Reader

def maxDepth : Nat := 127

def leading (text : String) : Except Fault (Json × List Char) :=
  Reader.value maxDepth (Reader.skipSpace text.toList)

def finish (rest : List Char) : Except Fault Unit :=
  match Reader.skipSpace rest with
  | [] => .ok ()
  | _ => .error .malformed

def ofText (text : String) : Except Fault Json := do
  let (value, rest) ← leading text
  finish rest
  .ok value

end JsPrune.Json
