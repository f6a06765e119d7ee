import JsPrune.Comment.Basic
import JsPrune.Text.WordChar
/-!
# What stands between tokens

Between two tokens of a script stand whitespace and comments.  At the end of a statement that gap
can also stand for a semicolon: at the end of a block or of the script, and at a line break unless
the next character suggests that the statement goes on.

The decision is made where the last token ends, and made again behind every comment in the gap.
-/

namespace JsPrune.Script

structure Input where
  rest : List Char
  offset : Nat
  deriving DecidableEq, Repr

namespace Input

def ofString (source : String) : Input := ⟨source.toList, 0⟩

def drop : Nat → Input → Input
  | 0, input => input
  | _ + 1, ⟨[], offset⟩ => ⟨[], offset⟩
  | n + 1, ⟨c :: cs, offset⟩ => drop n ⟨cs, offset + c.utf8Size⟩

end Input

/-- Whitespace between tokens: Unicode white space, the byte order mark, the word joiner and the
zero-width space. -/
def isSpace (c : Char) : Bool :=
  Text.isWhiteSpace c || c == '\uFEFF' || c == '\u2060' || c == '\u200B'

/-- The whitespace that the search for a semicolon passes over. -/
def isAsciiSpace (c : Char) : Bool :=
  c == ' ' || (decide (0x09 ≤ c.toNat) && decide (c.toNat ≤ 0x0D))

/-- The line breaks that can stand for a semicolon.  A carriage return alone is none. -/
def isBreak (c : Char) : Bool :=
  c == '\n' || c == '\u2028' || c == '\u2029'

def isLetterNext (cs : List Char) : Bool := cs.head?.any Char.isAlpha

namespace Semicolon

/-- Whether a statement ends before what follows its line break.  It does not before a character
that would carry it on. -/
def endsBefore : List Char → Bool
  | '.' :: cs => cs.head?.any Char.isDigit
  | '+' :: cs => cs.head? == some '+'
  | '-' :: cs => cs.head? == some '-'
  | '!' :: cs => cs.head? != some '='
  | 'i' :: 'n' :: cs =>
    isLetterNext cs &&
      (!"stanceof".toList.isPrefixOf cs || isLetterNext (cs.drop 8))
  | c :: _ => !"\x60,:;*%><=[(?^|&/".toList.contains c
  | [] => true

inductive Place where
  /-- On the line of the last token, before any comment. -/
  | start
  /-- On that line, at the character right behind a block comment. -/
  | resumed
  /-- Behind a comment; the flag says whether a block comment held a line break. -/
  | gap (broken : Bool)
  | line (broken : Bool)
  | block (broken : Bool)
  deriving DecidableEq, Repr

/-- The first characters behind a line break that are neither whitespace nor in a comment; `none`
if a slash comes first. -/
def afterBreak : Place → List Char → Option (List Char)
  | .line _, c :: cs =>
    if c == '\n' then afterBreak (.gap true) cs
    else if isBreak c || c == '\x00' then some (c :: cs)
    else afterBreak (.line true) cs
  | .block _, '*' :: '/' :: cs => afterBreak (.gap true) cs
  | .block _, c :: cs => if c == '\x00' then some (c :: cs) else afterBreak (.block true) cs
  | _, '/' :: '/' :: cs => afterBreak (.line true) cs
  | _, '/' :: '*' :: cs => afterBreak (.block true) cs
  | _, '/' :: _ => none
  | _, c :: cs => if isAsciiSpace c then afterBreak (.gap true) cs else some (c :: cs)
  | _, [] => some []

def endsAtBreak (cs : List Char) : Bool :=
  (afterBreak .start cs).any endsBefore

/-- Whether a line comment, or a block comment that holds a line break, ends a statement by
itself. -/
def commentEnds (commentCounts : Bool) (cs : List Char) : Bool :=
  commentCounts && cs.head? != some ',' && cs.head? != some '='

/-- Whether a gap stands for a semicolon, from its start on.  `commentCounts` tells whether a
comment that breaks the line is enough. -/
def inserted (commentCounts : Bool) : Place → List Char → Bool
  | .start, [] => true
  | .start, '/' :: '/' :: cs => inserted commentCounts (.line false) cs
  | .start, '/' :: '*' :: cs => inserted commentCounts (.block false) cs
  | .start, c :: cs =>
    if c == '\x00' || c == '}' then true
    else if isBreak c then endsAtBreak cs
    else isAsciiSpace c && inserted commentCounts .start cs
  | .resumed, [] => false
  | .resumed, c :: cs =>
    if c == '}' then true
    else if isBreak c then endsAtBreak cs
    else isAsciiSpace c && inserted commentCounts .start cs
  | .gap broken, '/' :: '/' :: cs => inserted commentCounts (.line broken) cs
  | .gap broken, '/' :: '*' :: cs => inserted commentCounts (.block broken) cs
  | .gap _, '/' :: _ => false
  | .gap broken, c :: cs =>
    if isAsciiSpace c then inserted commentCounts (.gap broken) cs
    else commentEnds commentCounts (c :: cs) || c == '}' || (isBreak c && endsAtBreak cs)
  | .gap _, [] => commentCounts
  | .line broken, c :: cs =>
    if c == '\n' then inserted commentCounts (.gap broken) cs
    else if isBreak c then commentEnds commentCounts (c :: cs) || endsAtBreak cs
    else if c == '\x00' then commentCounts
    else inserted commentCounts (.line broken) cs
  | .line _, [] => commentCounts
  | .block broken, '*' :: '/' :: cs =>
    if cs.head? == some '/' then inserted commentCounts (.gap broken) cs
    else (broken && commentEnds commentCounts cs) || inserted commentCounts .resumed cs
  | .block broken, c :: cs =>
    if c == '\x00' then commentCounts
    else inserted commentCounts (.block (broken || isBreak c)) cs
  | .block _, [] => commentCounts

end Semicolon

/-- Whether a semicolon may be left out at a place of the grammar, and whether a comment that
breaks the line is enough for it. -/
inductive Insertion where
  | never
  | possible (commentCounts : Bool)
  deriving DecidableEq, Repr

/-- Whether the gap that starts here stands for a semicolon. -/
def Insertion.applies (insertion : Insertion) (cs : List Char) : Bool :=
  match insertion with
  | .never => false
  | .possible commentCounts => Semicolon.inserted commentCounts .start cs

inductive GapPlace where
  | space
  | line
  /-- In a comment of the form that ends only at a line feed or a separator. -/
  | markup
  /-- In a block comment that started at the given input. -/
  | block (start : Input)
  deriving DecidableEq, Repr

inductive Gap where
  /-- A semicolon that is not written. -/
  | semicolon
  /-- The next token, or the end of the script. -/
  | token (input : Input)
  deriving DecidableEq, Repr

/-- Follows a gap to its end.  A block comment that never ends is none, so its slash is a token.
Where `markup` allows it, `<!--` and `-->` open a comment too. -/
def gapFrom (insertion : Insertion) (markup : Bool) : GapPlace → List Char → Nat → Gap
  | .space, '/' :: '/' :: cs, offset => gapFrom insertion markup .line cs (offset + 2)
  | .space, '/' :: '*' :: cs, offset =>
    gapFrom insertion markup (.block ⟨'/' :: '*' :: cs, offset⟩) cs (offset + 2)
  | .space, c :: cs, offset =>
    if isSpace c then gapFrom insertion markup .space cs (offset + c.utf8Size)
    else if markup && ("<!--".toList.isPrefixOf (c :: cs) || "-->".toList.isPrefixOf (c :: cs)) then
      gapFrom insertion markup .markup cs (offset + c.utf8Size)
    else .token ⟨c :: cs, offset⟩
  | .line, c :: cs, offset =>
    if isLineTerminator c then
      if insertion.applies (c :: cs) then .semicolon
      else gapFrom insertion markup .space cs (offset + c.utf8Size)
    else gapFrom insertion markup .line cs (offset + c.utf8Size)
  | .markup, c :: cs, offset =>
    if isBreak c then
      if insertion.applies (c :: cs) then .semicolon
      else gapFrom insertion markup .space cs (offset + c.utf8Size)
    else gapFrom insertion markup .markup cs (offset + c.utf8Size)
  | .block _, '*' :: '/' :: cs, offset =>
    if insertion.applies cs then .semicolon else gapFrom insertion markup .space cs (offset + 2)
  | .block start, c :: cs, offset =>
    gapFrom insertion markup (.block start) cs (offset + c.utf8Size)
  | .block start, [], _ => .token start
  | .space, [], offset => .token ⟨[], offset⟩
  | _, [], offset => if insertion.applies [] then .semicolon else .token ⟨[], offset⟩

def gap (insertion : Insertion) (markup : Bool) (input : Input) : Gap :=
  if insertion.applies input.rest then .semicolon
  else gapFrom insertion markup .space input.rest input.offset

end JsPrune.Script
