import JsPrune.Comment.Basic
import JsPrune.Error
import JsPrune.Text.Bytes
/-!
# How far a removal reaches

What is to go is given by a bare span.  Before it is cut, the span is widened over what would be left
dangling: the semicolon of a statement, the blanks beside it, and the indentation and the break of a
line on which nothing else stands.  Apart from that semicolon only whitespace is ever added.

A comment needs care: without it two tokens could become one, or two lines.  It then stays.
-/

namespace JsPrune

/-- The span from `start` to `stop`, if it is a non-empty span between characters of `source`. -/
def Span.ofBounds (source : String) (start stop : Nat) : Except Error Span :=
  if start < stop ∧ stop ≤ source.utf8ByteSize ∧ Text.isBoundary source start = true ∧
      Text.isBoundary source stop = true then .ok ⟨start, stop⟩
  else .error (.invalidSpan start stop source.utf8ByteSize)

structure Margin where
  /-- Where the blanks before the span start. -/
  start : Nat
  /-- Where the blanks after the span stop. -/
  stop : Nat
  /-- Whether nothing but blanks stands before the span on its line. -/
  opensLine : Bool
  /-- Whether nothing but blanks stands behind the span on its line. -/
  closesLine : Bool
  deriving DecidableEq, Repr

namespace Margin

def ofSpan (source : String) (span : Span) : Margin :=
  let start := Text.blankStart source span.start
  let stop := Text.blankStop source span.stop
  ⟨start, stop, Text.startsLine source start, Text.endsLine source stop⟩

def wholeLine (margin : Margin) (source : String) : Span :=
  ⟨margin.start, margin.stop + Text.breakLength source margin.stop⟩

end Margin

inductive Construct where
  | statement
  | expression
  deriving DecidableEq, Repr

inductive Placement where
  /-- Among the statements of a script, a block or a switch clause. -/
  | statementList
  /-- As the whole expression of an expression statement. -/
  | expressionStatement
  /-- Anywhere else. -/
  | nested
  deriving DecidableEq, Repr

namespace Padding

def isFullStatement : Construct → Placement → Bool
  | _, .expressionStatement => true
  | .statement, .statementList => true
  | _, _ => false

def withSemicolon (source : String) (span : Span) : Span :=
  let semicolon := some (';'.toNat.toUInt8)
  if Text.byte? source (span.stop - 1) == semicolon then span
  else
    let next := Text.blankStop source span.stop
    if Text.byte? source next == semicolon then ⟨span.start, next + 1⟩ else span

/-- Widens the span of a statement over its line, if it is alone there, or else over the blanks
between it and its neighbour. -/
def line (source : String) (span : Span) : Span :=
  let margin := Margin.ofSpan source span
  match margin.opensLine, margin.closesLine with
  | true, true => margin.wholeLine source
  | false, true => ⟨margin.start, span.stop⟩
  | _, false => ⟨span.start, margin.stop⟩

/-- What goes together with a piece of syntax.  Only whole statements are widened. -/
def construct (source : String) (span : Span) (kind : Construct) (placement : Placement) : Span :=
  if isFullStatement kind placement then line source (withSemicolon source span) else span

def isIdentifierByte (b : UInt8) : Bool :=
  (0x30 ≤ b && b ≤ 0x39) || (0x41 ≤ b && b ≤ 0x5A) || (0x61 ≤ b && b ≤ 0x7A) ||
    b == 0x5F || b == 0x24 || b == 0x5C || b == 0x23 || 0x80 ≤ b

def isOperatorByte (b : UInt8) : Bool :=
  "+-*/%<>=&|!?.^~".toUTF8.toList.contains b

/-- Whether two bytes, made adjacent, could belong to one token. -/
def glues (left right : UInt8) : Bool :=
  (isIdentifierByte left && isIdentifierByte right) ||
    (isOperatorByte left && isOperatorByte right)

def gluesAround (source : String) (span : Span) : Bool :=
  match Text.byte? source (span.start - 1), Text.byte? source span.stop with
  | some left, some right => glues left right
  | _, _ => false

/-- What goes together with a comment between code on both sides: the blanks behind it if there
are some on either side.  Nothing goes if this would join two tokens or two lines. -/
def embedded (source : String) (comment : Comment) (margin : Margin) : Option Span :=
  let span := comment.span
  if comment.isMultiline then none
  else if margin.start == span.start && margin.stop == span.stop && gluesAround source span then
    none
  else if margin.start < span.start && span.stop < margin.stop then
    some ⟨span.start, margin.stop⟩
  else some span

/-- What goes together with a comment: the lines that it has for itself, or else the blanks
between it and the code on one side.  `none` if the comment has to stay. -/
def comment (source : String) (comment : Comment) : Option Span :=
  let margin := Margin.ofSpan source comment.span
  match margin.opensLine, margin.closesLine with
  | true, true => some (margin.wholeLine source)
  | false, true => some ⟨margin.start, comment.span.stop⟩
  | true, false => some ⟨comment.span.start, margin.stop⟩
  | false, false => embedded source comment margin

/-- Widens a span over the whitespace that it strands.  Alone on its line it takes the line; at an
end of its line it takes the blanks up to that end; one that ends in a line break stays as it is, and
so do the blank lines behind it. -/
def stranded (source : String) (span : Span) : Span :=
  if span.isEmpty || (Text.byte? source (span.stop - 1)).any Text.isLineBreak then span
  else
    let margin := Margin.ofSpan source span
    match margin.opensLine, margin.closesLine with
    | true, true => margin.wholeLine source
    | false, true => ⟨margin.start, margin.stop⟩
    | true, false => ⟨span.start, margin.stop⟩
    | false, false => span

end Padding

end JsPrune
