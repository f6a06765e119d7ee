/-!
# Lines and columns

A position names a place in a text by its line and by the UTF-16 code units before it on this line,
both counted from zero.  A line ends at a line feed, at a carriage return, or at the two together.

A cursor answers a series of questions about one text.  It goes on from its last answer while the
offsets ascend, and starts again when one is smaller.
-/

namespace JsPrune

/-- A line of a text and a column on it, both from zero.  Neither exceeds the size of the text in bytes,
so 32 bits hold them in a text of less than `2 ^ 32` bytes. -/
structure Position where
  line : Nat
  /-- In UTF-16 code units. -/
  column : Nat
  deriving DecidableEq, Repr

namespace Position

def start : Position := ⟨0, 0⟩

def le (p q : Position) : Bool :=
  decide (p.line < q.line) || (p.line == q.line && decide (p.column ≤ q.column))

def units (c : Char) : Nat := if c.toNat < 0x10000 then 1 else 2

/-- The position behind `c`, which stands at `p`.  A line feed ends no line of its own right after
a carriage return. -/
def advance (p : Position) (afterReturn : Bool) (c : Char) : Position :=
  if c == '\n' && afterReturn then p
  else if c == '\n' || c == '\r' then ⟨p.line + 1, 0⟩
  else ⟨p.line, p.column + units c⟩

end Position

structure Cursor where
  /-- The characters from here on. -/
  rest : List Char
  offset : Nat
  position : Position
  /-- Whether the last character was a carriage return. -/
  afterReturn : Bool
  deriving DecidableEq, Repr

namespace Cursor

def ofString (text : String) : Cursor := ⟨text.toList, 0, .start, false⟩

/-- Moves over all characters of `cs` that lie before offset `target` as a whole. -/
def advanceOver (target : Nat) : List Char → Nat → Position → Bool → Cursor
  | [], offset, position, afterReturn => ⟨[], offset, position, afterReturn⟩
  | c :: cs, offset, position, afterReturn =>
    if offset + c.utf8Size ≤ target then
      advanceOver target cs (offset + c.utf8Size) (position.advance afterReturn c) (c == '\r')
    else ⟨c :: cs, offset, position, afterReturn⟩

/-- Moves to the last boundary of `text` that is not beyond offset `target`. -/
def moveTo (cursor : Cursor) (text : String) (target : Nat) : Cursor :=
  let start := if target < cursor.offset then ofString text else cursor
  advanceOver target start.rest start.offset start.position start.afterReturn

def positions (text : String) : Cursor → List Nat → List Position
  | _, [] => []
  | cursor, target :: targets =>
    let here := cursor.moveTo text target
    here.position :: positions text here targets

end Cursor

def Position.ofOffsets (text : String) (offsets : List Nat) : List Position :=
  Cursor.positions text (Cursor.ofString text) offsets

end JsPrune
