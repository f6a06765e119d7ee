/-!
# Texts by byte offset

Positions in a text are byte offsets of its UTF-8 form.  This module reads the byte at an offset,
says which offsets lie between two characters, and measures the runs of blanks and the line breaks
around an offset.  Everything measured here is ASCII, so a walk that starts between two characters
ends between two characters.
-/

namespace JsPrune.Text

def byte? (s : String) (i : Nat) : Option UInt8 :=
  if h : i < s.utf8ByteSize then some (s.getUTF8Byte ⟨i⟩ h) else none

def isBoundary (s : String) (i : Nat) : Bool :=
  (⟨i⟩ : String.Pos.Raw).isValid s

def slice (s : String) (start stop : Nat) : String :=
  String.Pos.Raw.extract s ⟨start⟩ ⟨stop⟩

/-- The same, if the offsets are boundaries in this order. -/
def slice? (s : String) (start stop : Nat) : Option String :=
  if start ≤ stop ∧ isBoundary s start = true ∧ isBoundary s stop = true then
    some (slice s start stop)
  else none

def isBlank (b : UInt8) : Bool :=
  b == 0x20 || b == 0x09 || b == 0x0B || b == 0x0C

def isLineBreak (b : UInt8) : Bool :=
  b == 0x0A || b == 0x0D

def blankStart (s : String) : Nat → Nat
  | 0 => 0
  | i + 1 => if (byte? s i).any isBlank then blankStart s i else i + 1

def skipBlanks (s : String) : Nat → Nat → Nat
  | 0, i => i
  | n + 1, i => if (byte? s i).any isBlank then skipBlanks s n (i + 1) else i

def blankStop (s : String) (i : Nat) : Nat :=
  skipBlanks s (s.utf8ByteSize - i) i

def startsLine (s : String) (i : Nat) : Bool :=
  i == 0 || (byte? s (i - 1)).any isLineBreak

def endsLine (s : String) (i : Nat) : Bool :=
  (byte? s i).all isLineBreak

/-- The length of the line break at offset `i`: a carriage return and the line feed after it are
one break of two bytes, and where no line ends the length is zero. -/
def breakLength (s : String) (i : Nat) : Nat :=
  if byte? s i == some 0x0D && byte? s (i + 1) == some 0x0A then 2
  else if (byte? s i).any isLineBreak then 1 else 0

end JsPrune.Text
