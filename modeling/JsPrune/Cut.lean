import JsPrune.Padding
/-!
# Marks and the cut

Marks collect what is to be removed from a text, in the order in which it was asked for.  Together
they come down to one list of ascending spans without contact; the cut copies all that lies between
them, in one segment each.
-/

namespace JsPrune

inductive Mark.Kind where
  | construct
  | comment
  deriving DecidableEq, Repr

/-- A removal that was asked for; its span is already widened. -/
structure Mark where
  span : Span
  kind : Mark.Kind
  deriving DecidableEq, Repr

namespace Mark

def count (kind : Kind) (marks : List Mark) : Nat :=
  marks.countP fun mark => mark.kind == kind

/-- What the marks remove from `source`.  Marks that were widened one by one can strand whitespace
together, so their union is widened once more. -/
def removed (source : String) (marks : List Mark) : List Span :=
  Span.union ((Span.union (marks.map Mark.span)).map (Padding.stranded source))

end Mark

structure Segment where
  /-- Where the run starts in the source. -/
  original : Nat
  /-- Where the run starts in the output. -/
  generated : Nat
  length : Nat
  deriving DecidableEq, Repr

namespace Segment

/-- The runs of a text of `size` bytes from offset `cursor` on, whose output starts at
`generated`. -/
def keptFrom (size : Nat) : Nat → Nat → List Span → List Segment
  | cursor, generated, [] =>
    if cursor < size then [⟨cursor, generated, size - cursor⟩] else []
  | cursor, generated, r :: removed =>
    if cursor < r.start then
      ⟨cursor, generated, r.start - cursor⟩ ::
        keptFrom size (max cursor r.stop) (generated + (r.start - cursor)) removed
    else keptFrom size (max cursor r.stop) generated removed

def kept (size : Nat) (removed : List Span) : List Segment :=
  keptFrom size 0 0 removed

end Segment

namespace Text

def cutFrom (source : String) : Nat → List Span → String
  | cursor, [] => slice source cursor source.utf8ByteSize
  | cursor, r :: removed => slice source cursor r.start ++ cutFrom source r.stop removed

def cut (source : String) (removed : List Span) : String :=
  cutFrom source 0 removed

end Text

end JsPrune
