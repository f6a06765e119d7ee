/-!
# Spans of a text

A span is a half-open interval of byte offsets.  A list of spans stands for the set of offsets that
they cover, and `Span.union` brings it into the one list that names this set by ascending,
non-empty spans that neither overlap nor touch.
-/

namespace JsPrune

/-- The byte offsets from `start` up to, but not including, `stop`. -/
structure Span where
  start : Nat
  stop : Nat
  deriving DecidableEq, Repr, Inhabited

namespace Span

def isEmpty (r : Span) : Bool := decide (r.stop ≤ r.start)

def length (r : Span) : Nat := r.stop - r.start

/-- Whether a span comes no later than another one: by where they start, and then by where they
stop. -/
def le (r s : Span) : Bool :=
  decide (r.start < s.start) || (r.start == s.start && decide (r.stop ≤ s.stop))

def insert (r : Span) : List Span → List Span
  | [] => [r]
  | s :: rest => if r.le s then r :: s :: rest else s :: insert r rest

def sort (spans : List Span) : List Span := spans.foldr insert []

/-- Sweeps over sorted spans behind a span that may still grow: it takes in every span that starts no
later than it stops. -/
def coalesce (last : Span) : List Span → List Span
  | [] => [last]
  | r :: rest =>
    if r.start ≤ last.stop then coalesce ⟨last.start, max last.stop r.stop⟩ rest
    else last :: coalesce r rest

/-- The ascending spans without contact that cover the same offsets as `spans`. -/
def union (spans : List Span) : List Span :=
  match sort (spans.filter fun r => !r.isEmpty) with
  | [] => []
  | r :: rest => coalesce r rest

end Span

end JsPrune
