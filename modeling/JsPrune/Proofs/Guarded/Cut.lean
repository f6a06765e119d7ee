import JsPrune.Proofs.Guarded.Padding
import JsPrune.Session
/-!
# Cuts that ask before they copy

Marks that stand at boundaries of a text come down to spans that ascend inside it.  So the cut never
goes back, everything that it copies is a part of the text, and it never removes more than there is.
-/

namespace JsPrune.Guarded

open Text

def removed (source : String) (marks : List Mark) : Option (List Span) := do
  let wide ← (Span.union (marks.map Mark.span)).mapM (stranded source)
  some (Span.union wide)

def cutFrom (source : String) : Nat → List Span → Option String
  | cursor, [] => slice? source cursor source.utf8ByteSize
  | cursor, r :: removed => do
    let kept ← slice? source cursor r.start
    let rest ← cutFrom source r.stop removed
    some (kept ++ rest)

def cut (source : String) (removed : List Span) : Option String := do
  let lengths ← removed.mapM fun r => sub r.stop r.start
  let _room ← sub source.utf8ByteSize (lengths.foldr (· + ·) 0)
  cutFrom source 0 removed

structure Finished where
  removed : List Span
  code : String
  shorter : Nat
  deriving DecidableEq, Repr

def finish (session : Session) : Option Finished := do
  let removed ← removed session.source session.marks
  let code ← cut session.source removed
  let shorter ← sub session.source.utf8ByteSize code.utf8ByteSize
  some ⟨removed, code, shorter⟩

variable {source : String}

theorem mapM_eq_some {α β : Type} {f : α → Option β} {g : α → β} {xs : List α}
    (h : ∀ x ∈ xs, f x = some (g x)) : xs.mapM f = some (xs.map g) := by
  induction xs with
  | nil => rfl
  | cons x xs ih =>
      rw [List.mapM_cons, h x List.mem_cons_self, ih fun y hy => h y (List.mem_cons_of_mem _ hy)]
      rfl

theorem removed_eq {marks : List Mark} (h : Padding.AtBoundaries source (marks.map Mark.span)) :
    removed source marks = some (Mark.removed source marks) := by
  have hstranded : ∀ r ∈ Span.union (marks.map Mark.span),
      stranded source r = some (Padding.stranded source r) := fun r hr =>
    stranded_eq (Nat.le_of_lt ((Span.canonical_union _).nonempty r hr))
      (le_size_of_isBoundary (h.union r hr).2)
  rw [removed, mapM_eq_some hstranded]
  rfl

theorem cutFrom_eq {cursor : Nat} {removed : List Span} (hcursor : isBoundary source cursor = true)
    (h : Cuttable source removed) (hstart : ∀ r ∈ removed, cursor ≤ r.start) :
    cutFrom source cursor removed = some (Text.cutFrom source cursor removed) := by
  induction removed generalizing cursor with
  | nil =>
      rw [cutFrom, slice?_eq (le_size_of_isBoundary hcursor) hcursor (isBoundary_size source),
        Text.cutFrom]
  | cons r removed ih =>
      have hr := h.boundary r List.mem_cons_self
      have hrest := ih hr.2 h.tail fun s hs => Nat.le_of_lt (h.canonical.head_lt hs)
      rw [cutFrom, slice?_eq (hstart r List.mem_cons_self) hcursor hr.1, hrest, Text.cutFrom]
      rfl

theorem cut_eq {removed : List Span} (h : Cuttable source removed) :
    cut source removed = some (Text.cut source removed) := by
  have hlengths : removed.mapM (fun r => sub r.stop r.start) = some (removed.map Span.length) :=
    mapM_eq_some fun r hr => sub_eq (Nat.le_of_lt (h.canonical.nonempty r hr))
  have hroom : (removed.map Span.length).foldr (· + ·) 0 ≤ source.utf8ByteSize := by
    rw [← size_cut_add h]
    exact Nat.le_add_left ..
  rw [cut, hlengths, Option.bind_eq_bind, Option.bind_some, sub_eq hroom, Option.bind_eq_bind,
    Option.bind_some, cutFrom_eq (isBoundary_zero source) h fun r _ => Nat.zero_le r.start, Text.cut]

theorem finish_eq {session : Session}
    (h : Padding.AtBoundaries session.source (session.marks.map Mark.span)) :
    finish session = some ⟨session.removed, session.code,
      session.source.utf8ByteSize - session.code.utf8ByteSize⟩ := by
  have hcut := Padding.cuttable_removed h
  have hshorter : (Text.cut session.source (Mark.removed session.source session.marks)).utf8ByteSize ≤
      session.source.utf8ByteSize := by
    rw [← size_cut_add hcut]
    exact Nat.le_add_right ..
  simp only [finish, removed_eq h, cut_eq hcut, sub_eq hshorter, Option.bind_eq_bind,
    Option.bind_some, Session.code_eq, Session.removed_eq]

end JsPrune.Guarded
