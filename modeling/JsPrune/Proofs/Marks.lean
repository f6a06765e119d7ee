import JsPrune.Proofs.Padding.Widening
/-!
# What marks come down to

Marks can be given in any order, more than once, inside each other or in pieces.  Their union is the
only list of its form that covers what they cover, so what is removed depends on nothing but the set
of offsets that they cover together.
-/

namespace JsPrune.Mark

open JsPrune.Span

theorem eq_union_iff (spans form : List Span) :
    form = union spans ↔
      Canonical form ∧ ∀ i, covers form i = covers (spans.filter fun r => !r.isEmpty) i := by
  constructor
  · rintro rfl
    refine ⟨canonical_union spans, ?_⟩
    intro i
    rw [covers_union, covers_filter_nonempty]
  · rintro ⟨hform, hcovers⟩
    apply hform.ext (canonical_union spans)
    intro i
    rw [hcovers, covers_union, covers_filter_nonempty]

theorem canonical_removed (source : String) (marks : List Mark) :
    Canonical (removed source marks) :=
  canonical_union _

/-- Marks that cover the same offsets remove the same. -/
theorem removed_congr (source : String) {marks marks' : List Mark}
    (h : ∀ i, covers (marks.map Mark.span) i = covers (marks'.map Mark.span) i) :
    removed source marks = removed source marks' := by
  rw [removed, removed, union_congr h]

/-- The union of spans is the one list of non-empty spans, each of which stops before the next one
starts, that covers what the non-empty ones among them cover, and it is its own union.  What marks
remove has this form too, and marks that cover the same offsets remove the same. -/
theorem union_canonical (source : String) :
    (∀ spans form : List Span, form = union spans ↔
      Canonical form ∧ ∀ i, covers form i = covers (spans.filter fun r => !r.isEmpty) i) ∧
    (∀ spans : List Span, union (union spans) = union spans) ∧
    (∀ marks : List Mark, Canonical (removed source marks)) ∧
    ∀ marks marks' : List Mark,
      (∀ i, covers (marks.map Mark.span) i = covers (marks'.map Mark.span) i) →
      removed source marks = removed source marks' := by
  refine ⟨eq_union_iff, ?_, canonical_removed source, ?_⟩
  · intro spans
    exact (canonical_union spans).union_eq
  · intro marks marks' h
    exact removed_congr source h

/-- One mark, and the same in two pieces that overlap with a third one inside, in another order. -/
theorem union_canonical_pieces :
    removed "a();\nlog(x);\nb();\n" [⟨⟨9, 14⟩, .construct⟩, ⟨⟨10, 10⟩, .comment⟩,
      ⟨⟨6, 8⟩, .construct⟩, ⟨⟨5, 11⟩, .construct⟩] =
    removed "a();\nlog(x);\nb();\n" [⟨⟨5, 14⟩, .construct⟩] := by
  apply (union_canonical "a();\nlog(x);\nb();\n").2.2.2
  intro i
  rw [Bool.eq_iff_iff, covers_iff, covers_iff]
  simp only [List.map_cons, List.map_nil, List.mem_cons, List.not_mem_nil, or_false,
    exists_eq_or_imp, exists_eq_left]
  omega

/-! ## Whether anything is removed -/

theorem totalLength_pos {spans : List Span} (h : Canonical spans) (hne : spans ≠ []) :
    0 < totalLength spans := by
  cases spans with
  | nil => exact absurd rfl hne
  | cons r rest =>
      have := h.nonempty r List.mem_cons_self
      rw [totalLength_cons]
      omega

theorem removed_ne_nil {source : String} {marks : List Mark} {mark : Mark} (hmark : mark ∈ marks)
    (hne : mark.span.start < mark.span.stop) : removed source marks ≠ [] := by
  intro hnil
  have hcovers := (Padding.covering_removed source marks).covers mark.span.start
    (covers_of_mem (List.mem_map_of_mem hmark) (Nat.le_refl _) hne)
  rw [hnil, covers_nil] at hcovers
  exact absurd hcovers (by simp)

end JsPrune.Mark
