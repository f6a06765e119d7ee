import JsPrune.Cut
import JsPrune.Proofs.Cut
import JsPrune.Proofs.Text.Blanks
/-!
# What padding adds

Every widening of a span keeps the span and adds only spaces on its two sides.  The semicolon of a
statement is the one exception.  The same then holds of all marks together, whose union is widened
once more.
-/

namespace JsPrune.Padding

open Text

/-- One span holds another, and has only spaces beside it. -/
structure Widens (source : String) (span wide : Span) : Prop where
  start_le : wide.start ≤ span.start
  le_stop : span.stop ≤ wide.stop
  space : ∀ i, wide.start ≤ i → i < wide.stop → i < span.start ∨ span.stop ≤ i →
    (byte? source i).any isSpace = true
  boundary : isBoundary source span.start = true ∧ isBoundary source span.stop = true →
    isBoundary source wide.start = true ∧ isBoundary source wide.stop = true

theorem Widens.refl (source : String) (span : Span) : Widens source span span := by
  refine ⟨Nat.le_refl _, Nat.le_refl _, ?_, id⟩
  intro i hstart hstop hout
  omega

theorem any_isSpace_of_blank {source : String} {i : Nat}
    (h : (byte? source i).any isBlank = true) : (byte? source i).any isSpace = true := by
  obtain ⟨b, hb, hblank⟩ := (Option.any_eq_true _ _).mp h
  rw [hb]
  exact isSpace_of_isBlank hblank

theorem any_isSpace_of_break {source : String} {i : Nat}
    (h : (byte? source i).any isLineBreak = true) : (byte? source i).any isSpace = true := by
  obtain ⟨b, hb, hbreak⟩ := (Option.any_eq_true _ _).mp h
  rw [hb]
  exact isSpace_of_isLineBreak hbreak

/-- A span reaches to the blanks on either side, or over them, or over the line break behind
them. -/
theorem widens_margin {source : String} {span wide : Span}
    (hstart : wide.start = span.start ∨ wide.start = (Margin.ofSpan source span).start)
    (hstop : wide.stop = span.stop ∨ wide.stop = (Margin.ofSpan source span).stop ∨
      wide = (Margin.ofSpan source span).wholeLine source) : Widens source span wide := by
  have hbefore := blankStart_le source span.start
  have hbehind := le_blankStop source span.stop
  have hlen : wide.stop = span.stop ∨ wide.stop = blankStop source span.stop ∨
      wide.stop = blankStop source span.stop +
        breakLength source (blankStop source span.stop) := by
    rcases hstop with h | h | h
    · exact Or.inl h
    · exact Or.inr (Or.inl h)
    · exact Or.inr (Or.inr (by rw [h]; rfl))
  have hstart' : wide.start = span.start ∨ wide.start = blankStart source span.start := hstart
  refine ⟨by omega, by omega, ?_, ?_⟩
  · intro i hi hlt hout
    rcases hout with hout | hout
    · exact any_isSpace_of_blank (blankRun_blankStart source span.start i (by omega) hout)
    · rcases Nat.lt_or_ge i (blankStop source span.stop) with hblank | hbreak
      · exact any_isSpace_of_blank (blankRun_blankStop source span.stop i hout hblank)
      · exact any_isSpace_of_break (break_of_lt_breakLength hbreak (by omega))
  · rintro ⟨hb, hb'⟩
    constructor
    · rcases hstart' with h | h <;> rw [h]
      · exact hb
      · exact isBoundary_blankStart hb
    · rcases hlen with h | h | h <;> rw [h]
      · exact hb'
      · exact isBoundary_blankStop hb'
      · exact isBoundary_add_breakLength (isBoundary_blankStop hb')

/-! ## The paddings -/

theorem widens_line (source : String) (span : Span) : Widens source span (line source span) := by
  unfold line
  dsimp only
  split
  · exact widens_margin (Or.inr rfl) (Or.inr (Or.inr rfl))
  · exact widens_margin (Or.inr rfl) (Or.inl rfl)
  · exact widens_margin (Or.inl rfl) (Or.inr (Or.inl rfl))

theorem widens_stranded (source : String) (span : Span) :
    Widens source span (stranded source span) := by
  unfold stranded
  dsimp only
  split
  · exact Widens.refl source span
  · split
    · exact widens_margin (Or.inr rfl) (Or.inr (Or.inr rfl))
    · exact widens_margin (Or.inr rfl) (Or.inr (Or.inl rfl))
    · exact widens_margin (Or.inl rfl) (Or.inr (Or.inl rfl))
    · exact Widens.refl source span

theorem widens_embedded {source : String} {c : Comment} {wide : Span}
    (h : embedded source c (Margin.ofSpan source c.span) = some wide) :
    Widens source c.span wide := by
  unfold embedded at h
  dsimp only at h
  split_ifs at h
  · rw [← Option.some.inj h]
    exact widens_margin (Or.inl rfl) (Or.inr (Or.inl rfl))
  · rw [← Option.some.inj h]
    exact Widens.refl source c.span

theorem widens_comment {source : String} {c : Comment} {wide : Span}
    (h : comment source c = some wide) : Widens source c.span wide := by
  unfold comment at h
  dsimp only at h
  split at h
  · rw [← Option.some.inj h]
    exact widens_margin (Or.inr rfl) (Or.inr (Or.inr rfl))
  · rw [← Option.some.inj h]
    exact widens_margin (Or.inr rfl) (Or.inl rfl)
  · rw [← Option.some.inj h]
    exact widens_margin (Or.inl rfl) (Or.inr (Or.inl rfl))
  · exact widens_embedded h

/-! ## All marks together -/

/-- Some spans are covered by others, and beside them the others cover only spaces. -/
structure Covering (source : String) (spans wide : List Span) : Prop where
  covers : ∀ i, Span.covers spans i = true → Span.covers wide i = true
  space : ∀ i, Span.covers wide i = true → Span.covers spans i = false →
    (byte? source i).any isSpace = true

theorem Covering.trans {source : String} {spans wide wider : List Span}
    (h : Covering source spans wide) (h' : Covering source wide wider) :
    Covering source spans wider := by
  refine ⟨fun i hi => h'.covers i (h.covers i hi), fun i hi hout => ?_⟩
  cases hwide : Span.covers wide i with
  | true => exact h.space i hwide hout
  | false => exact h'.space i hi hwide

theorem covering_union (source : String) (spans : List Span) :
    Covering source spans (Span.union spans) := by
  refine ⟨fun i hi => by rw [Span.covers_union, hi], fun i hi hout => ?_⟩
  rw [Span.covers_union, hout] at hi
  exact absurd hi (by simp)

theorem covering_map {source : String} {f : Span → Span} (spans : List Span)
    (hf : ∀ r, Widens source r (f r)) : Covering source spans (spans.map f) := by
  constructor
  · intro i hi
    obtain ⟨r, hr, hstart, hstop⟩ := Span.covers_iff.mp hi
    exact Span.covers_of_mem (List.mem_map_of_mem hr)
      (Nat.le_trans (hf r).start_le hstart) (Nat.lt_of_lt_of_le hstop (hf r).le_stop)
  · intro i hi hout
    obtain ⟨wide, hwide, hstart, hstop⟩ := Span.covers_iff.mp hi
    obtain ⟨r, hr, rfl⟩ := List.mem_map.mp hwide
    exact (hf r).space i hstart hstop (Span.covers_eq_false_iff.mp hout r hr)

/-- The marks are removed, and beside them only spaces. -/
theorem covering_removed (source : String) (marks : List Mark) :
    Covering source (marks.map Mark.span) (Mark.removed source marks) :=
  (covering_union source _).trans
    ((covering_map _ (widens_stranded source)).trans (covering_union source _))

def AtBoundaries (source : String) (spans : List Span) : Prop :=
  ∀ r ∈ spans, isBoundary source r.start = true ∧ isBoundary source r.stop = true

theorem AtBoundaries.union {source : String} {spans : List Span} (h : AtBoundaries source spans) :
    AtBoundaries source (Span.union spans) := by
  intro t ht
  obtain ⟨r, hr, -, hstart⟩ := Span.start_of_mem_union ht
  obtain ⟨s, hs, -, hstop⟩ := Span.stop_of_mem_union ht
  rw [hstart, hstop]
  exact ⟨(h r hr).1, (h s hs).2⟩

theorem cuttable_removed {source : String} {marks : List Mark}
    (h : AtBoundaries source (marks.map Mark.span)) :
    Cuttable source (Mark.removed source marks) := by
  refine ⟨Span.canonical_union _, AtBoundaries.union ?_⟩
  intro wide hwide
  obtain ⟨r, hr, rfl⟩ := List.mem_map.mp hwide
  exact (widens_stranded source r).boundary (h.union r hr)

end JsPrune.Padding
