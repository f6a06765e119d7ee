import JsPrune.Proofs.Padding.Comments
/-!
# Widening once more

What marks remove is widened once over the whitespace that it strands.  A span that comes out of this
on its own would not be widened again.  A span that several widened ones form together can be, since
nothing looks at it as a whole.  Here it is said which spans would change.
-/

namespace JsPrune.Padding

open Text

/-! ## Spans that strand whitespace -/

def endsInBreak (source : String) (span : Span) : Bool :=
  (byte? source (span.stop - 1)).any isLineBreak

/-- A span strands whitespace if it ends inside a line and either leaves blanks beside it at the end of
this line, or leaves the line empty, or leaves blanks behind it at the start of the line. -/
def Strands (source : String) (span : Span) : Prop :=
  endsInBreak source span = false ∧
    (closes source span.stop = true ∧
        (blankStart source span.start < span.start ∨ span.stop < blankStop source span.stop ∨
          opens source span.start = true ∧ span.stop < source.utf8ByteSize) ∨
      opens source span.start = true ∧ span.stop < blankStop source span.stop)

theorem stranded_of_break {source : String} {span : Span} (h : endsInBreak source span = true) :
    stranded source span = span := by
  unfold endsInBreak at h
  rw [stranded, h, Bool.or_true, if_pos rfl]

theorem stranded_eq {source : String} {span : Span} (hne : span.start < span.stop)
    (hbreak : endsInBreak source span = false) :
    stranded source span =
      ⟨if closes source span.stop then blankStart source span.start else span.start,
        if opens source span.start && closes source span.stop then
          blankStop source span.stop + breakLength source (blankStop source span.stop)
        else if opens source span.start || closes source span.stop then
          blankStop source span.stop
        else span.stop⟩ := by
  have hempty : span.isEmpty = false := Span.isEmpty_eq_false_iff.mpr hne
  unfold endsInBreak at hbreak
  rw [stranded, hempty, hbreak, margin_ofSpan]
  cases opens source span.start <;> cases closes source span.stop <;> rfl

theorem breakLength_eq_zero_iff {source : String} {i : Nat} (h : closes source i = true) :
    breakLength source (blankStop source i) = 0 ↔
      source.utf8ByteSize ≤ blankStop source i := by
  rcases endsLine_iff.mp h with hsize | hbreak
  · have hnone : byte? source (blankStop source i) = none := byte?_eq_none_iff.mpr hsize
    rw [breakLength_eq_zero (by rw [hnone]; rfl)]
    exact iff_of_true rfl hsize
  · have hlt := lt_size_of_any hbreak
    rcases breakLength_cases hbreak with hlen | ⟨hlen, -⟩ <;> omega

theorem endsInBreak_add_breakLength {source : String} (start : Nat) {i : Nat}
    (h : 0 < breakLength source i) :
    endsInBreak source ⟨start, i + breakLength source i⟩ = true := by
  unfold endsInBreak
  dsimp only
  apply break_of_lt_breakLength (i := i) <;> omega

theorem stranded_ne_self_iff {source : String} {span : Span} (hne : span.start < span.stop) :
    stranded source span ≠ span ↔ Strands source span := by
  cases hbreak : endsInBreak source span with
  | true =>
      rw [stranded_of_break hbreak, Strands, hbreak]
      simp
  | false =>
      have hstart := blankStart_le source span.start
      have hstop := le_blankStop source span.stop
      obtain ⟨start, stop⟩ := span
      rw [stranded_eq hne hbreak, Strands, hbreak]
      dsimp only at hstart hstop ⊢
      rw [ne_eq, Span.mk.injEq]
      cases hopens : opens source start with
      | false =>
          cases hcloses : closes source stop with
          | false => simp
          | true =>
              simp only [Bool.false_and, Bool.false_or, Bool.false_eq_true, if_true, if_false]
              simp only [true_and, false_and, or_false]
              omega
      | true =>
          cases hcloses : closes source stop with
          | false =>
              simp only [Bool.and_false, Bool.or_false, Bool.false_eq_true, if_true, if_false]
              simp only [true_and, false_and, false_or]
              omega
          | true =>
              have hlen := breakLength_eq_zero_iff hcloses
              simp only [Bool.and_self, if_true, true_and]
              omega

theorem not_endsInBreak_of_stranded {source : String} {span : Span}
    (h : endsInBreak source (stranded source span) = false) : endsInBreak source span = false := by
  by_contra hbreak
  rw [Bool.not_eq_false] at hbreak
  rw [stranded_of_break hbreak, hbreak] at h
  exact absurd h (by simp)

theorem blankStart_stranded {source : String} {span : Span} (hne : span.start < span.stop)
    (hbreak : endsInBreak source span = false) (hcloses : closes source span.stop = true) :
    blankStart source (stranded source span).start = (stranded source span).start := by
  rw [stranded_eq hne hbreak, hcloses, if_pos rfl]
  exact blankStart_blankStart source span.start

/-- A span that opens its line leaves no blanks behind it, and no line break either unless it ends
with one itself. -/
theorem blankStop_stranded {source : String} {span : Span} (hne : span.start < span.stop)
    (hopens : opens source span.start = true)
    (hinside : endsInBreak source (stranded source span) = false) :
    blankStop source (stranded source span).stop = (stranded source span).stop ∧
      (closes source (stranded source span).stop = true →
        source.utf8ByteSize ≤ (stranded source span).stop) := by
  have hbreak := not_endsInBreak_of_stranded hinside
  rw [stranded_eq hne hbreak, hopens] at hinside ⊢
  cases hcloses : closes source span.stop with
  | false =>
      simp only [Bool.and_false, Bool.true_or, Bool.false_eq_true, if_true, if_false]
      rw [closes_blankStop, hcloses]
      exact ⟨blankStop_blankStop source span.stop, fun h => absurd h (by simp)⟩
  | true =>
      rw [hcloses] at hinside
      simp only [Bool.and_self, if_true] at hinside ⊢
      have hzero : breakLength source (blankStop source span.stop) = 0 := by
        by_contra hpos
        rw [endsInBreak_add_breakLength _ (Nat.pos_of_ne_zero hpos)] at hinside
        exact absurd hinside (by simp)
      rw [hzero, Nat.add_zero]
      exact ⟨blankStop_blankStop source span.stop,
        fun _ => (breakLength_eq_zero_iff hcloses).mp hzero⟩

theorem not_strands_stranded {source : String} {span : Span} (hne : span.start < span.stop) :
    ¬ Strands source (stranded source span) := by
  intro hstrands
  have hbreak := not_endsInBreak_of_stranded hstrands.1
  cases hopens : opens source span.start with
  | true =>
      obtain ⟨hstop, hsize⟩ := blankStop_stranded hne hopens hstrands.1
      obtain ⟨-, ⟨hends, hor⟩ | hor⟩ := hstrands
      · have hcloses : closes source span.stop = true := by
          by_contra hcloses
          rw [Bool.not_eq_true] at hcloses
          rw [stranded_eq hne hbreak, hopens, hcloses] at hends
          simp [closes_blankStop, hcloses] at hends
        have hstart := blankStart_stranded hne hbreak hcloses
        have hge := hsize hends
        omega
      · omega
  | false =>
      obtain ⟨-, hor⟩ := hstrands
      rw [stranded_eq hne hbreak, hopens] at hor
      cases hcloses : closes source span.stop with
      | false => simp [hopens, hcloses] at hor
      | true =>
          simp [hopens, hcloses, opens_blankStart, blankStart_blankStart, blankStop_blankStop] at hor

/-- Canonical spans are widened to themselves, all together, exactly if none strands whitespace. -/
theorem union_stranded_eq_self_iff {source : String} {spans : List Span}
    (h : Span.Canonical spans) :
    Span.union (spans.map (stranded source)) = spans ↔ ∀ r ∈ spans, ¬ Strands source r := by
  constructor
  · intro heq r hr hstrands
    have hne := (stranded_ne_self_iff (h.nonempty r hr)).mpr hstrands
    have hwiden := widens_stranded source r
    have hstart := hwiden.start_le
    have hstop := hwiden.le_stop
    have hcovers : ∀ i, (stranded source r).start ≤ i → i < (stranded source r).stop →
        Span.covers spans i = true := by
      intro i hi hlt
      rw [← heq, Span.covers_union]
      exact Span.covers_of_mem (List.mem_map_of_mem hr) hi hlt
    have hrne := h.nonempty r hr
    -- A wider span would cover the offset before the span, or the one behind it.
    rcases Nat.eq_or_lt_of_le hstart with hsame | hbefore
    · rcases Nat.eq_or_lt_of_le hstop with hsame' | hbehind
      · apply hne
        cases hw : stranded source r
        cases r
        rw [hw] at hsame hsame'
        rw [Span.mk.injEq]
        exact ⟨hsame, hsame'.symm⟩
      · have hout := h.not_covers_stop hr
        rw [hcovers r.stop (by omega) hbehind] at hout
        exact absurd hout (by simp)
    · have hout := h.not_covers_before hr (i := r.start - 1) (by omega)
      rw [hcovers (r.start - 1) (by omega) (by omega)] at hout
      exact absurd hout (by simp)
  · intro hnone
    have hmap : spans.map (stranded source) = spans := by
      calc spans.map (stranded source)
        _ = spans.map id := by
            apply List.map_congr_left
            intro r hr
            by_contra hne
            exact hnone r hr ((stranded_ne_self_iff (h.nonempty r hr)).mp hne)
        _ = spans := List.map_id spans
    rw [hmap, h.union_eq]

end JsPrune.Padding
