import JsPrune.Proofs.Padding.Comments
import Mathlib.Data.Nat.Find
/-!
# Line breaks survive

Where comments are removed between two bytes of code and the source has a line terminator there, a
line break is kept.  It is the first one, or else the one right behind the comment that holds the
first one: such a comment is marked only at an end of its line.
-/

namespace JsPrune.Padding

open String (utf8Len)
open Text

/-- Two bytes of code that are kept, with nothing between them but spaces and what is removed. -/
structure Gap (source : String) (removed : List Span) (p q : Nat) : Prop where
  lt : p < q
  stop_lt : q < source.utf8ByteSize
  code_start : (byte? source p).any isSpace = false
  code_stop : (byte? source q).any isSpace = false
  kept_start : Span.covers removed p = false
  kept_stop : Span.covers removed q = false
  between : ∀ i, p < i → i < q → Span.covers removed i = false →
    (byte? source i).any isSpace = true

namespace Gap

theorem of_origins {source : String} {removed : List Span} (h : Cuttable source removed)
    {j k p q : Nat} (hp : (origins source removed)[j]? = some p)
    (hq : (origins source removed)[k]? = some q) (hjk : j < k)
    (hj : (byte? (cut source removed) j).any isSpace = false)
    (hk : (byte? (cut source removed) k).any isSpace = false)
    (hbetween : ∀ i, j < i → i < k → (byte? (cut source removed) i).any isSpace = true) :
    Gap source removed p q := by
  rw [byte?_cut h hp] at hj
  rw [byte?_cut h hq] at hk
  obtain ⟨hqlt, hqkept⟩ := kept_of_origins hq
  refine ⟨origins_lt hp hq hjk, hqlt, hj, hk, (kept_of_origins hp).2, hqkept, ?_⟩
  intro i hpi hiq hkept
  obtain ⟨l, hl⟩ := exists_origin (Nat.lt_trans hiq hqlt) hkept
  rw [← byte?_cut h hl]
  exact hbetween l ((origins_lt_iff hp hl).mpr hpi) ((origins_lt_iff hl hq).mpr hiq)

variable {source : String} {marks : List Mark} {p q : Nat}

theorem lt_of_run (h : Gap source (Mark.removed source marks) p q) {start i : Nat} (hpi : p < i)
    (hrun : ∀ k, start ≤ k → k ≤ i → Span.covers (Mark.removed source marks) k = true) :
    p < start := by
  by_contra hle
  have hcovers := hrun p (by omega) (by omega)
  rw [h.kept_start] at hcovers
  exact absurd hcovers (by simp)

theorem span_inside (h : Gap source (Mark.removed source marks) p q) {span : Span}
    (hspan : ∀ k, span.start ≤ k → k < span.stop →
      Span.covers (Mark.removed source marks) k = true) {i : Nat} (hpi : p < i) (hiq : i < q)
    (hi : span.start ≤ i ∧ i < span.stop) : p < span.start ∧ span.stop ≤ q := by
  constructor
  · exact h.lt_of_run hpi fun k hk hki => hspan k hk (by omega)
  · by_contra hgt
    have hcovers := hspan q (by omega) (by omega)
    rw [h.kept_stop] at hcovers
    exact absurd hcovers (by simp)

/-- The first byte of a line terminator is a line break, or no space at all. -/
theorem break_of_terminator_space {front behind : List Char} {t : Char}
    (hs : source.toList = front ++ t :: behind) (ht : isLineTerminator t = true)
    (hspace : (byte? source (utf8Len front)).any isSpace = true) :
    (byte? source (utf8Len front)).any isLineBreak = true := by
  have hpos := t.utf8Size_pos
  obtain ⟨b, hb, hb'⟩ := (Option.any_eq_true _ _).mp hspace
  have hmem := mem_utf8EncodeChar_of_byte? hs (Nat.le_refl _) (by omega) hb
  rw [hb]
  rw [isSpace, Bool.or_eq_true] at hb'
  rcases hb' with hblank | hbreak
  · -- No line terminator is a blank.
    have hnat := toNat_eq_of_mem_utf8EncodeChar hmem (toNat_lt_of_isBlank hblank)
    simp only [isBlank, Bool.or_eq_true, beq_iff_eq] at hblank
    simp only [isLineTerminator, Bool.or_eq_true, beq_iff_eq] at ht
    rcases ht with ((rfl | rfl) | rfl) | rfl <;>
      rcases hblank with ((rfl | rfl) | rfl) | rfl <;> exact absurd hnat (by decide)
  · exact hbreak

theorem break_of_terminator (h : Gap source (Mark.removed source marks) p q)
    (hmarks : OfComments source marks) {front behind : List Char} {t : Char}
    (hs : source.toList = front ++ t :: behind) (ht : isLineTerminator t = true)
    (hp : p < utf8Len front) (hq : utf8Len front < q) :
    ∃ i, p < i ∧ i < q ∧ (byte? source i).any isLineBreak = true := by
  cases hspace : (byte? source (utf8Len front)).any isSpace with
  | true => exact ⟨_, hp, hq, break_of_terminator_space hs ht hspace⟩
  | false =>
      -- A terminator beyond ASCII is no space, so it goes only with a comment around it.
      have hcovers : Span.covers (Mark.removed source marks) (utf8Len front) = true := by
        by_contra hkept
        have := h.between _ hp hq (Bool.not_eq_true _ ▸ hkept)
        rw [hspace] at this
        exact absurd this (by simp)
      obtain ⟨c, hc, hin⟩ := exists_marked_of_code hmarks hspace hcovers
      have hplace := h.span_inside (fun _ => hc.covers) hp hq hin
      obtain ⟨hmem, mark, -, hmark⟩ := hc
      have hmulti := (Comment.standsIn_of_mem hmem).isMultiline_of_mem hs hin.1 hin.2 ht
      rcases opens_or_closes hmark hmulti with hopens | hcloses
      · obtain ⟨k, hpk, hk, hbreak⟩ := break_of_opens h.code_start hplace.1 hopens
        exact ⟨k, hpk, by omega, hbreak⟩
      · obtain ⟨hk, hkq, hbreak⟩ := break_of_closes h.stop_lt h.code_stop hplace.2 hcloses
        exact ⟨_, by omega, hkq, hbreak⟩

theorem marked_of_first_break (h : Gap source (Mark.removed source marks) p q)
    (hmarks : OfComments source marks) {e : Nat} (hpe : p < e) (heq : e < q)
    (hbreak : (byte? source e).any isLineBreak = true)
    (hfirst : ∀ k, p < k → k < e → ¬ (byte? source k).any isLineBreak = true)
    (hcovers : Span.covers (Mark.removed source marks) e = true) :
    ∃ c, Marked source marks c ∧ p < c.span.start ∧ c.span.start ≤ e ∧ e < c.span.stop ∧
      c.span.stop ≤ q ∧ closes source c.span.stop = true := by
  have hopens : ∀ j, p < j → j ≤ e → ¬ opens source j = true := by
    intro j hpj hje hopens
    obtain ⟨k, hpk, hkj, hbreak⟩ := break_of_opens h.code_start hpj hopens
    exact hfirst k hpk (by omega) hbreak
  obtain ⟨c, hc, hce, hrun, hor⟩ := exists_marked_of_break hmarks hbreak hcovers
  have hpc := h.lt_of_run hpe hrun
  have hec : e < c.span.stop := hor.resolve_right (hopens _ hpc hce)
  have hplace := h.span_inside (fun _ => hc.covers) hpe heq ⟨hce, hec⟩
  refine ⟨c, hc, hpc, hce, hec, hplace.2, ?_⟩
  obtain ⟨hmem, mark, -, hmark⟩ := hc
  have hmulti := (Comment.standsIn_of_mem hmem).isMultiline_of_break hce hec hbreak
  exact (opens_or_closes hmark hmulti).resolve_left (hopens _ hpc hce)

/-- Between two bytes of code with a line terminator between them a line break is kept. -/
theorem exists_kept_break (h : Gap source (Mark.removed source marks) p q)
    (hmarks : OfComments source marks) {front behind : List Char} {t : Char}
    (hs : source.toList = front ++ t :: behind) (ht : isLineTerminator t = true)
    (hp : p < utf8Len front) (hq : utf8Len front < q) :
    ∃ i, p < i ∧ i < q ∧ Span.covers (Mark.removed source marks) i = false ∧
      (byte? source i).any isLineBreak = true := by
  have hany := h.break_of_terminator hmarks hs ht hp hq
  obtain ⟨hpe, heq, hbreak⟩ := Nat.find_spec hany
  have hfirst := fun k => Nat.find_min hany (m := k)
  generalize Nat.find hany = e at hpe heq hbreak hfirst
  cases hcovers : Span.covers (Mark.removed source marks) e with
  | false => exact ⟨e, hpe, heq, hcovers, hbreak⟩
  | true =>
      obtain ⟨c, hc, hpc, hce, hec, hcq, hcloses⟩ := h.marked_of_first_break hmarks hpe heq hbreak
        (fun k hpk hke hk => hfirst k hke ⟨hpk, by omega, hk⟩) hcovers
      obtain ⟨hg, hgq, hgbreak⟩ := break_of_closes h.stop_lt h.code_stop hcq hcloses
      refine ⟨blankStop source c.span.stop, by omega, hgq, ?_, hgbreak⟩
      by_contra hgcovers
      obtain ⟨d, hd, hdg, hrun, hor⟩ :=
        exists_marked_of_break hmarks hgbreak (Bool.not_eq_false _ ▸ hgcovers)
      have hpd := h.lt_of_run (by omega) hrun
      -- A comment that starts before the first line break opens no line.
      have hopens : d.span.start ≤ e → ¬ opens source d.span.start = true := by
        intro hde hopens
        obtain ⟨k, hpk, hkd, hk⟩ := break_of_opens h.code_start hpd hopens
        exact hfirst k (by omega) ⟨hpk, by omega, hk⟩
      rcases Comment.eq_or_apart hc.1 hd.1 with rfl | hbehind | hbefore
      · rcases hor with hlt | hor
        · omega
        · exact hopens hce hor
      · -- Between the comment and the line break behind it there is no slash.
        have hslash := (Comment.standsIn_of_mem hd.1).byte?_start
        rcases Nat.eq_or_lt_of_le hdg with heq | hlt
        · rw [← heq, hslash] at hgbreak
          exact absurd hgbreak (by decide)
        · have hblank := blankRun_blankStop source c.span.stop _ hbehind hlt
          rw [hslash] at hblank
          exact absurd hblank (by decide)
      · have htwo := (Comment.standsIn_of_mem hd.1).start_add_two_le
        rcases hor with hlt | hor
        · omega
        · exact hopens (by omega) hor

end Gap

end JsPrune.Padding
