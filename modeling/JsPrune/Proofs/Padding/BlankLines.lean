import JsPrune.Proofs.Padding.Sparing
/-!
# Blank lines outside comments

Nothing of a blank line goes, if it is not part of a comment.  Going forward, a widening stops behind the
first line break, which is before the line; going back, it stops at a line break, and the line ends in
one.  What is removed right before the line begins at the start of a line.
-/

namespace JsPrune

namespace Text

/-- A line of blanks, with the line break that ends it.  A line does not start between the two bytes of
a line break. -/
structure BlankLine (s : String) (line : Span) : Prop where
  starts : startsLine s line.start = true
  unsplit : ¬ (byte? s line.start = some 0x0A ∧
    ∃ j, j + 1 = line.start ∧ byte? s j = some 0x0D)
  breaks : (byte? s (blankStop s line.start)).any isLineBreak = true
  stop_eq : line.stop = blankStop s line.start + breakLength s (blankStop s line.start)

theorem lt_blankStart_of_break {s : String} {i j : Nat}
    (hbreak : (byte? s j).any isLineBreak = true) (hji : j < i) : j < blankStart s i := by
  by_contra hle
  have hblank := blankRun_blankStart s i j (by omega) hji
  rw [not_break_of_blank hblank] at hbreak
  exact absurd hbreak (by simp)

theorem blankStop_le_of_break {s : String} {i j : Nat}
    (hbreak : (byte? s j).any isLineBreak = true) (hij : i ≤ j) : blankStop s i ≤ j := by
  by_contra hlt
  have hblank := blankRun_blankStop s i j hij (by omega)
  rw [not_break_of_blank hblank] at hbreak
  exact absurd hbreak (by simp)

theorem breakLength_eq_two_iff {s : String} {i : Nat} :
    breakLength s i = 2 ↔ byte? s i = some 0x0D ∧ byte? s (i + 1) = some 0x0A := by
  rw [breakLength]
  split
  · next hpair => simpa using hpair
  · next hpair =>
      rw [Bool.and_eq_true, beq_iff_eq, beq_iff_eq] at hpair
      refine iff_of_false ?_ hpair
      split <;> simp

namespace BlankLine

variable {s : String} {line : Span}

theorem lt (h : BlankLine s line) : line.start < line.stop := by
  have hle := le_blankStop s line.start
  have hstop := h.stop_eq
  rcases breakLength_cases h.breaks with hlen | ⟨hlen, -⟩ <;> omega

theorem break_last (h : BlankLine s line) : (byte? s (line.stop - 1)).any isLineBreak = true := by
  have hlt := h.lt
  have hstop := h.stop_eq
  have hlen := breakLength_cases h.breaks
  apply break_of_lt_breakLength (i := blankStop s line.start) <;> omega

theorem stop_le_size (h : BlankLine s line) : line.stop ≤ s.utf8ByteSize := by
  have hlt := lt_size_of_any h.break_last
  omega

theorem break_before (h : BlankLine s line) {j : Nat} (hj : j + 1 = line.start) :
    (byte? s j).any isLineBreak = true := by
  rcases startsLine_iff.mp h.starts with hzero | ⟨k, hk, hbreak⟩
  · omega
  · obtain rfl : k = j := by omega
    exact hbreak

theorem stop_le_blankStart (h : BlankLine s line) {i : Nat} (hi : line.stop ≤ i) :
    line.stop ≤ blankStart s i := by
  have hlt := h.lt
  have hbefore := lt_blankStart_of_break h.break_last (show line.stop - 1 < i by omega)
  omega

theorem add_breakLength_le (h : BlankLine s line) {i : Nat} (hi : i < line.start) :
    blankStop s i + breakLength s (blankStop s i) ≤ line.start := by
  have hbreak := h.break_before (j := line.start - 1) (by omega)
  have hle := blankStop_le_of_break hbreak (show i ≤ line.start - 1 by omega)
  by_contra hreach
  rcases Nat.eq_zero_or_pos (breakLength s (blankStop s i)) with hzero | hpos
  · omega
  have hfirst : (byte? s (blankStop s i)).any isLineBreak = true :=
    break_of_lt_breakLength (Nat.le_refl _) (by omega)
  rcases breakLength_cases hfirst with hone | ⟨htwo, -⟩
  · omega
  · -- The line would start between the two bytes of a line break.
    obtain ⟨hreturn, hfeed⟩ := breakLength_eq_two_iff.mp htwo
    have hstart : blankStop s i + 1 = line.start := by omega
    rw [hstart] at hfeed
    exact h.unsplit ⟨hfeed, _, hstart, hreturn⟩

end BlankLine

end Text

namespace Padding

open Text

variable {source : String} {marks : List Mark} {line : Span}

/-! ## Nothing of a blank line goes -/

theorem stop_le_of_comment {c : Comment} {wide : Span} (h : comment source c = some wide) :
    wide.stop ≤ blankStop source c.span.stop +
      breakLength source (blankStop source c.span.stop) := by
  by_cases hcode : opens source c.span.start = false ∨ closes source c.span.stop = false
  · exact Nat.le_trans (stop_of_comment h hcode) (Nat.le_add_right _ _)
  · rw [not_or, Bool.not_eq_false, Bool.not_eq_false] at hcode
    rw [comment, margin_ofSpan, hcode.1, hcode.2] at h
    rw [← Option.some.inj h]
    exact Nat.le_refl _

theorem stop_le_of_stranded (source : String) (span : Span) :
    (stranded source span).stop ≤ max span.stop (blankStop source span.stop +
      breakLength source (blankStop source span.stop)) := by
  have hle := le_blankStop source span.stop
  unfold stranded
  dsimp only
  split
  · exact Nat.le_max_left _ _
  · rw [margin_ofSpan]
    split
    · exact Nat.le_max_right _ _
    · dsimp only
      omega
    · dsimp only
      omega
    · exact Nat.le_max_left _ _

theorem stop_lt_of_apart (hline : BlankLine source line) {c : Comment} (hc : c ∈ Comment.all source)
    (hle : c.span.stop ≤ line.start) : c.span.stop < line.start := by
  have hstands := Comment.standsIn_of_mem hc
  have htwo := hstands.start_add_two_le
  have hlt := hline.lt
  have hsize := hline.stop_le_size
  apply Nat.lt_of_le_of_ne hle
  intro heq
  apply hstands.not_break_last (by omega)
  exact hline.break_before (by omega)

theorem apart_line_of_comment (hline : BlankLine source line) {c : Comment} {wide : Span}
    (hc : c ∈ Comment.all source) (hapart : c.span.Apart line)
    (hwide : comment source c = some wide) : wide.Apart line := by
  rcases hapart with hbefore | hbehind
  · left
    have hlt := stop_lt_of_apart hline hc hbefore
    exact Nat.le_trans (stop_le_of_comment hwide) (hline.add_breakLength_le hlt)
  · right
    have hreach := hline.stop_le_blankStart hbehind
    rcases start_of_comment hwide with heq | heq <;> omega

theorem apart_line_of_stranded (hline : BlankLine source line) {span : Span}
    (hne : span.start < span.stop) (hapart : span.Apart line) :
    (stranded source span).Apart line := by
  cases hinside : endsInBreak source span with
  | true =>
      rw [stranded_of_break hinside]
      exact hapart
  | false =>
      rcases hapart with hbefore | hbehind
      · left
        have hlt : span.stop < line.start := by
          apply Nat.lt_of_le_of_ne hbefore
          intro heq
          rw [endsInBreak, hline.break_before (j := span.stop - 1) (by omega)] at hinside
          exact absurd hinside (by simp)
        have hreach := hline.add_breakLength_le hlt
        have hstop := stop_le_of_stranded source span
        omega
      · right
        have hreach := hline.stop_le_blankStart hbehind
        rcases start_of_stranded source span with heq | heq <;> omega

/-- What marks of comments remove is apart from every blank line outside comments. -/
theorem apart_line_of_mem_removed (hmarks : OfComments source marks)
    (hline : BlankLine source line) (hapart : ∀ c ∈ Comment.all source, c.span.Apart line)
    {r : Span} (hr : r ∈ Mark.removed source marks) : r.Apart line := by
  refine apart_of_removed hline.lt (fun mark hmark => ?_) (fun u hu => ?_) hr
  · obtain ⟨c, hc, hcmark⟩ := hmarks mark hmark
    exact apart_line_of_comment hline hc (hapart c hc) hcmark
  · exact apart_line_of_stranded hline ((Span.canonical_union _).nonempty u hu)

/-! ## What is removed before a line -/

/-- Whether the line break before an offset, if there is one, is in no comment. -/
def OutsideComments (source : String) (i : Nat) : Prop :=
  ∀ c ∈ Comment.all source, ∀ j, j + 1 = i → ¬ (c.span.start ≤ j ∧ j < c.span.stop)

theorem outsideComments_of_opens {c : Comment} (hc : c ∈ Comment.all source)
    (hopens : opens source c.span.start = true) :
    OutsideComments source (blankStart source c.span.start) := by
  rintro d hd j hj ⟨hdj, hjd⟩
  have hle := blankStart_le source c.span.start
  have hcstands := Comment.standsIn_of_mem hc
  have hdstands := Comment.standsIn_of_mem hd
  have htwo := hcstands.start_add_two_le
  have hsize := lt_size_of_byte? hcstands.byte?_start
  have hbreak : (byte? source j).any isLineBreak = true := by
    rcases startsLine_iff.mp hopens with hzero | ⟨k, hk, hbreak⟩
    · omega
    · obtain rfl : k = j := by omega
      exact hbreak
  have hbefore : d.span.stop ≤ c.span.start := by
    rcases Comment.eq_or_apart hd hc with rfl | hapart | hapart <;> omega
  have hstop := hdstands.stop_le_of_run hbefore hcstands.byte?_start
    (blankRun_blankStart source c.span.start)
  apply hdstands.not_break_last (by omega)
  obtain rfl : d.span.stop - 1 = j := by omega
  exact hbreak

/-- A line break outside comments is removed together with everything back to the start of a line, and
the line break before that is outside comments as well. -/
theorem exists_line_of_break (hmarks : OfComments source marks) {i : Nat}
    (hbreak : (byte? source i).any isLineBreak = true)
    (hcovers : Span.covers (Mark.removed source marks) i = true)
    (hout : ∀ c ∈ Comment.all source, ¬ (c.span.start ≤ i ∧ i < c.span.stop)) :
    ∃ j ≤ i, startsLine source j = true ∧ OutsideComments source j ∧
      ∀ k, j ≤ k → k ≤ i → Span.covers (Mark.removed source marks) k = true := by
  rw [Mark.removed, Span.covers_union] at hcovers
  obtain ⟨wide, hwide, hin⟩ := Span.covers_iff.mp hcovers
  obtain ⟨u, hu, rfl⟩ := List.mem_map.mp hwide
  have hu' : u ∈ runs marks := hu
  have hall : ∀ k, (stranded source u).start ≤ k → k ≤ i →
      Span.covers (Mark.removed source marks) k = true := by
    intro k hk hki
    rw [Mark.removed, Span.covers_union]
    exact Span.covers_of_mem hwide hk (by omega)
  rcases break_of_stranded hin hbreak with hinside | ⟨hne, hbehind, hopens⟩
  · -- The line break goes with the lines of a comment.
    obtain ⟨c, cwide, hc, hcwide, hreach, hstart, -⟩ := exists_mark hmarks hu' hinside
    obtain ⟨hci, hor⟩ := break_of_comment hcwide hreach hbreak
    obtain ⟨hcopens, hccloses⟩ := hor.resolve_left fun hlt => hout c hc.1 ⟨hci, hlt⟩
    have hle := blankStart_le source c.span.start
    have hfirst : cwide.start = blankStart source c.span.start := by
      rw [comment, margin_ofSpan, hcopens, hccloses] at hcwide
      rw [← Option.some.inj hcwide]
      rfl
    have hwidens := (widens_stranded source u).start_le
    refine ⟨blankStart source c.span.start, by omega, hcopens,
      outsideComments_of_opens hc.1 hcopens, fun k hk hki => hall k (by omega) hki⟩
  · -- The line break goes because a run is alone on its line.
    obtain ⟨c, cwide, hc, hcwide, hstart, -⟩ := exists_first hmarks hu'
    have hinside : endsInBreak source u = false := by
      apply Bool.eq_false_iff.mpr
      intro hlast
      rw [stranded_of_break hlast] at hin
      omega
    have hcloses : closes source u.stop = true := by
      by_contra hcode
      rw [Bool.not_eq_true] at hcode
      rw [stranded_eq hne hinside, hopens, hcode] at hin
      simp only [Bool.and_false, Bool.true_or, Bool.false_eq_true, if_true, if_false] at hin
      exact not_blank_of_break hbreak (blankRun_blankStop source u.stop i hbehind hin.2)
    have hfirst : (stranded source u).start = blankStart source u.start := by
      rw [stranded_eq hne hinside, hcloses, if_pos rfl]
    have hsame : blankStart source u.start = blankStart source c.span.start := by
      rw [← hstart]
      rcases start_of_comment hcwide with heq | heq
      · rw [heq]
      · rw [heq, blankStart_blankStart]
    have hcopens : opens source c.span.start = true := by
      rw [← opens_start_of_comment hcwide, hstart]
      exact hopens
    rw [hfirst, hsame] at hall
    refine ⟨blankStart source c.span.start, ?_, hcopens, outsideComments_of_opens hc.1 hcopens,
      hall⟩
    have hle := blankStart_le source u.start
    omega

/-- A removed span that goes up to the start of a line begins at the start of a line, unless it ends in
a comment. -/
theorem startsLine_of_removed (hmarks : OfComments source marks) {r : Span}
    (hr : r ∈ Mark.removed source marks) {i : Nat} (hi : r.start ≤ i ∧ i ≤ r.stop)
    (hstarts : startsLine source i = true) (hout : OutsideComments source i) :
    startsLine source r.start = true := by
  induction i using Nat.strong_induction_on with
  | _ i ih =>
      rcases Nat.eq_or_lt_of_le hi.1 with heq | hlt
      · rw [heq]
        exact hstarts
      rcases startsLine_iff.mp hstarts with hzero | ⟨j, rfl, hbreak⟩
      · omega
      have hcovers := Span.covers_of_mem hr (show r.start ≤ j by omega) (by omega)
      obtain ⟨k, hkj, hkstarts, hkout, hall⟩ :=
        exists_line_of_break hmarks hbreak hcovers fun c hc => hout c hc j rfl
      have hrk : r.start ≤ k := by
        obtain ⟨s, hs, hsk, hjs⟩ := (Span.canonical_union _).exists_of_run
          (Nat.lt_succ_of_le hkj) fun n hn hlt => hall n hn (by omega)
        rcases (Span.canonical_union _).eq_or_apart hr hs with rfl | hapart | hapart <;> omega
      exact ih k (by omega) ⟨hrk, by omega⟩ hkstarts hkout

end Padding

end JsPrune
