import JsPrune.Proofs.Padding.Runs
/-!
# More marks remove more

Widening is not monotone: a span that ends in a line break takes no blanks, and one that starts inside
a line takes no line break.  It is monotone on the runs that marks of comments form.  A run that ends
its line does not grow any further, and one that opens its line grows only into one that does so too.
-/

namespace JsPrune.Padding

open Text

variable {source : String} {marks more : List Mark} {u v : Span}

theorem exists_run_around (hmarks : OfComments source marks)
    (hmore : ∀ c, Marked source marks c → Marked source more c) (hu : u ∈ runs marks) :
    ∃ v ∈ runs more, v.start ≤ u.start ∧ u.stop ≤ v.stop := by
  have hne := (Span.canonical_union _).nonempty u hu
  apply (Span.canonical_union _).exists_of_run hne
  intro i hi hlt
  obtain ⟨c, wide, hc, hwide, hin, -, -⟩ := exists_mark hmarks hu ⟨hi, hlt⟩
  obtain ⟨-, mark, hmark, hspan⟩ := hmore c hc
  obtain rfl : wide = mark.span := Option.some.inj (hwide.symm.trans hspan)
  change Span.covers (runs more) i = true
  rw [runs, Span.covers_union]
  exact Span.covers_of_mem (List.mem_map_of_mem hmark) hin.1 hin.2

theorem lt_size_of_covers_runs (hmarks : OfComments source marks) {i : Nat}
    (h : Span.covers (runs marks) i = true) : i < source.utf8ByteSize := by
  obtain ⟨u, hu, hin⟩ := Span.covers_iff.mp h
  obtain ⟨c, wide, hc, hwide, hreach, -, -⟩ := exists_mark hmarks hu hin
  by_cases hinside : c.span.start ≤ i ∧ i < c.span.stop
  · have hsize := le_size_of_isBoundary (Comment.standsIn_of_mem hc.1).boundary.2
    omega
  · exact lt_size_of_any ((widens_comment hwide).space i hreach.1 hreach.2 (by omega))

theorem not_covers_run_stop (hmarks : OfComments source marks) (hmore : OfComments source more)
    (hu : u ∈ runs marks) (hinside : endsInBreak source u = false)
    (hcloses : closes source u.stop = true) : Span.covers (runs more) u.stop = false := by
  obtain ⟨c, wide, hc, hwide, -, hstop⟩ := exists_last hmarks hu
  cases hasMark_of_comment hwide with
  | wholeLine _ hends heq =>
      -- The mark has no line break at its end, so it ends the script.
      have hlast : u.stop = blankStop source c.span.stop +
          breakLength source (blankStop source c.span.stop) := by
        rw [← hstop, heq]
      have hzero : breakLength source (blankStop source c.span.stop) = 0 := by
        by_contra hpos
        have hbreak := endsInBreak_add_breakLength u.start (Nat.pos_of_ne_zero hpos)
        rw [← hlast, hinside] at hbreak
        exact absurd hbreak (by simp)
      have hsize := (breakLength_eq_zero_iff hends).mp hzero
      apply Bool.eq_false_iff.mpr
      intro hcovers
      have hlt := lt_size_of_covers_runs hmore hcovers
      omega
  | lineEnd hopens hends heq =>
      have hlast : c.span.stop = u.stop := by
        rw [← hstop, heq]
      rw [← hlast]
      exact not_covers_behind hmore hc.1 hopens hends
  | lineStart _ hends heq =>
      rw [← hstop, heq, closes_blankStop, hends] at hcloses
      exact absurd hcloses (by simp)
  | embedded _ hends _ _ heq =>
      rw [← hstop, heq] at hcloses
      dsimp only at hcloses
      split_ifs at hcloses
      · rw [closes_blankStop, hends] at hcloses
        exact absurd hcloses (by simp)
      · rw [hends] at hcloses
        exact absurd hcloses (by simp)

theorem opens_of_run_around (hmarks : OfComments source marks) (hmore : OfComments source more)
    (hu : u ∈ runs marks) (hv : v ∈ runs more) (hstart : v.start ≤ u.start)
    (hstop : u.stop ≤ v.stop) (hopens : opens source u.start = true) :
    opens source v.start = true := by
  by_contra hcode
  rw [Bool.not_eq_true] at hcode
  obtain ⟨p, hp, hpcode⟩ := exists_code_of_not_opens hcode
  have hblank := blankRun_blankStart source v.start
  have hle := blankStart_le source v.start
  -- Where a line opens behind the start of the run, the run holds a line break.
  have hbehind : ∀ i, v.start ≤ i → opens source i = true →
      ∃ k, v.start ≤ k ∧ k < i ∧ (byte? source k).any isLineBreak = true := by
    intro i hi hiopens
    obtain ⟨k, hpk, hki, hbreak⟩ := break_of_opens hpcode (by omega) hiopens
    refine ⟨k, ?_, hki, hbreak⟩
    by_contra hlt
    exact not_blank_of_break hbreak (hblank k (by omega) (by omega))
  have hany := hbehind u.start hstart hopens
  obtain ⟨hvb, hbu, hbreak⟩ := Nat.find_spec hany
  have hfirst := fun k => Nat.find_min hany (m := k)
  generalize Nat.find hany = b at hvb hbu hbreak hfirst
  have hne := (Span.canonical_union _).nonempty u hu
  -- The first line break is inside a comment that ends its line, and so the run ends there, ...
  obtain ⟨d, wide, hd, hwide, hin, hdstart, hdstop⟩ :=
    exists_mark hmore hv (i := b) ⟨hvb, by omega⟩
  obtain ⟨hdb, hor⟩ := break_of_comment hwide hin hbreak
  have hdle := (widens_comment hwide).start_le
  have hdopens : ¬ opens source d.span.start = true := by
    intro hdopens
    obtain ⟨k, hvk, hkd, hkbreak⟩ := hbehind d.span.start (by omega) hdopens
    exact hfirst k (by omega) ⟨hvk, by omega, hkbreak⟩
  have hbd : b < d.span.stop := hor.resolve_right fun hline => hdopens hline.1
  have hmulti := (Comment.standsIn_of_mem hd.1).isMultiline_of_break hdb hbd hbreak
  have hends := (opens_or_closes hwide hmulti).resolve_left hdopens
  have hout := not_covers_behind hmore hd.1 (Bool.eq_false_iff.mpr hdopens) hends
  -- ... but the comment with which the other run starts is behind it.
  obtain ⟨c, cwide, hc, hcwide, hcstart, hcstop⟩ := exists_first hmarks hu
  have hcwidens := widens_comment hcwide
  have hcle := hcwidens.start_le
  have hcle' := hcwidens.le_stop
  have htwo := (Comment.standsIn_of_mem hc.1).start_add_two_le
  rcases Comment.eq_or_apart hc.1 hd.1 with rfl | hapart | hapart
  · omega
  · omega
  · rw [Span.covers_of_mem hv (by omega) (by omega)] at hout
    exact absurd hout (by simp)

section

variable (hmarks : OfComments source marks) (hmore : OfComments source more) (hu : u ∈ runs marks)
  (hv : v ∈ runs more) (hstart : v.start ≤ u.start) (hstop : u.stop ≤ v.stop)

include hmarks hmore hu hv hstart hstop

theorem stop_eq_of_closes (hinside : endsInBreak source u = false)
    (hcloses : closes source u.stop = true) : v.stop = u.stop := by
  have hne := (Span.canonical_union _).nonempty u hu
  have hout := not_covers_run_stop hmarks hmore hu hinside hcloses
  by_contra hlonger
  rw [Span.covers_of_mem hv (by omega) (by omega)] at hout
  exact absurd hout (by simp)

theorem stranded_start_le : (stranded source v).start ≤ (stranded source u).start := by
  have hune := (Span.canonical_union _).nonempty u hu
  have hvne := (Span.canonical_union _).nonempty v hv
  have hle := (widens_stranded source v).start_le
  cases hinside : endsInBreak source u with
  | true =>
      rw [stranded_of_break hinside]
      omega
  | false =>
      rw [stranded_eq hune hinside]
      cases hcloses : closes source u.stop with
      | false =>
          simp only [Bool.false_eq_true, if_false]
          omega
      | true =>
          have heq := stop_eq_of_closes hmarks hmore hu hv hstart hstop hinside hcloses
          have hvinside : endsInBreak source v = false := by
            rw [endsInBreak, heq]
            exact hinside
          rw [stranded_eq hvne hvinside, heq, hcloses]
          exact blankStart_mono hstart

theorem le_stranded_stop : (stranded source u).stop ≤ (stranded source v).stop := by
  have hune := (Span.canonical_union _).nonempty u hu
  have hvne := (Span.canonical_union _).nonempty v hv
  have hle := (widens_stranded source v).le_stop
  have hopens := opens_of_run_around hmarks hmore hu hv hstart hstop
  cases hinside : endsInBreak source u with
  | true =>
      rw [stranded_of_break hinside]
      omega
  | false =>
      cases hcloses : closes source u.stop with
      | true =>
          have heq := stop_eq_of_closes hmarks hmore hu hv hstart hstop hinside hcloses
          have hvinside : endsInBreak source v = false := by
            rw [endsInBreak, heq]
            exact hinside
          rw [stranded_eq hune hinside, stranded_eq hvne hvinside, heq, hcloses]
          cases huopens : opens source u.start with
          | true =>
              rw [hopens huopens]
          | false =>
              cases opens source v.start <;> simp
      | false =>
          rw [stranded_eq hune hinside, hcloses]
          cases huopens : opens source u.start with
          | false =>
              simp only [Bool.or_self, Bool.and_self, Bool.false_eq_true, if_false]
              omega
          | true =>
              simp only [Bool.and_false, Bool.true_or, Bool.false_eq_true, if_false, if_true]
              have hmono := blankStop_mono (s := source) hstop
              cases hvinside : endsInBreak source v with
              | false =>
                  rw [stranded_eq hvne hvinside, hopens huopens]
                  cases closes source v.stop <;> simp <;> omega
              | true =>
                  -- The blanks behind the smaller run do not reach the line break.
                  by_contra hshort
                  rw [stranded_of_break hvinside] at hshort
                  rcases Nat.eq_or_lt_of_le hstop with heq | hlt
                  · rw [endsInBreak, heq] at hinside
                    rw [endsInBreak, hinside] at hvinside
                    exact absurd hvinside (by simp)
                  · exact not_blank_of_break hvinside
                      (blankRun_blankStop source u.stop _ (by omega) (by omega))

end

/-- With more comments marked, no less is removed. -/
theorem covers_removed_mono (hmarks : OfComments source marks) (hmore : OfComments source more)
    (h : ∀ c, Marked source marks c → Marked source more c) {i : Nat}
    (hi : Span.covers (Mark.removed source marks) i = true) :
    Span.covers (Mark.removed source more) i = true := by
  rw [Mark.removed, Span.covers_union] at hi ⊢
  obtain ⟨wide, hwide, hin⟩ := Span.covers_iff.mp hi
  obtain ⟨u, hu, rfl⟩ := List.mem_map.mp hwide
  obtain ⟨v, hv, hstart, hstop⟩ := exists_run_around hmarks h hu
  have hle := stranded_start_le hmarks hmore hu hv hstart hstop
  have hle' := le_stranded_stop hmarks hmore hu hv hstart hstop
  exact Span.covers_of_mem (List.mem_map_of_mem hv) (by omega) (by omega)

end JsPrune.Padding
