import JsPrune.Proofs.Padding.Restranding
import Mathlib.Data.Nat.Find
/-!
# Runs of marks

Marks of comments that touch form a run, and each run is widened once.  Where the widening has joined
runs, and what it joined strands whitespace again, two of these runs stand on one line with only
blanks between them: had a run been alone beside the stranded whitespace, it would have taken it.
-/

namespace JsPrune.Padding

open Text

/-- The runs that marks form, before they are widened. -/
def runs (marks : List Mark) : List Span := Span.union (marks.map Mark.span)

/-- Two comments with only blanks between them.  The first one touches the code before it, and there is
code behind the second one. -/
structure Spaced (source : String) (c d : Comment) : Prop where
  lt : c.span.stop < d.span.start
  blank : BlankRun source c.span.stop d.span.start
  touches : blankStart source c.span.start = c.span.start
  code_before : opens source c.span.start = false
  code_behind : closes source d.span.stop = false

section

variable {source : String} {marks : List Mark} {u v r : Span}

theorem covering_runs (source : String) (marks : List Mark) :
    Covering source (runs marks) (Mark.removed source marks) :=
  (covering_map _ (widens_stranded source)).trans (covering_union source _)

theorem run_inside (hr : r ∈ Mark.removed source marks) (hu : u ∈ runs marks) {i : Nat}
    (hi : r.start ≤ i ∧ i < r.stop) (hiu : u.start ≤ i ∧ i < u.stop) :
    r.start ≤ u.start ∧ u.stop ≤ r.stop := by
  have hwide := widens_stranded source u
  have hstart := hwide.start_le
  have hstop := hwide.le_stop
  have hinside := Span.contains_of_mem_union hr (List.mem_map_of_mem hu) hi (by omega)
  omega

/-- Every offset of a run lies in the mark of a comment. -/
theorem exists_mark (hmarks : OfComments source marks) (hu : u ∈ runs marks) {i : Nat}
    (hi : u.start ≤ i ∧ i < u.stop) :
    ∃ c wide, Marked source marks c ∧ comment source c = some wide ∧
      (wide.start ≤ i ∧ i < wide.stop) ∧ u.start ≤ wide.start ∧ wide.stop ≤ u.stop := by
  have hcovers := Span.covers_of_mem hu hi.1 hi.2
  rw [runs, Span.covers_union] at hcovers
  obtain ⟨wide, hwide, hin⟩ := Span.covers_iff.mp hcovers
  obtain ⟨mark, hmark, rfl⟩ := List.mem_map.mp hwide
  obtain ⟨c, hc, hcmark⟩ := hmarks mark hmark
  exact ⟨c, mark.span, ⟨hc, mark, hmark, hcmark⟩, hcmark, hin,
    Span.contains_of_mem_union hu hwide hi hin⟩

theorem exists_first (hmarks : OfComments source marks) (hu : u ∈ runs marks) :
    ∃ c wide, Marked source marks c ∧ comment source c = some wide ∧ wide.start = u.start ∧
      wide.stop ≤ u.stop := by
  have hne := (Span.canonical_union _).nonempty u hu
  obtain ⟨c, wide, hc, hwide, hin, hstart, hstop⟩ :=
    exists_mark hmarks hu (i := u.start) ⟨Nat.le_refl _, hne⟩
  exact ⟨c, wide, hc, hwide, Nat.le_antisymm hin.1 hstart, hstop⟩

theorem exists_last (hmarks : OfComments source marks) (hu : u ∈ runs marks) :
    ∃ c wide, Marked source marks c ∧ comment source c = some wide ∧ u.start ≤ wide.start ∧
      wide.stop = u.stop := by
  have hne := (Span.canonical_union _).nonempty u hu
  obtain ⟨c, wide, hc, hwide, hin, hstart, hstop⟩ :=
    exists_mark hmarks hu (i := u.stop - 1) ⟨by omega, by omega⟩
  exact ⟨c, wide, hc, hwide, hstart, by omega⟩

theorem not_space_of_slash {i : Nat} (h : byte? source i = some 0x2F) :
    (byte? source i).any isSpace = false := by
  rw [h]
  decide

theorem exists_slash (hmarks : OfComments source marks) (hu : u ∈ runs marks) :
    ∃ k, u.start ≤ k ∧ k < u.stop ∧ byte? source k = some 0x2F := by
  obtain ⟨c, wide, hc, hwide, hstart, hstop⟩ := exists_first hmarks hu
  have hwidens := widens_comment hwide
  have hle := hwidens.start_le
  have hle' := hwidens.le_stop
  have htwo := (Comment.standsIn_of_mem hc.1).start_add_two_le
  exact ⟨c.span.start, by omega, by omega, (Comment.standsIn_of_mem hc.1).byte?_start⟩

/-! ## Blanks beside a run -/

theorem start_of_blank_before {c : Comment} {wide : Span} (h : comment source c = some wide)
    (hblank : blankStart source wide.start < wide.start) :
    wide.start = c.span.start ∧ closes source c.span.stop = false := by
  have hnone := blankStart_blankStart source c.span.start
  cases hasMark_of_comment h with
  | wholeLine _ _ hwide =>
      rw [hwide] at hblank
      dsimp only at hblank
      omega
  | lineEnd _ _ hwide =>
      rw [hwide] at hblank
      dsimp only at hblank
      omega
  | lineStart _ hcloses hwide => exact ⟨by rw [hwide], hcloses⟩
  | embedded _ hcloses _ _ hwide => exact ⟨by rw [hwide], hcloses⟩

/-- A comment marked with a blank behind its mark, and behind the blanks code, touches the code before
it. -/
theorem stop_of_blank_behind {c : Comment} {wide : Span} (h : comment source c = some wide)
    (hblank : wide.stop < blankStop source wide.stop) (hcloses : closes source wide.stop = false)
    (hinside : endsInBreak source wide = false) :
    wide.stop = c.span.stop ∧ opens source c.span.start = false ∧
      blankStart source c.span.start = c.span.start := by
  have hnone := blankStop_blankStop source c.span.stop
  cases hasMark_of_comment h with
  | wholeLine _ hcloses' hwide =>
      -- The mark ends in a line break, or at the end of the script.
      rw [hwide] at hblank hinside hcloses
      dsimp only at hblank hcloses
      have hzero : breakLength source (blankStop source c.span.stop) = 0 := by
        by_contra hpos
        rw [endsInBreak_add_breakLength _ (Nat.pos_of_ne_zero hpos)] at hinside
        exact absurd hinside (by simp)
      rw [hzero, Nat.add_zero] at hblank
      omega
  | lineEnd _ hcloses' hwide =>
      rw [hwide, hcloses'] at hcloses
      exact absurd hcloses (by simp)
  | lineStart _ _ hwide =>
      rw [hwide] at hblank
      dsimp only at hblank
      omega
  | embedded hopens _ _ _ hwide =>
      rw [hwide] at hblank ⊢
      dsimp only at hblank ⊢
      have hle := blankStart_le source c.span.start
      split_ifs at hblank ⊢ with hboth
      · omega
      · exact ⟨rfl, hopens, by omega⟩

theorem exists_spaced (hmarks : OfComments source marks) (hu : u ∈ runs marks)
    (hv : v ∈ runs marks) (huv : u.stop < v.start) (hrun : BlankRun source u.stop v.start)
    (hinside : endsInBreak source u = false) :
    ∃ c d, Marked source marks c ∧ Marked source marks d ∧ u.start ≤ c.span.start ∧
      d.span.stop ≤ v.stop ∧ Spaced source c d := by
  obtain ⟨c, cwide, hc, hcwide, hcstart, hcstop⟩ := exists_last hmarks hu
  obtain ⟨d, dwide, hd, hdwide, hdstart, hdstop⟩ := exists_first hmarks hv
  have hblank : blankStart source dwide.start < dwide.start := by
    have heq := blankStart_eq_of_run (Nat.le_of_lt huv) hrun
    have hle := blankStart_le source u.stop
    rw [hdstart]
    omega
  obtain ⟨hdeq, hdcloses⟩ := start_of_blank_before hdwide hblank
  have hslash := (Comment.standsIn_of_mem hd.1).byte?_start
  rw [← hdeq, hdstart] at hslash
  have hcode := not_space_of_slash hslash
  have hbehind : blankStop source u.stop = v.start :=
    blankStop_eq (Nat.le_of_lt huv) hrun (not_space_iff.mp hcode).1
  obtain ⟨hceq, hcopens, hctouches⟩ := stop_of_blank_behind hcwide
    (by rw [hcstop, hbehind]; exact huv)
    (by rw [hcstop]
        exact not_closes_of_run (lt_size_of_byte? hslash) hcode (Nat.le_of_lt huv) hrun)
    (by rw [endsInBreak, hcstop]; exact hinside)
  have hcle := (widens_comment hcwide).start_le
  have hdle := (widens_comment hdwide).le_stop
  refine ⟨c, d, hc, hd, by omega, by omega, ?_, ?_, hctouches, hcopens, hdcloses⟩
  · omega
  · rw [← hceq, hcstop, ← hdeq, hdstart]
    exact hrun

/-! ## Neighbours of a run -/

theorem exists_run_of_code {i : Nat} (hcode : (byte? source i).any isSpace = false)
    (hcovers : Span.covers (Mark.removed source marks) i = true) :
    ∃ w ∈ runs marks, w.start ≤ i ∧ i < w.stop := by
  apply Span.covers_iff.mp
  by_contra hout
  rw [Bool.not_eq_true] at hout
  rw [(covering_runs source marks).space i hcovers hout] at hcode
  exact absurd hcode (by simp)

/-- A run that does not open its line, and before which a removed span holds another run, has a
neighbour before it, with only blanks between them. -/
theorem exists_run_before (hmarks : OfComments source marks)
    (hr : r ∈ Mark.removed source marks) (hu : u ∈ runs marks) (hv : v ∈ runs marks)
    (hru : r.start ≤ u.start) (huv : u.stop < v.start) (hvr : v.stop ≤ r.stop)
    (hopens : opens source v.start = false) :
    ∃ w ∈ runs marks, r.start ≤ w.start ∧ w.stop < v.start ∧ BlankRun source w.stop v.start ∧
      endsInBreak source w = false := by
  have hvne := (Span.canonical_union _).nonempty v hv
  have hblank := blankRun_blankStart source v.start
  have hle := blankStart_le source v.start
  obtain ⟨p, hp, hpcode⟩ := exists_code_of_not_opens hopens
  obtain ⟨k, huk, hku, hslash⟩ := exists_slash hmarks hu
  have hkp : k ≤ p := by
    by_contra hlt
    exact not_blank_of_not_space (not_space_of_slash hslash) (hblank k (by omega) (by omega))
  -- The code before the blanks is removed together with the run, so it is part of another one.
  have hpr : r.start ≤ p ∧ p < r.stop := by omega
  obtain ⟨w, hw, hwp, hpw⟩ := exists_run_of_code hpcode (Span.covers_of_mem hr hpr.1 hpr.2)
  have hwv : w.stop < v.start := by
    rcases (Span.canonical_union _).eq_or_apart hw hv with rfl | hlt | hgt <;> omega
  have hwr := run_inside hr hw hpr ⟨hwp, hpw⟩
  refine ⟨w, hw, hwr.1, hwv, fun k hk hkv => hblank k (by omega) hkv, ?_⟩
  rcases Nat.eq_or_lt_of_le (show p ≤ w.stop - 1 by omega) with heq | hlt
  · rw [endsInBreak, ← heq]
    exact (not_space_iff.mp hpcode).2
  · exact not_break_of_blank (hblank (w.stop - 1) (by omega) (by omega))

/-- A run that does not end its line, and behind which a removed span holds another run, has a
neighbour behind it, with only blanks between them. -/
theorem exists_run_behind (hmarks : OfComments source marks)
    (hr : r ∈ Mark.removed source marks) (hu : u ∈ runs marks) (hv : v ∈ runs marks)
    (hru : r.start ≤ u.start) (huv : u.stop < v.start) (hvr : v.stop ≤ r.stop)
    (hcloses : closes source u.stop = false) :
    ∃ w ∈ runs marks, u.stop < w.start ∧ w.stop ≤ r.stop ∧ BlankRun source u.stop w.start := by
  have hune := (Span.canonical_union _).nonempty u hu
  have hblank := blankRun_blankStop source u.stop
  have hle := le_blankStop source u.stop
  obtain ⟨-, hqcode⟩ := code_of_not_closes hcloses
  obtain ⟨k, hvk, hkv, hslash⟩ := exists_slash hmarks hv
  have hqk : blankStop source u.stop ≤ k := by
    by_contra hlt
    exact not_blank_of_not_space (not_space_of_slash hslash) (hblank k (by omega) (by omega))
  generalize blankStop source u.stop = q at *
  have hqr : r.start ≤ q ∧ q < r.stop := by omega
  obtain ⟨w, hw, hwq, hqw⟩ := exists_run_of_code hqcode (Span.covers_of_mem hr hqr.1 hqr.2)
  have huw : u.stop < w.start := by
    rcases (Span.canonical_union _).eq_or_apart hu hw with rfl | hlt | hgt <;> omega
  have hwr := run_inside hr hw hqr ⟨hwq, hqw⟩
  exact ⟨w, hw, huw, hwr.2, fun k hk hkw => hblank k hk (by omega)⟩

/-! ## Runs behind a blank -/

theorem not_covers_behind (hmarks : OfComments source marks) {c : Comment}
    (hc : c ∈ Comment.all source) (hopens : opens source c.span.start = false)
    (hcloses : closes source c.span.stop = true) : Span.covers (runs marks) c.span.stop = false := by
  apply Bool.eq_false_iff.mpr
  intro hcovers
  obtain ⟨u, hu, hin⟩ := Span.covers_iff.mp hcovers
  obtain ⟨d, wide, hd, hwide, hreach, -, -⟩ := exists_mark hmarks hu hin
  have hslash := (Comment.standsIn_of_mem hd.1).byte?_start
  have htwo := (Comment.standsIn_of_mem hc).start_add_two_le
  have htwo' := (Comment.standsIn_of_mem hd.1).start_add_two_le
  have hwidens := (widens_comment hwide).start_le
  rcases Comment.eq_or_apart hd.1 hc with rfl | hbefore | hbehind
  · cases hasMark_of_comment hwide with
    | wholeLine hopens' _ _ =>
        rw [hopens] at hopens'
        exact absurd hopens' (by simp)
    | lineEnd _ _ heq =>
        rw [heq] at hreach
        exact absurd hreach.2 (Nat.lt_irrefl _)
    | lineStart hopens' _ _ =>
        rw [hopens] at hopens'
        exact absurd hopens' (by simp)
    | embedded _ hcloses' _ _ _ =>
        rw [hcloses] at hcloses'
        exact absurd hcloses' (by simp)
  · have heq := eq_of_reaches hd.1 hc hwide (by omega)
    rw [heq] at hbefore
    omega
  · -- Up to the slash of the comment behind, the mark holds only blanks: the line goes on.
    have hrun : BlankRun source c.span.stop d.span.start := by
      intro k hk hkd
      apply blankRun_blankStart source d.span.start k _ hkd
      have hle := blankStart_le source d.span.start
      rcases start_of_comment hwide with heq | heq <;> omega
    rw [not_closes_of_run (lt_size_of_byte? hslash) (not_space_of_slash hslash) hbehind hrun]
      at hcloses
    exact absurd hcloses (by simp)

theorem break_behind_comment {c : Comment} (hc : c.StandsIn source) {i : Nat}
    (hi : c.span.stop ≤ i) (hlt : c.span.stop < source.utf8ByteSize)
    (hopens : opens source i = true) :
    ∃ k, c.span.stop ≤ k ∧ k < i ∧ (byte? source k).any isLineBreak = true := by
  have htwo := hc.start_add_two_le
  rcases hc.byte?_stop hlt with hslash | ⟨hone, -⟩
  · obtain ⟨k, hk, hki, hbreak⟩ := break_of_opens (not_space_of_slash hslash) (by omega) hopens
    exact ⟨k, by omega, hki, hbreak⟩
  · obtain ⟨k, hk, hki, hbreak⟩ :=
      break_of_opens (not_space_of_slash hc.byte?_start) (by omega) hopens
    refine ⟨k, ?_, hki, hbreak⟩
    by_contra hin
    rw [hc.isMultiline_of_break (by omega) (by omega) hbreak] at hone
    exact absurd hone (by simp)

/-- The first line break of a run behind a comment that does not end its line is inside another
comment, which ends its line and the run. -/
theorem stop_of_first_break (hmarks : OfComments source marks) (hu : u ∈ runs marks) {c : Comment}
    (hc : c ∈ Comment.all source) (hstart : c.span.start = u.start)
    (hcloses : closes source c.span.stop = false) {e : Nat} (hce : c.span.stop ≤ e)
    (heu : e < u.stop) (hbreak : (byte? source e).any isLineBreak = true)
    (hfirst : ∀ k, c.span.stop ≤ k → k < e → ¬ (byte? source k).any isLineBreak = true) :
    ∃ d ∈ Comment.all source, d.span.stop = u.stop := by
  have hlt := lt_size_of_any hbreak
  have htwo := (Comment.standsIn_of_mem hc).start_add_two_le
  obtain ⟨d, wide, hd, hwide, hin, hdstart, hdstop⟩ :=
    exists_mark hmarks hu (i := e) ⟨by omega, heu⟩
  have hle := (widens_comment hwide).start_le
  have hle' := (widens_comment hwide).le_stop
  have htwo' := (Comment.standsIn_of_mem hd.1).start_add_two_le
  obtain ⟨hde, hor⟩ := break_of_comment hwide hin hbreak
  have hcd : c.span.stop ≤ d.span.start := by
    rcases Comment.eq_or_apart hc hd.1 with rfl | hapart | hapart
    · rcases hor with hlt | ⟨-, hends⟩
      · omega
      · rw [hcloses] at hends
        exact absurd hends (by simp)
    · exact hapart
    · omega
  -- The comment opens no line, or there would be a line break before it.
  have hopens : opens source d.span.start = false := by
    apply Bool.eq_false_iff.mpr
    intro hopens
    obtain ⟨k, hck, hkd, hkbreak⟩ :=
      break_behind_comment (Comment.standsIn_of_mem hc) hcd (by omega) hopens
    exact hfirst k hck (by omega) hkbreak
  have hed : e < d.span.stop := by
    apply hor.resolve_right
    rw [hopens]
    simp
  have hmulti := (Comment.standsIn_of_mem hd.1).isMultiline_of_break hde hed hbreak
  have hends : closes source d.span.stop = true := by
    apply (opens_or_closes hwide hmulti).resolve_left
    rw [hopens]
    simp
  have hout := not_covers_behind hmarks hd.1 hopens hends
  refine ⟨d, hd.1, Nat.le_antisymm (by omega) ?_⟩
  by_contra hshort
  rw [Span.covers_of_mem hu (by omega) (by omega)] at hout
  exact absurd hout (by simp)

theorem not_endsInBreak_of_blank (hmarks : OfComments source marks) (hu : u ∈ runs marks)
    (hblank : blankStart source u.start < u.start) (hlt : u.stop < source.utf8ByteSize) :
    endsInBreak source u = false := by
  apply Bool.eq_false_iff.mpr
  intro hlast
  unfold endsInBreak at hlast
  -- No comment ends where the run does.
  have hnone : ∀ c ∈ Comment.all source, c.span.stop ≠ u.stop := by
    intro c hc heq
    rw [← heq] at hlast hlt
    exact (Comment.standsIn_of_mem hc).not_break_last hlt hlast
  obtain ⟨c, wide, hc, hwide, hstart, hstop⟩ := exists_first hmarks hu
  rw [← hstart] at hblank
  obtain ⟨heq, hcloses⟩ := start_of_blank_before hwide hblank
  have hle := (widens_comment hwide).le_stop
  have hne := hnone c hc.1
  have hany : ∃ e, c.span.stop ≤ e ∧ e < u.stop ∧ (byte? source e).any isLineBreak = true :=
    ⟨u.stop - 1, by omega, by omega, hlast⟩
  obtain ⟨hce, heu, hbreak⟩ := Nat.find_spec hany
  have hfirst := fun k => Nat.find_min hany (m := k)
  generalize Nat.find hany = e at hce heu hbreak hfirst
  obtain ⟨d, hd, hdstop⟩ := stop_of_first_break hmarks hu hc.1 (heq.symm.trans hstart) hcloses hce
    heu hbreak fun k hck hke hk => hfirst k hke ⟨hck, by omega, hk⟩
  exact hnone d hd hdstop

/-! ## What is stranded -/

theorem exists_ends_of_strands (hmarks : OfComments source marks)
    (hr : r ∈ Mark.removed source marks) (hstrands : Strands source r) :
    ∃ u ∈ runs marks, ∃ v ∈ runs marks, (stranded source u).start = r.start ∧
      (stranded source v).stop = r.stop ∧ u.stop < v.start := by
  obtain ⟨wide, hwide, -, hstart⟩ := Span.start_of_mem_union hr
  obtain ⟨u, hu, rfl⟩ := List.mem_map.mp hwide
  obtain ⟨wide', hwide', -, hstop⟩ := Span.stop_of_mem_union hr
  obtain ⟨v, hv, rfl⟩ := List.mem_map.mp hwide'
  refine ⟨u, hu, v, hv, hstart.symm, hstop.symm, ?_⟩
  rcases (Span.canonical_union _).eq_or_apart hu hv with rfl | hlt | hgt
  · -- One run alone has taken all whitespace beside it.
    have heq : r = stranded source u := by
      cases r
      rw [Span.mk.injEq]
      exact ⟨hstart, hstop⟩
    rw [heq] at hstrands
    exact absurd hstrands (not_strands_stranded ((Span.canonical_union _).nonempty u hu))
  · exact hlt
  · -- The widening of one run would reach over the code of the other one.
    obtain ⟨k, hvk, hkv, hslash⟩ := exists_slash hmarks hv
    have hrne := (Span.canonical_union _).nonempty r hr
    have hvstart := (widens_stranded source v).start_le
    have hvstop := (widens_stranded source v).le_stop
    have hvr := Span.contains_of_mem_union hr hwide' (i := r.stop - 1) (by omega) (by omega)
    have hustop := (widens_stranded source u).le_stop
    have hune := (Span.canonical_union _).nonempty u hu
    have huspace := (widens_stranded source u).space k (by omega) (by omega) (by omega)
    rw [not_space_of_slash hslash] at huspace
    exact absurd huspace (by simp)

/-- A removed span that strands whitespace holds two comments with only blanks between them. -/
theorem exists_spaced_of_strands (hmarks : OfComments source marks)
    (hr : r ∈ Mark.removed source marks) (hstrands : Strands source r) :
    ∃ c d, Marked source marks c ∧ Marked source marks d ∧ r.start ≤ c.span.start ∧
      d.span.stop ≤ r.stop ∧ Spaced source c d := by
  obtain ⟨u, hu, v, hv, hur, hvr, huv⟩ := exists_ends_of_strands hmarks hr hstrands
  have hustart := (widens_stranded source u).start_le
  have hvstop := (widens_stranded source v).le_stop
  cases hopens : opens source v.start with
  | false =>
      obtain ⟨w, hw, hrw, hwv, hrun, hinside⟩ :=
        exists_run_before hmarks hr hu hv (by omega) huv (by omega) hopens
      obtain ⟨c, d, hc, hd, hwc, hdv, hspaced⟩ := exists_spaced hmarks hw hv hwv hrun hinside
      exact ⟨c, d, hc, hd, by omega, by omega, hspaced⟩
  | true =>
      -- The last run has taken all that is behind it, so blanks are left before the first one.
      have hune := (Span.canonical_union _).nonempty u hu
      have hvne := (Span.canonical_union _).nonempty v hv
      have hvinside : endsInBreak source (stranded source v) = false := by
        rw [endsInBreak, hvr]
        exact hstrands.1
      obtain ⟨hstop, hsize⟩ := blankStop_stranded hvne hopens hvinside
      rw [hvr] at hstop hsize
      have hblank : blankStart source r.start < r.start := by
        obtain ⟨-, ⟨hcloses, hor⟩ | ⟨-, hlt⟩⟩ := hstrands
        · have hge := hsize hcloses
          omega
        · omega
      have huinside : endsInBreak source u = false := by
        obtain ⟨k, hvk, hkv, hslash⟩ := exists_slash hmarks hv
        have hlt := lt_size_of_byte? hslash
        by_contra hbreak
        rw [Bool.not_eq_false] at hbreak
        rw [← hur, stranded_of_break hbreak] at hblank
        rw [not_endsInBreak_of_blank hmarks hu hblank (by omega)] at hbreak
        exact absurd hbreak (by simp)
      have hucloses : closes source u.stop = false := by
        by_contra hcloses
        rw [Bool.not_eq_false] at hcloses
        have hnone := blankStart_stranded hune huinside hcloses
        rw [hur] at hnone
        omega
      obtain ⟨w, hw, huw, hwr, hrun⟩ :=
        exists_run_behind hmarks hr hu hv (by omega) huv (by omega) hucloses
      obtain ⟨c, d, hc, hd, huc, hdw, hspaced⟩ := exists_spaced hmarks hu hw huw hrun huinside
      exact ⟨c, d, hc, hd, by omega, by omega, hspaced⟩

end

end JsPrune.Padding
