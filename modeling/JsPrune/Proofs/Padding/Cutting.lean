import JsPrune.Proofs.Padding.Gluing
import JsPrune.Proofs.Pruning.Comments
import JsPrune.Proofs.SourceMap.Anchors
/-!
# Comments beside a cut

A cut can change what stands beside a comment, and so whether the comment has to stay.  It does not if
the comment still opens or ends its line, or if nothing is cut as far as the blanks beside the
comment and the first byte behind them reach.
-/

namespace JsPrune

open Text Segment

/-- The comment as it stands in the text that a cut leaves. -/
def Comment.afterCut (removed : List Span) (c : Comment) : Comment :=
  { c with span := ⟨rank removed c.span.start, rank removed c.span.stop⟩ }

namespace Padding

theorem opens_of_run {source : String} {i j : Nat} (hji : j ≤ i) (hrun : BlankRun source j i)
    (hstart : startsLine source j = true) : opens source i = true := by
  have hself : blankStart source j = j := by
    rcases startsLine_iff.mp hstart with rfl | ⟨p, rfl, hbreak⟩
    · rfl
    · exact blankStart_eq_self rfl (not_blank_of_break hbreak)
  rw [opens, blankStart_eq_of_run hji hrun, hself]
  exact hstart

theorem closes_of_run {source : String} {i j : Nat} (hij : i ≤ j) (hrun : BlankRun source i j)
    (hend : endsLine source j = true) : closes source i = true := by
  have hnot : (byte? source j).any isBlank = false := by
    rcases endsLine_iff.mp hend with hsize | hbreak
    · rw [byte?_eq_none_iff.mpr hsize]
      rfl
    · exact Bool.eq_false_iff.mpr (not_blank_of_break hbreak)
  rw [closes, blankStop_eq hij hrun hnot]
  exact hend

section

variable {source : String} {removed : List Span} (h : Cuttable source removed)
include h

theorem exists_rank_eq {k : Nat} (hk : k < (cut source removed).utf8ByteSize) :
    ∃ i < source.utf8ByteSize, Span.covers removed i = false ∧ rank removed i = k := by
  rw [size_cut h] at hk
  have horigin := List.getElem?_eq_getElem (l := origins source removed) hk
  obtain ⟨hi, hkept⟩ := kept_of_origins horigin
  exact ⟨_, hi, hkept, rank_of_origins horigin⟩

theorem rank_le_size {i : Nat} (hi : i ≤ source.utf8ByteSize) :
    rank removed i ≤ (cut source removed).utf8ByteSize := by
  rw [size_cut h]
  exact rank_mono removed hi

/-- At a kept offset, and at the end, the text that a cut leaves reads like the text before. -/
theorem byte?_rank_of_le {i : Nat} (hi : i ≤ source.utf8ByteSize)
    (hkept : Span.covers removed i = false) :
    byte? (cut source removed) (rank removed i) = byte? source i := by
  rcases Nat.eq_or_lt_of_le hi with rfl | hlt
  · rw [← size_cut h, byte?_eq_none_iff.mpr (Nat.le_refl _), byte?_eq_none_iff.mpr (Nat.le_refl _)]
  · exact byte?_rank h hlt hkept

theorem blankRun_cut {i j : Nat} (hj : j ≤ source.utf8ByteSize)
    (hblank : ∀ k, i ≤ k → k < j → Span.covers removed k = false →
      (byte? source k).any isBlank = true) :
    BlankRun (cut source removed) (rank removed i) (rank removed j) := by
  intro k hik hkj
  obtain ⟨l, hl, hkept, rfl⟩ := exists_rank_eq h (Nat.lt_of_lt_of_le hkj (rank_le_size h hj))
  rw [rank_lt_iff hkept] at hkj
  have hil : i ≤ l := by
    by_contra hlt
    have := rank_lt (Nat.lt_of_not_le hlt) hkept
    omega
  rw [byte?_rank h hl hkept]
  exact hblank l hil hkj hkept

theorem opens_cut {i j : Nat} (hji : j ≤ i) (hi : i ≤ source.utf8ByteSize)
    (hstart : j = 0 ∨ ∃ l, l + 1 = j ∧ Span.covers removed l = false ∧
      (byte? source l).any isLineBreak = true)
    (hblank : ∀ k, j ≤ k → k < i → Span.covers removed k = false →
      (byte? source k).any isBlank = true) :
    opens (cut source removed) (rank removed i) = true := by
  refine opens_of_run (rank_mono removed hji) (blankRun_cut h hi hblank) ?_
  rcases hstart with rfl | ⟨l, rfl, hkept, hbreak⟩
  · rfl
  · refine startsLine_iff.mpr (Or.inr ⟨rank removed l, ?_, ?_⟩)
    · rw [rank_succ, hkept]
      rfl
    · rw [byte?_rank h (by omega) hkept]
      exact hbreak

theorem closes_cut {i j : Nat} (hij : i ≤ j) (hj : j ≤ source.utf8ByteSize)
    (hkept : Span.covers removed j = false) (hend : endsLine source j = true)
    (hblank : BlankRun source i j) : closes (cut source removed) (rank removed i) = true := by
  refine closes_of_run (rank_mono removed hij)
    (blankRun_cut h hj fun k hk hkj _ => hblank k hk hkj) ?_
  rw [endsLine, byte?_rank_of_le h hj hkept]
  exact hend

/-! ## Where nothing is cut beside a comment -/

theorem blankStart_cut {i : Nat} (hi : i ≤ source.utf8ByteSize)
    (hclear : ∀ k, blankStart source i ≤ k + 1 → k < i → Span.covers removed k = false) :
    blankStart (cut source removed) (rank removed i) = rank removed (blankStart source i) ∧
      opens (cut source removed) (rank removed i) = opens source i := by
  have hle := blankStart_le source i
  have hrun := blankRun_cut h (i := blankStart source i) hi fun k hk hki _ =>
    blankRun_blankStart source i k hk hki
  have hstart : blankStart (cut source removed) (rank removed (blankStart source i)) =
      rank removed (blankStart source i) ∧
      startsLine (cut source removed) (rank removed (blankStart source i)) =
        startsLine source (blankStart source i) := by
    cases hb : blankStart source i with
    | zero => exact ⟨rfl, rfl⟩
    | succ p =>
        have hkept := hclear p (by omega) (by omega)
        have hbyte := byte?_rank h (show p < source.utf8ByteSize by omega) hkept
        have hrank : rank removed (p + 1) = rank removed p + 1 := by
          rw [rank_succ, hkept]
          rfl
        constructor
        · refine blankStart_eq_self hrank ?_
          rw [hbyte, not_blank_before_blankStart hb.symm]
          simp
        · rw [hrank, startsLine, startsLine, Nat.add_sub_cancel, Nat.add_sub_cancel, hbyte]
          simp
  have heq := (blankStart_eq_of_run (rank_mono removed hle) hrun).trans hstart.1
  refine ⟨heq, ?_⟩
  rw [opens, opens, heq]
  exact hstart.2

theorem blankStop_cut {i : Nat} (hi : i ≤ source.utf8ByteSize)
    (hclear : ∀ k, i ≤ k → k ≤ blankStop source i → Span.covers removed k = false) :
    blankStop (cut source removed) (rank removed i) = rank removed (blankStop source i) ∧
      closes (cut source removed) (rank removed i) = closes source i := by
  have hle := le_blankStop source i
  have hsize := blankStop_le_size hi
  have hbyte := byte?_rank_of_le h hsize (hclear _ hle (Nat.le_refl _))
  have heq : blankStop (cut source removed) (rank removed i) =
      rank removed (blankStop source i) := by
    refine blankStop_eq (rank_mono removed hle) (blankRun_cut h hsize fun k hk hkj _ =>
      blankRun_blankStop source i k hk hkj) ?_
    rw [hbyte]
    exact not_blank_blankStop source i
  refine ⟨heq, ?_⟩
  rw [closes, closes, heq, endsLine, endsLine, hbyte]

end

theorem held_iff {source : String} {c : Comment} :
    Held source c ↔ opens source c.span.start = false ∧ closes source c.span.stop = false ∧
      (c.isMultiline = true ∨ blankStart source c.span.start = c.span.start ∧
        blankStop source c.span.stop = c.span.stop ∧ gluesAround source c.span = true) :=
  ⟨fun h => ⟨h.code_before, h.code_behind, h.apart⟩, fun h => ⟨h.1, h.2.1, h.2.2⟩⟩

/-- A cut that leaves it open or shut whether a comment has to stay: the comment opens its line and
still does, or it ends its line and still does, or nothing is cut beside it as far as the blanks and
the first byte behind them reach. -/
inductive Unswayed (source : String) (removed : List Span) (c : Comment) : Prop
  | opens (hopens : opens source c.span.start = true)
      (hstart : ∀ r ∈ removed, r.stop < blankStart source c.span.start ∨
        c.span.stop ≤ r.start ∨ startsLine source r.start = true)
  | closes (hcloses : closes source c.span.stop = true)
      (hstop : Span.covers removed (blankStop source c.span.stop) = false)
  | clear (hclear : ∀ r ∈ removed, r.stop < blankStart source c.span.start ∨
      blankStop source c.span.stop < r.start)

section

variable {source : String} {removed : List Span} {c : Comment} (h : Cuttable source removed)
include h

/-- Where nothing is cut between what opens a line and the comment, the comment still opens it. -/
theorem opens_afterCut (hle : c.span.start ≤ source.utf8ByteSize)
    (hopens : opens source c.span.start = true)
    (hstart : ∀ r ∈ removed, r.stop < blankStart source c.span.start ∨
      c.span.start < r.start ∨ startsLine source r.start = true) :
    opens (cut source removed) (rank removed c.span.start) = true := by
  have hb := blankStart_le source c.span.start
  have hblank := blankRun_blankStart source c.span.start
  rcases startsLine_iff.mp hopens with hzero | ⟨l, hl, hbreak⟩
  · rw [hzero] at hblank
    exact opens_cut h (Nat.zero_le _) hle (Or.inl rfl) fun k hk hkc _ => hblank k hk hkc
  rw [← hl] at hb hblank hstart
  cases hcovers : Span.covers removed l with
  | false =>
      exact opens_cut h hb hle (Or.inr ⟨l, rfl, hcovers, hbreak⟩) fun k hk hkc _ => hblank k hk hkc
  | true =>
      -- What goes together with the line break starts a line itself.
      obtain ⟨r, hr, hrl, hlr⟩ := Span.covers_iff.mp hcovers
      have hline := ((hstart r hr).resolve_left (by omega)).resolve_left (by omega)
      refine opens_cut h (j := r.start) (by omega) hle ?_ fun k hk hkc hkept => ?_
      · rcases startsLine_iff.mp hline with hzero | ⟨m, hm, hbreak'⟩
        · exact Or.inl hzero
        · exact Or.inr ⟨m, hm, h.canonical.not_covers_before hr hm, hbreak'⟩
      · have hbehind := (Span.covers_eq_false_iff.mp hkept r hr).resolve_left (by omega)
        exact hblank k (by omega) hkc

theorem gluesAround_afterCut (span : Span) (hlt : span.start < source.utf8ByteSize)
    (hle : span.stop ≤ source.utf8ByteSize)
    (hclear : ∀ k, span.start ≤ k + 1 → k ≤ span.start → Span.covers removed k = false)
    (hstop : Span.covers removed span.stop = false) :
    gluesAround (cut source removed) ⟨rank removed span.start, rank removed span.stop⟩ =
      gluesAround source span := by
  have hbefore : byte? (cut source removed) (rank removed span.start - 1) =
      byte? source (span.start - 1) := by
    cases hzero : span.start with
    | zero => exact byte?_rank h (by omega) (hclear 0 (by omega) (by omega))
    | succ p =>
        have hkept := hclear p (by omega) (by omega)
        rw [rank_succ, hkept]
        exact byte?_rank h (by omega) hkept
  unfold gluesAround
  rw [hbefore, byte?_rank_of_le h hle hstop]

theorem held_afterCut_iff (hc : c.StandsIn source) (hunswayed : Unswayed source removed c) :
    Held (cut source removed) (c.afterCut removed) ↔ Held source c := by
  have htwo := hc.start_add_two_le
  have hsize := le_size_of_isBoundary hc.boundary.2
  cases hunswayed with
  | opens hopens hstart =>
      have hopens' := opens_afterCut h (c := c) (by omega) hopens fun r hr =>
        (hstart r hr).imp_right fun hor => hor.imp_left fun hle => by omega
      constructor
      · intro hheld
        exact absurd (hopens'.symm.trans hheld.code_before) (by simp)
      · intro hheld
        exact absurd (hopens.symm.trans hheld.code_before) (by simp)
  | closes hcloses hstop =>
      have hcloses' := closes_cut h (le_blankStop source c.span.stop) (blankStop_le_size hsize) hstop
        hcloses (blankRun_blankStop source c.span.stop)
      constructor
      · intro hheld
        exact absurd (hcloses'.symm.trans hheld.code_behind) (by simp)
      · intro hheld
        exact absurd (hcloses.symm.trans hheld.code_behind) (by simp)
  | clear hclear =>
      have hb := blankStart_le source c.span.start
      have he := le_blankStop source c.span.stop
      have hkept : ∀ k, blankStart source c.span.start ≤ k + 1 → k ≤ blankStop source c.span.stop →
          Span.covers removed k = false := by
        intro k hk hke
        refine Span.covers_eq_false_iff.mpr fun r hr => ?_
        rcases hclear r hr with hlt | hlt <;> omega
      obtain ⟨hstart, hopens⟩ := blankStart_cut h (i := c.span.start) (by omega)
        fun k hk hkc => hkept k hk (by omega)
      obtain ⟨hstop, hcloses⟩ := blankStop_cut h hsize fun k hk hke => hkept k (by omega) hke
      have hglues := gluesAround_afterCut h c.span (by omega) hsize
        (fun k hk hkc => hkept k (by omega) (by omega)) (hkept c.span.stop (by omega) he)
      have hafter : Held (cut source removed) (c.afterCut removed) ↔
          opens (cut source removed) (rank removed c.span.start) = false ∧
          closes (cut source removed) (rank removed c.span.stop) = false ∧
          (c.isMultiline = true ∨
            blankStart (cut source removed) (rank removed c.span.start) =
              rank removed c.span.start ∧
            blankStop (cut source removed) (rank removed c.span.stop) =
              rank removed c.span.stop ∧
            gluesAround (cut source removed)
              ⟨rank removed c.span.start, rank removed c.span.stop⟩ = true) := held_iff
      rw [hafter, held_iff, hopens, hcloses, hstart, hstop, hglues,
        rank_eq_iff hb fun _ => hkept _ (by omega) (by omega),
        eq_comm (b := rank removed c.span.stop),
        rank_eq_iff he fun _ => hkept _ (by omega) (by omega),
        eq_comm (b := blankStop source c.span.stop)]

end

/-! ## Comments that still have to stay -/

/-- Of what is kept between two offsets, all is blank. -/
def KeptBlank (source : String) (removed : List Span) (start stop : Nat) : Prop :=
  ∀ k, start ≤ k → k < stop → Span.covers removed k = false → (byte? source k).any isBlank = true

/-- A cut brings the bytes at `p` and `q` up against a span, and without the span they would belong to
one token. -/
structure GluesAcross (source : String) (removed : List Span) (span : Span) (p q : Nat) : Prop where
  before : p < span.start
  behind : span.stop ≤ q
  kept : Span.covers removed p = false ∧ Span.covers removed q = false
  gone_before : ∀ k, p < k → k < span.start → Span.covers removed k = true
  gone_behind : ∀ k, span.stop ≤ k → k < q → Span.covers removed k = true
  glues : ∃ l r, byte? source p = some l ∧ byte? source q = some r ∧ glues l r = true

/-- A comment that has to stay in what a cut leaves, told by the bytes of the source that are kept:
blanks apart, the last one before it and the first one behind it are there and break no line, and
without it two lines would be one, or the two bytes beside it would belong to one token. -/
structure StillHeld (source : String) (removed : List Span) (c : Comment) : Prop where
  code_before : ∃ p < c.span.start, Span.covers removed p = false ∧
    (byte? source p).any isSpace = false ∧ KeptBlank source removed (p + 1) c.span.start
  code_behind : ∃ q < source.utf8ByteSize, c.span.stop ≤ q ∧ Span.covers removed q = false ∧
    (byte? source q).any isSpace = false ∧ KeptBlank source removed c.span.stop q
  apart : c.isMultiline = true ∨ ∃ p q, GluesAcross source removed c.span p q

theorem opens_eq_false_iff {source : String} {i : Nat} :
    opens source i = false ↔
      ∃ p < i, (byte? source p).any isSpace = false ∧ BlankRun source (p + 1) i := by
  constructor
  · intro h
    obtain ⟨p, hp, hcode⟩ := exists_code_of_not_opens h
    have hle := blankStart_le source i
    refine ⟨p, by omega, hcode, ?_⟩
    rw [hp]
    exact blankRun_blankStart source i
  · rintro ⟨p, hlt, hcode, hrun⟩
    apply Bool.eq_false_iff.mpr
    intro hopens
    obtain ⟨k, hpk, hki, hbreak⟩ := break_of_opens hcode hlt hopens
    exact not_blank_of_break hbreak (hrun k hpk hki)

theorem closes_eq_false_iff {source : String} {i : Nat} :
    closes source i = false ↔
      ∃ q < source.utf8ByteSize, i ≤ q ∧ (byte? source q).any isSpace = false ∧
        BlankRun source i q := by
  constructor
  · intro h
    obtain ⟨hlt, hcode⟩ := code_of_not_closes h
    exact ⟨_, hlt, le_blankStop source i, hcode, blankRun_blankStop source i⟩
  · rintro ⟨q, hlt, hle, hcode, hrun⟩
    exact not_closes_of_run hlt hcode hle hrun

theorem tight_of_gluesAround {source : String} {span : Span} (h : gluesAround source span = true) :
    blankStart source span.start = span.start ∧ blankStop source span.stop = span.stop := by
  unfold gluesAround at h
  cases hl : byte? source (span.start - 1) with
  | none =>
      rw [hl] at h
      exact absurd h (by simp)
  | some l =>
      cases hr : byte? source span.stop with
      | none =>
          rw [hl, hr] at h
          exact absurd h (by simp)
      | some r =>
          rw [hl, hr] at h
          obtain ⟨hleft, hright⟩ := not_space_of_glues h
          constructor
          · cases hstart : span.start with
            | zero => rfl
            | succ p =>
                rw [hstart, Nat.add_sub_cancel] at hl
                apply blankStart_eq_self rfl
                exact not_blank_of_not_space (by rw [hl]; exact hleft)
          · apply blankStop_eq_self
            exact not_blank_of_not_space (by rw [hr]; exact hright)

theorem held_iff_glues {source : String} {c : Comment} :
    Held source c ↔ opens source c.span.start = false ∧ closes source c.span.stop = false ∧
      (c.isMultiline = true ∨ gluesAround source c.span = true) := by
  rw [held_iff]
  constructor
  · rintro ⟨hopens, hcloses, hapart⟩
    exact ⟨hopens, hcloses, hapart.imp_right fun htight => htight.2.2⟩
  · rintro ⟨hopens, hcloses, hapart⟩
    refine ⟨hopens, hcloses, hapart.imp_right fun hglues => ?_⟩
    obtain ⟨hstart, hstop⟩ := tight_of_gluesAround hglues
    exact ⟨hstart, hstop, hglues⟩

section

variable {source : String} {removed : List Span} (h : Cuttable source removed)
include h

theorem blankRun_cut_iff {i j : Nat} (hj : j ≤ source.utf8ByteSize) :
    BlankRun (cut source removed) (rank removed i) (rank removed j) ↔
      KeptBlank source removed i j := by
  constructor
  · intro hrun k hik hkj hkept
    have hblank := hrun (rank removed k) (rank_mono removed hik) (rank_lt hkj hkept)
    rwa [byte?_rank h (by omega) hkept] at hblank
  · exact blankRun_cut h hj

theorem opens_cut_eq_false_iff {i : Nat} (hi : i ≤ source.utf8ByteSize) :
    opens (cut source removed) (rank removed i) = false ↔
      ∃ p < i, Span.covers removed p = false ∧ (byte? source p).any isSpace = false ∧
        KeptBlank source removed (p + 1) i := by
  rw [opens_eq_false_iff]
  constructor
  · rintro ⟨k, hlt, hcode, hrun⟩
    obtain ⟨p, hp, hkept, rfl⟩ := exists_rank_eq h (Nat.lt_of_lt_of_le hlt (rank_le_size h hi))
    rw [byte?_rank h hp hkept] at hcode
    have hsucc : rank removed p + 1 = rank removed (p + 1) := by
      rw [rank_succ, hkept]
      rfl
    rw [hsucc, blankRun_cut_iff h hi] at hrun
    exact ⟨p, (rank_lt_iff hkept).mp hlt, hkept, hcode, hrun⟩
  · rintro ⟨p, hlt, hkept, hcode, hblank⟩
    have hsucc : rank removed p + 1 = rank removed (p + 1) := by
      rw [rank_succ, hkept]
      rfl
    refine ⟨rank removed p, rank_lt hlt hkept, ?_, ?_⟩
    · rw [byte?_rank h (by omega) hkept]
      exact hcode
    · rw [hsucc, blankRun_cut_iff h hi]
      exact hblank

theorem closes_cut_eq_false_iff {i : Nat} :
    closes (cut source removed) (rank removed i) = false ↔
      ∃ q < source.utf8ByteSize, i ≤ q ∧ Span.covers removed q = false ∧
        (byte? source q).any isSpace = false ∧ KeptBlank source removed i q := by
  rw [closes_eq_false_iff]
  constructor
  · rintro ⟨k, hlt, hle, hcode, hrun⟩
    obtain ⟨q, hq, hkept, rfl⟩ := exists_rank_eq h hlt
    rw [byte?_rank h hq hkept] at hcode
    rw [blankRun_cut_iff h (Nat.le_of_lt hq)] at hrun
    refine ⟨q, hq, ?_, hkept, hcode, hrun⟩
    by_contra hbefore
    have := rank_lt (Nat.lt_of_not_le hbefore) hkept
    omega
  · rintro ⟨q, hq, hle, hkept, hcode, hblank⟩
    refine ⟨rank removed q, ?_, rank_mono removed hle, ?_, ?_⟩
    · rw [size_cut h]
      exact rank_lt hq hkept
    · rw [byte?_rank h hq hkept]
      exact hcode
    · rw [blankRun_cut_iff h (Nat.le_of_lt hq)]
      exact hblank

theorem exists_gluesAcross {span : Span} (hpos : 0 < rank removed span.start)
    (hstart : span.start ≤ source.utf8ByteSize)
    (hglues : gluesAround (cut source removed)
      ⟨rank removed span.start, rank removed span.stop⟩ = true) :
    ∃ p q, GluesAcross source removed span p q := by
  have hlt : rank removed span.start - 1 < (cut source removed).utf8ByteSize := by
    have := rank_le_size h hstart
    omega
  obtain ⟨p, hp, hpkept, hprank⟩ := exists_rank_eq h hlt
  unfold gluesAround at hglues
  dsimp only at hglues
  rw [← hprank, byte?_rank h hp hpkept] at hglues
  cases hl : byte? source p with
  | none =>
      rw [hl] at hglues
      exact absurd hglues (by simp)
  | some l =>
      cases hr : byte? (cut source removed) (rank removed span.stop) with
      | none =>
          rw [hl, hr] at hglues
          exact absurd hglues (by simp)
      | some r =>
          rw [hl, hr] at hglues
          obtain ⟨q, hq, hqkept, hqrank⟩ := exists_rank_eq h (lt_size_of_byte? hr)
          rw [← hqrank, byte?_rank h hq hqkept] at hr
          refine ⟨p, q, ?_, ?_, ⟨hpkept, hqkept⟩, fun k hpk hk => ?_, fun k hk hkq => ?_,
            l, r, hl, hr, hglues⟩
          · exact (rank_lt_iff hpkept).mp (by omega)
          · by_contra hbefore
            have := rank_lt (Nat.lt_of_not_le hbefore) hqkept
            omega
          · rw [← Bool.not_eq_false]
            intro hkept
            have := rank_lt hpk hpkept
            have := rank_lt hk hkept
            omega
          · rw [← Bool.not_eq_false]
            intro hkept
            have := rank_lt hkq hkept
            have := rank_mono removed hk
            omega

theorem GluesAcross.gluesAround_cut {span : Span} {p q : Nat}
    (hacross : GluesAcross source removed span p q) :
    gluesAround (cut source removed) ⟨rank removed span.start, rank removed span.stop⟩ = true := by
  obtain ⟨l, r, hl, hr, hglues⟩ := hacross.glues
  have hbefore := hacross.before
  have hbehind := hacross.behind
  have hstart : rank removed span.start = rank removed p + 1 := by
    have hgone := rank_add_of_removed (p + 1) (span.start - (p + 1)) fun k hk hlt =>
      hacross.gone_before k hk (by omega)
    rw [Nat.add_sub_cancel' hbefore, rank_succ, hacross.kept.1] at hgone
    exact hgone
  have hstop : rank removed span.stop = rank removed q := by
    have hgone := rank_add_of_removed span.stop (q - span.stop) fun k hk hlt =>
      hacross.gone_behind k hk (by omega)
    rw [Nat.add_sub_cancel' hbehind] at hgone
    exact hgone.symm
  rw [← byte?_rank h (lt_size_of_byte? hl) hacross.kept.1] at hl
  rw [← byte?_rank h (lt_size_of_byte? hr) hacross.kept.2, ← hstop] at hr
  rw [gluesAround_eq hstart hl hr]
  exact hglues

/-- Whether a comment has to stay in what a cut leaves can be told from the source. -/
theorem held_afterCut_iff_stillHeld {c : Comment} (hc : c.StandsIn source) :
    Held (cut source removed) (c.afterCut removed) ↔ StillHeld source removed c := by
  have htwo := hc.start_add_two_le
  have hsize := le_size_of_isBoundary hc.boundary.2
  have hstart : c.span.start ≤ source.utf8ByteSize := by omega
  rw [held_iff_glues]
  change (opens (cut source removed) (rank removed c.span.start) = false ∧
    closes (cut source removed) (rank removed c.span.stop) = false ∧
    (c.isMultiline = true ∨ gluesAround (cut source removed)
      ⟨rank removed c.span.start, rank removed c.span.stop⟩ = true)) ↔ _
  rw [opens_cut_eq_false_iff h hstart, closes_cut_eq_false_iff h]
  constructor
  · rintro ⟨hbefore, hbehind, hapart⟩
    refine ⟨hbefore, hbehind, hapart.imp_right fun hglues => ?_⟩
    obtain ⟨p, hlt, hkept, -⟩ := hbefore
    have := rank_lt hlt hkept
    exact exists_gluesAcross h (by omega) hstart hglues
  · rintro ⟨hbefore, hbehind, hapart⟩
    refine ⟨hbefore, hbehind, hapart.imp_right ?_⟩
    rintro ⟨p, q, hacross⟩
    exact hacross.gluesAround_cut h

end

end Padding

end JsPrune
