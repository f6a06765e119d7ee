import JsPrune.Proofs.SourceMap.Exactness
/-!
# The order of mappings

The offsets of mappings ascend on both sides, but a position is shared by the line feed of a pair and
what stands behind it.  So the positions ascend strictly unless a line feed has a mapping of its own
behind a carriage return and the next mapping is right behind it.  This happens in the output to a
line feed between two removals, and in the source to one whose carriage return was removed.
-/

namespace JsPrune

open String (utf8Len)
open Text

namespace Text

def AfterReturn (s : String) (i : Nat) : Prop :=
  ∃ k, k + 1 = i ∧ byte? s k = some 0x0D

/-- Whether offset `i` stands between a carriage return and the line feed behind it. -/
def InsidePair (s : String) (i : Nat) : Prop :=
  byte? s i = some 0x0A ∧ AfterReturn s i

theorem insidePair_iff {s : String} {front part after : List Char}
    (hs : s.toList = front ++ part ++ after) :
    (utf8Len part = 1 ∧ InsidePair s (utf8Len front)) ↔
      part = ['\n'] ∧ Position.endsReturn front = true := by
  constructor
  · rintro ⟨hlen, hnewline, k, hk, hreturn⟩
    cases part with
    | nil => exact absurd hlen (by simp)
    | cons c part =>
        have hs' : s.toList = front ++ c :: (part ++ after) := by
          rw [hs, List.append_assoc, List.cons_append]
        have hc := SourceMap.eq_newline_of_byte? hs' hnewline
        have hpart : utf8Len part = 0 := by
          have hsize : '\n'.utf8Size = 1 := rfl
          rw [String.utf8Len_cons, hc, hsize] at hlen
          omega
        refine ⟨?_, SourceMap.endsReturn_of_byte? hs' hk hreturn⟩
        cases part with
        | nil => rw [hc]
        | cons d part =>
            have hpos := d.utf8Size_pos
            rw [String.utf8Len_cons] at hpart
            omega
  · rintro ⟨rfl, hreturn⟩
    have hs' : s.toList = front ++ '\n' :: after := by rw [hs, List.append_assoc]; rfl
    refine ⟨rfl, byte?_of_toNat_lt hs' (by decide), ?_⟩
    rw [Position.endsReturn, beq_iff_eq] at hreturn
    obtain ⟨before, rfl⟩ := List.getLast?_eq_some_iff.mp hreturn
    have hbefore : s.toList = before ++ '\r' :: '\n' :: after := by
      rw [hs', List.append_assoc]
      rfl
    refine ⟨utf8Len before, ?_, byte?_of_toNat_lt hbefore (by decide)⟩
    rw [String.utf8Len_append]
    rfl

/-- Two boundaries have the same position only around the line feed of a pair. -/
theorem position_before_iff {s : String} {a b : Nat} (ha : isBoundary s a = true)
    (hb : isBoundary s b = true) (hab : a < b) :
    (Position.behind (fitting a s.toList)).Before (.behind (fitting b s.toList)) ↔
      ¬ (b = a + 1 ∧ InsidePair s a) := by
  obtain ⟨front, rest, hs, rfl⟩ := isBoundary_iff.mp ha
  obtain ⟨part, after, rfl, rfl⟩ := exists_split hs hb (Nat.le_of_lt hab)
  have hs' : s.toList = front ++ part ++ after := by rw [hs, List.append_assoc]
  have hne : part ≠ [] := by
    rintro rfl
    rw [String.utf8Len_nil] at hab
    omega
  have hfront : fitting (utf8Len front) s.toList = front := by rw [hs, fitting_utf8Len]
  have hboth : fitting (utf8Len front + utf8Len part) s.toList = front ++ part := by
    rw [hs', ← String.utf8Len_append, fitting_utf8Len]
  rw [hfront, hboth, Position.behind_before_iff hne, ← insidePair_iff hs', Nat.add_left_cancel_iff]

end Text

/-! ## Which offsets have a mapping -/

namespace SourceMap

open Segment

def StartsSegment (removed : List Span) (j : Nat) : Prop :=
  ∀ i, i + 1 = j → Span.covers removed i = true

/-- Whether a line of the output ends with the byte that is copied from a kept offset. -/
def EndsLine (source : String) (removed : List Span) (i : Nat) : Prop :=
  (byte? source i = some 0x0A ∧
    ¬ (StartsSegment removed i ∧ AfterReturn (cut source removed) (rank removed i))) ∨
  (byte? source i = some 0x0D ∧ byte? source (i + 1) ≠ some 0x0A)

theorem endsLineAt_iff {output : String} {first i : Nat} :
    endsLineAt output first i = true ↔
      (byte? output i = some 0x0A ∧ ¬ (i = first ∧ AfterReturn output i)) ∨
      (byte? output i = some 0x0D ∧ byte? output (i + 1) ≠ some 0x0A) := by
  have hreturn : (0 < i ∧ byte? output (i - 1) = some 0x0D) ↔ AfterReturn output i := by
    constructor
    · rintro ⟨hpos, hbyte⟩
      exact ⟨i - 1, by omega, hbyte⟩
    · rintro ⟨k, rfl, hbyte⟩
      exact ⟨by omega, hbyte⟩
  have hjoined : (i == first && decide (0 < i) && byte? output (i - 1) == some 0x0D) = true ↔
      i = first ∧ AfterReturn output i := by
    rw [Bool.and_eq_true, Bool.and_eq_true, beq_iff_eq, beq_iff_eq, decide_eq_true_eq, and_assoc,
      hreturn]
  unfold endsLineAt
  split
  · rename_i hbyte
    rw [Bool.not_eq_true', ← Bool.not_eq_true, hjoined]
    simp [hbyte]
  · rename_i hbyte
    simp [hbyte]
  · rename_i hnewline hreturned
    have hnewline' : byte? output i ≠ some 0x0A := hnewline
    have hreturned' : byte? output i ≠ some 0x0D := hreturned
    simp [hnewline', hreturned']

section

variable {source : String} {removed : List Span}

theorem eq_original_of_starts {size j : Nat} {segment : Segment} (h : segment.Exact size removed)
    (hj : StartsSegment removed j) (hstart : segment.original ≤ j)
    (hstop : j < segment.original + segment.length) : j = segment.original := by
  by_contra hne
  have hcovers := hj (j - 1) (by omega)
  rw [h.kept (j - 1) (by omega) (by omega)] at hcovers
  exact absurd hcovers (by simp)

theorem byte?_rank_succ (h : Cuttable source removed) {i : Nat}
    (hi : i + 1 < source.utf8ByteSize) (hkept : Span.covers removed i = false)
    (hnext : Span.covers removed (i + 1) = false) :
    byte? (cut source removed) (rank removed i + 1) = byte? source (i + 1) := by
  have hrank := rank_succ removed i
  rw [hkept] at hrank
  rw [← byte?_rank h hi hnext, hrank]
  rfl

theorem endsLineAt_rank_iff (h : Cuttable source removed) {segment : Segment}
    (hs : segment.Exact source.utf8ByteSize removed) {i : Nat} (hstart : segment.original ≤ i)
    (hstop : i + 1 < segment.original + segment.length) :
    endsLineAt (cut source removed) segment.generated (rank removed i) = true ↔
      EndsLine source removed i := by
  have hsize := hs.le_size
  have hkept := hs.kept i hstart (by omega)
  have hnext := hs.kept (i + 1) (by omega) hstop
  have hrank := hs.rank_add (n := i - segment.original) (by omega)
  rw [Nat.add_sub_cancel' hstart] at hrank
  have hfirst : rank removed i = segment.generated ↔ StartsSegment removed i := by
    constructor
    · intro heq
      rw [show i = segment.original by omega]
      exact hs.first
    · intro hstarts
      have := eq_original_of_starts hs hstarts hstart (by omega)
      omega
  rw [endsLineAt_iff, byte?_rank h (by omega) hkept, byte?_rank_succ h (by omega) hkept hnext,
    hfirst, EndsLine]

/-- A kept offset has a mapping if a segment or a line of the output starts with it. -/
theorem mem_anchorsOfCut_iff (h : Cuttable source removed) {j : Nat}
    (hj : j < source.utf8ByteSize) (hkept : Span.covers removed j = false) :
    (rank removed j, j) ∈ anchorsOfCut source removed ↔
      StartsSegment removed j ∨
        ∃ i, i + 1 = j ∧ Span.covers removed i = false ∧ EndsLine source removed i := by
  constructor
  · intro ha
    obtain ⟨segment, -, hs, ha⟩ := exists_segment_of_anchor h ha
    rcases mem_anchors.mp ha with heq | ⟨g, hg, hlt, hends, heq⟩
    · obtain ⟨-, rfl⟩ := Prod.mk.inj heq
      exact Or.inl hs.first
    · obtain ⟨-, hjeq⟩ := Prod.mk.inj heq
      have hrank := hs.rank_add (n := g - segment.generated) (by omega)
      rw [Nat.add_sub_cancel' hg] at hrank
      rw [← hrank, endsLineAt_rank_iff h hs (Nat.le_add_right ..) (by omega)] at hends
      exact Or.inr ⟨_, by omega, hs.kept _ (Nat.le_add_right ..) (by omega), hends⟩
  · intro hor
    obtain ⟨segment, hsegment, hstart, hstop⟩ := (exhaust_kept h).holds j (Nat.zero_le j) hj hkept
    have hs := ((exhaust_kept h).exact segment hsegment).1
    apply List.mem_flatMap.mpr
    refine ⟨segment, hsegment, ?_⟩
    rcases hor with hstarts | ⟨i, rfl, hikept, hends⟩
    · obtain rfl := eq_original_of_starts hs hstarts hstart hstop
      rw [← hs.generated_eq]
      exact mem_anchors.mpr (Or.inl rfl)
    · have hile : segment.original ≤ i := by
        by_contra hgt
        have hcovers := hs.first i (by omega)
        rw [hikept] at hcovers
        exact absurd hcovers (by simp)
      have hrank := hs.rank_add (n := i - segment.original) (by omega)
      rw [Nat.add_sub_cancel' hile] at hrank
      have hsucc : rank removed (i + 1) = rank removed i + 1 := by
        rw [rank_succ, hikept]
        rfl
      have hcode : segment.generated + segment.length ≤ (cut source removed).utf8ByteSize := by
        rw [size_cut h, ← hs.rank_add (Nat.le_refl _)]
        exact rank_mono removed hs.le_size
      refine mem_anchors.mpr (Or.inr ⟨rank removed i, by omega, by omega, ?_, ?_⟩)
      · exact (endsLineAt_rank_iff h hs hile hstop).mpr hends
      · rw [hsucc, Prod.mk.injEq]
        exact ⟨rfl, by omega⟩

theorem not_endsLine_of_return {i : Nat} (hreturn : byte? source i = some 0x0D)
    (hnewline : byte? source (i + 1) = some 0x0A) : ¬ EndsLine source removed i := by
  rintro (⟨hbyte, -⟩ | ⟨-, hnot⟩)
  · rw [hreturn] at hbyte
    exact absurd hbyte (by decide)
  · exact hnot hnewline

theorem not_endsLine_of_newline {i : Nat} (hnewline : byte? source i = some 0x0A)
    (hstarts : StartsSegment removed i)
    (hafter : AfterReturn (cut source removed) (rank removed i)) :
    ¬ EndsLine source removed i := by
  rintro (⟨-, hnot⟩ | ⟨hbyte, -⟩)
  · exact hnot ⟨hstarts, hafter⟩
  · rw [hnewline] at hbyte
    exact absurd hbyte (by decide)

theorem rank_inj {i j : Nat} (hi : Span.covers removed i = false)
    (hj : Span.covers removed j = false) (h : rank removed i = rank removed j) : i = j := by
  rcases Nat.lt_trichotomy i j with hlt | heq | hgt
  · have := rank_lt hlt hi
    omega
  · exact heq
  · have := rank_lt hgt hj
    omega

end

/-! ## Line feeds that share a position -/

/-- A cut keeps a line feed alone, between two removals, and puts it right behind a carriage
return. -/
def LoneLineFeed (source : String) (removed : List Span) : Prop :=
  ∃ k p q r : Nat, (origins source removed)[k]? = some p ∧
    (origins source removed)[k + 1]? = some q ∧ (origins source removed)[k + 2]? = some r ∧
    byte? source p = some 0x0D ∧ byte? source q = some 0x0A ∧ q ≠ p + 1 ∧ r ≠ q + 1

/-- A cut takes the carriage return of a pair, keeps the line feed and the byte behind it, and puts
no other carriage return before the line feed. -/
def HalvedLineEnd (source : String) (removed : List Span) : Prop :=
  ∃ q : Nat, byte? source q = some 0x0D ∧ byte? source (q + 1) = some 0x0A ∧
    q + 2 < source.utf8ByteSize ∧ Span.covers removed q = true ∧
    Span.covers removed (q + 1) = false ∧ Span.covers removed (q + 2) = false ∧
    ¬ AfterReturn (cut source removed) (rank removed (q + 1))

section

variable {source : String} {removed : List Span}

theorem startsSegment_of_origins {k p q : Nat} (hp : (origins source removed)[k]? = some p)
    (hq : (origins source removed)[k + 1]? = some q) (hne : q ≠ p + 1) :
    StartsSegment removed q := by
  intro i hi
  have hpq := origins_lt hp hq (Nat.lt_succ_self k)
  exact covers_between_origins hp hq (by omega) (by omega)

/-- An anchor is a kept offset, with its place in the output, with which a segment or a line
starts. -/
theorem exists_of_anchor (h : Cuttable source removed) {anchor : Nat × Nat}
    (ha : anchor ∈ anchorsOfCut source removed) :
    ∃ j, anchor = (rank removed j, j) ∧ j < source.utf8ByteSize ∧
      Span.covers removed j = false ∧
      (StartsSegment removed j ∨
        ∃ i, i + 1 = j ∧ Span.covers removed i = false ∧ EndsLine source removed i) := by
  obtain ⟨hlt, hkept, hrank, -⟩ := anchor_spec h ha
  obtain ⟨g, j⟩ := anchor
  dsimp only at hlt hkept hrank
  subst hrank
  exact ⟨j, rfl, hlt, hkept, (mem_anchorsOfCut_iff h hlt hkept).mp ha⟩

theorem shared_generated_iff (h : Cuttable source removed) :
    (∃ a ∈ anchorsOfCut source removed, ∃ b ∈ anchorsOfCut source removed,
      b.1 = a.1 + 1 ∧ InsidePair (cut source removed) a.1) ↔ LoneLineFeed source removed := by
  constructor
  · rintro ⟨a, ha, b, hb, hab, hnewline, k, hk, hreturn⟩
    obtain ⟨q, rfl, hqlt, hqkept, hq⟩ := exists_of_anchor h ha
    obtain ⟨r, rfl, hrlt, hrkept, hr⟩ := exists_of_anchor h hb
    dsimp only at hab hnewline hk
    have hqorigin := origins_rank hqlt hqkept
    have hrorigin := origins_rank hrlt hrkept
    have hqbyte : byte? source q = some 0x0A := by rw [← byte?_rank h hqlt hqkept, hnewline]
    have hklt : k < (origins source removed).length := by
      have := (List.getElem?_eq_some_iff.mp hqorigin).1
      omega
    obtain ⟨p, hporigin⟩ : ∃ p, (origins source removed)[k]? = some p :=
      ⟨_, List.getElem?_eq_getElem hklt⟩
    have hpkept := (kept_of_origins hporigin).2
    have hpbyte : byte? source p = some 0x0D := by rw [← byte?_cut h hporigin, hreturn]
    -- No line ends between the two bytes of the pair, so a segment starts with the line feed ...
    have hqstarts : StartsSegment removed q := by
      rcases hq with hstarts | ⟨i, rfl, hikept, hends⟩
      · exact hstarts
      · have hirank := rank_succ removed i
        rw [hikept] at hirank
        have hip := rank_inj hikept hpkept (by
          rw [rank_of_origins hporigin]
          exact Nat.succ_inj.mp (hirank.symm.trans hk.symm))
        rw [← hip] at hpbyte
        exact absurd hends (not_endsLine_of_return hpbyte hqbyte)
    -- ... and none ends with the line feed, so another one starts behind it.
    have hrstarts : StartsSegment removed r := by
      rcases hr with hstarts | ⟨i, rfl, hikept, hends⟩
      · exact hstarts
      · have hirank := rank_succ removed i
        rw [hikept] at hirank
        obtain rfl := rank_inj hikept hqkept (Nat.succ_inj.mp (hirank.symm.trans hab))
        exact absurd hends (not_endsLine_of_newline hqbyte hqstarts ⟨k, hk, hreturn⟩)
    refine ⟨k, p, q, r, hporigin, by rw [hk]; exact hqorigin, ?_, hpbyte, hqbyte, ?_, ?_⟩
    · rw [show k + 2 = rank removed r by omega]
      exact hrorigin
    · intro heq
      rw [hqstarts p heq.symm] at hpkept
      exact absurd hpkept (by simp)
    · intro heq
      rw [hrstarts q heq.symm] at hqkept
      exact absurd hqkept (by simp)
  · rintro ⟨k, p, q, r, hp, hq, hr, hpbyte, hqbyte, hqne, hrne⟩
    obtain ⟨hqlt, hqkept⟩ := kept_of_origins hq
    obtain ⟨hrlt, hrkept⟩ := kept_of_origins hr
    have hqrank := rank_of_origins hq
    have hrrank := rank_of_origins hr
    have hqmem := (mem_anchorsOfCut_iff h hqlt hqkept).mpr
      (Or.inl (startsSegment_of_origins hp hq hqne))
    have hrmem := (mem_anchorsOfCut_iff h hrlt hrkept).mpr
      (Or.inl (startsSegment_of_origins hq hr hrne))
    refine ⟨_, hqmem, _, hrmem, by dsimp only; omega, ?_, k, hqrank.symm, ?_⟩
    · rw [byte?_rank h hqlt hqkept, hqbyte]
    · rw [byte?_cut h hp, hpbyte]

theorem shared_original_iff (h : Cuttable source removed) :
    (∃ a ∈ anchorsOfCut source removed, ∃ b ∈ anchorsOfCut source removed,
      b.2 = a.2 + 1 ∧ InsidePair source a.2) ↔ HalvedLineEnd source removed := by
  constructor
  · rintro ⟨a, ha, b, hb, hab, hnewline, q, hq, hreturn⟩
    obtain ⟨j, rfl, hjlt, hjkept, hj⟩ := exists_of_anchor h ha
    obtain ⟨r, rfl, hrlt, hrkept, hr⟩ := exists_of_anchor h hb
    dsimp only at hab hnewline hq
    subst hab hq
    have hstarts : StartsSegment removed (q + 1) := by
      rcases hj with hstarts | ⟨i, hi, -, hends⟩
      · exact hstarts
      · obtain rfl : i = q := by omega
        exact absurd hends (not_endsLine_of_return hreturn hnewline)
    refine ⟨q, hreturn, hnewline, hrlt, hstarts q rfl, hjkept, hrkept, ?_⟩
    intro hafter
    rcases hr with hrstarts | ⟨i, hi, -, hends⟩
    · rw [hrstarts (q + 1) rfl] at hjkept
      exact absurd hjkept (by simp)
    · obtain rfl : i = q + 1 := by omega
      exact not_endsLine_of_newline hnewline hstarts hafter hends
  · rintro ⟨q, hreturn, hnewline, hlt, hq, hq1, hq2, hnot⟩
    have hstarts : StartsSegment removed (q + 1) := by
      intro i hi
      rw [Nat.succ_inj.mp hi]
      exact hq
    have hends : EndsLine source removed (q + 1) := Or.inl ⟨hnewline, fun hboth => hnot hboth.2⟩
    have hmem := (mem_anchorsOfCut_iff h (by omega) hq1).mpr (Or.inl hstarts)
    have hmem' := (mem_anchorsOfCut_iff h hlt hq2).mpr (Or.inr ⟨q + 1, rfl, hq1, hends⟩)
    exact ⟨_, hmem, _, hmem', rfl, hnewline, q, rfl, hreturn⟩

/-! ## Mappings in order -/

/-- In a list that ascends by one measure, a relation between neighbours and beyond is one between
smaller and greater elements. -/
theorem pairwise_iff_of_ascending {α : Type} {f : α → Nat} {R : α → α → Prop} {xs : List α}
    (hxs : xs.Pairwise fun a b => f a < f b) :
    xs.Pairwise R ↔ ∀ a ∈ xs, ∀ b ∈ xs, f a < f b → R a b := by
  constructor
  · intro h a ha b hb hab
    obtain ⟨i, hi, rfl⟩ := List.mem_iff_getElem.mp ha
    obtain ⟨j, hj, rfl⟩ := List.mem_iff_getElem.mp hb
    have hascend := List.pairwise_iff_getElem.mp hxs
    rcases Nat.lt_trichotomy i j with hlt | rfl | hgt
    · exact List.pairwise_iff_getElem.mp h i j hi hj hlt
    · exact absurd hab (Nat.lt_irrefl _)
    · exact absurd (Nat.lt_trans hab (hascend j i hj hi hgt)) (Nat.lt_irrefl _)
  · intro h
    apply hxs.imp_of_mem
    intro a b ha hb hab
    exact h a ha b hb hab

theorem anchor_lt_iff (h : Cuttable source removed) {a b : Nat × Nat}
    (ha : a ∈ anchorsOfCut source removed) (hb : b ∈ anchorsOfCut source removed) :
    a.1 < b.1 ↔ a.2 < b.2 := by
  obtain ⟨-, hakept, harank, -⟩ := anchor_spec h ha
  obtain ⟨-, hbkept, hbrank, -⟩ := anchor_spec h hb
  rw [harank, hbrank]
  constructor
  · intro hlt
    by_contra hge
    have := rank_mono removed (Nat.not_lt.mp hge)
    omega
  · intro hlt
    exact rank_lt hlt hakept

theorem isBoundary_of_anchor (h : Cuttable source removed) {anchor : Nat × Nat}
    (ha : anchor ∈ anchorsOfCut source removed) :
    isBoundary (cut source removed) anchor.1 = true := by
  obtain ⟨before, after, hs, -, hlen, -⟩ := exists_split_of_anchor h ha
  rw [← hlen]
  exact isBoundary_utf8Len (toList_cut_append h hs)

theorem isChain_mappings_iff (h : Cuttable source removed) (sourceName : String)
    {place : Mapping → Position} {Shared : Nat × Nat → Nat × Nat → Prop}
    (hbefore : ∀ a ∈ anchorsOfCut source removed, ∀ b ∈ anchorsOfCut source removed, a.1 < b.1 →
      ((place (mappingOf source removed a)).Before (place (mappingOf source removed b)) ↔
        ¬ Shared a b))
    (hlt : ∀ a ∈ anchorsOfCut source removed, ∀ b ∈ anchorsOfCut source removed, Shared a b →
      a.1 < b.1) :
    ((ofCut source (cut source removed) sourceName removed).mappings.IsChain
        fun a b => (place a).Before (place b)) ↔
      ¬ ∃ a ∈ anchorsOfCut source removed, ∃ b ∈ anchorsOfCut source removed, Shared a b := by
  have htrans : Trans (fun a b : Mapping => (place a).Before (place b))
      (fun a b => (place a).Before (place b)) (fun a b => (place a).Before (place b)) :=
    ⟨Position.Before.trans⟩
  rw [mappings_ofCut h, List.isChain_iff_pairwise, List.pairwise_map,
    pairwise_iff_of_ascending (pairwise_anchorsOfCut h)]
  constructor
  · rintro hall ⟨a, ha, b, hb, hshared⟩
    have hab := hlt a ha b hb hshared
    exact (hbefore a ha b hb hab).mp (hall a ha b hb hab) hshared
  · intro hnone a ha b hb hab
    rw [hbefore a ha b hb hab]
    intro hshared
    exact hnone ⟨a, ha, b, hb, hshared⟩

theorem isChain_generated_iff (h : Cuttable source removed) (sourceName : String) :
    ((ofCut source (cut source removed) sourceName removed).mappings.IsChain
        fun a b => a.generated.Before b.generated) ↔ ¬ LoneLineFeed source removed := by
  rw [← shared_generated_iff h]
  apply isChain_mappings_iff h
  · intro a ha b hb hab
    exact position_before_iff (isBoundary_of_anchor h ha) (isBoundary_of_anchor h hb) hab
  · rintro a ha b hb ⟨hab, -⟩
    omega

theorem isChain_original_iff (h : Cuttable source removed) (sourceName : String) :
    ((ofCut source (cut source removed) sourceName removed).mappings.IsChain
        fun a b => a.original.Before b.original) ↔ ¬ HalvedLineEnd source removed := by
  rw [← shared_original_iff h]
  apply isChain_mappings_iff h
  · intro a ha b hb hab
    apply position_before_iff (anchor_spec h ha).2.2.2 (anchor_spec h hb).2.2.2
    exact (anchor_lt_iff h ha hb).mp hab
  · rintro a ha b hb ⟨hab, -⟩
    exact (anchor_lt_iff h ha hb).mpr (by omega)

end

end SourceMap

namespace Session

/-- The mappings of a session ascend strictly in the output unless a line feed is kept alone between
two removals, right behind a carriage return, and in the source unless the carriage return of a pair
is removed and its line feed ends a line of the output on which something follows. -/
theorem sourceMap_ascends_iff (source sourceName : String) (requests : List Request) :
    (((new source sourceName).after requests).sourceMap.mappings.IsChain
        (fun a b => a.generated.Before b.generated) ↔
      ¬ SourceMap.LoneLineFeed source ((new source sourceName).after requests).removed) ∧
    (((new source sourceName).after requests).sourceMap.mappings.IsChain
        (fun a b => a.original.Before b.original) ↔
      ¬ SourceMap.HalvedLineEnd source ((new source sourceName).after requests).removed) := by
  have hcut := cuttable_after_new source sourceName requests
  have hsource := source_after_new source sourceName requests
  rw [sourceMap, code_eq, hsource]
  exact ⟨SourceMap.isChain_generated_iff hcut _, SourceMap.isChain_original_iff hcut _⟩

-- The line feed that is left of a pair and what stands behind it come from one position.
example : ((new "a\r\nb" "a.js").after
    [.markConstruct 0 2 .expression .nested]).sourceMap.mappings.map Mapping.original =
      [⟨1, 0⟩, ⟨1, 0⟩] := by
  decide +kernel

end Session

end JsPrune
