import JsPrune.SourceMap.Basic
import JsPrune.Proofs.SourceMap.Segments
import JsPrune.Proofs.Text.Blanks
import Mathlib.Data.Nat.Find
/-!
# Anchors

A cut has an anchor where a segment starts and where a line starts inside a segment.  Between a kept
offset and the last anchor before it everything is kept and no line ends, unless the cut itself makes a
line end of a carriage return and a line feed that were apart.
-/

namespace JsPrune

open Text

/-- Whether a cut puts a carriage return right before a line feed that did not follow it in the
source. -/
def JoinsLineEnd (source : String) (removed : List Span) : Prop :=
  ∃ k p q : Nat, (origins source removed)[k]? = some p ∧
    (origins source removed)[k + 1]? = some q ∧ q ≠ p + 1 ∧
    byte? source p = some 0x0D ∧ byte? source q = some 0x0A

instance (source : String) (removed : List Span) : Decidable (JoinsLineEnd source removed) :=
  decidable_of_iff (∃ pair ∈ (origins source removed).zip (origins source removed).tail,
      pair.2 ≠ pair.1 + 1 ∧ byte? source pair.1 = some 0x0D ∧ byte? source pair.2 = some 0x0A) <| by
    constructor
    · rintro ⟨pair, hpair, hbytes⟩
      obtain ⟨k, hk⟩ := List.mem_iff_getElem?.mp hpair
      rw [List.getElem?_zip_eq_some, List.getElem?_tail] at hk
      exact ⟨k, pair.1, pair.2, hk.1, hk.2, hbytes⟩
    · rintro ⟨k, p, q, hp, hq, hbytes⟩
      refine ⟨(p, q), List.mem_iff_getElem?.mpr ⟨k, ?_⟩, hbytes⟩
      rw [List.getElem?_zip_eq_some, List.getElem?_tail]
      exact ⟨hp, hq⟩

namespace Segment

theorem mem_anchors {output : String} {segment : Segment} {anchor : Nat × Nat} :
    anchor ∈ anchors output segment ↔
      anchor = (segment.generated, segment.original) ∨
      ∃ i, segment.generated ≤ i ∧
        i + 1 < min (segment.generated + segment.length) output.utf8ByteSize ∧
        endsLineAt output segment.generated i = true ∧
        anchor = (i + 1, segment.original + (i + 1 - segment.generated)) := by
  unfold anchors
  dsimp only
  rw [List.mem_cons, List.mem_filterMap]
  refine or_congr Iff.rfl ⟨?_, ?_⟩
  · rintro ⟨i, hi, hanchor⟩
    rw [List.mem_range'_1] at hi
    split at hanchor
    · rename_i hends
      rw [Bool.and_eq_true, decide_eq_true_eq] at hends
      exact ⟨i, hi.1, hends.2, hends.1, (Option.some.inj hanchor).symm⟩
    · exact absurd hanchor (by simp)
  · rintro ⟨i, hi, hlt, hends, rfl⟩
    refine ⟨i, List.mem_range'_1.mpr ⟨hi, by omega⟩, ?_⟩
    rw [if_pos (by rw [hends]; simpa using hlt)]

theorem break_of_endsLineAt {output : String} {first i : Nat}
    (h : endsLineAt output first i = true) : (byte? output i).any isLineBreak = true := by
  unfold endsLineAt at h
  split at h
  · rename_i hbyte
    rw [hbyte]
    rfl
  · rename_i hbyte
    rw [hbyte]
    rfl
  · exact absurd h (by simp)

theorem pairwise_anchors (output : String) (segment : Segment) :
    (anchors output segment).Pairwise fun a b => a.1 < b.1 := by
  unfold anchors
  dsimp only
  refine List.pairwise_cons.mpr ⟨fun anchor hanchor => ?_, ?_⟩
  · obtain ⟨i, hi, heq⟩ := List.mem_filterMap.mp hanchor
    rw [List.mem_range'_1] at hi
    split at heq
    · rw [← Option.some.inj heq]
      dsimp only
      omega
    · exact absurd heq (by simp)
  · refine List.Pairwise.filterMap _ (fun i j hij a ha b hb => ?_) (List.pairwise_lt_range' ..)
    split at ha
    · split at hb
      · rw [← Option.some.inj ha, ← Option.some.inj hb]
        dsimp only
        omega
      · exact absurd hb (by simp)
    · exact absurd ha (by simp)

section

variable {source : String} {removed : List Span}

theorem size_cut (h : Cuttable source removed) :
    (cut source removed).utf8ByteSize = rank removed source.utf8ByteSize := by
  have hlen := utf8Len_keep (List.append_nil source.toList).symm h
  rw [← toList_cut h, String.utf8Len_toList, String.utf8Len_toList] at hlen
  exact hlen

theorem byte?_rank (h : Cuttable source removed) {i : Nat} (hi : i < source.utf8ByteSize)
    (hkept : Span.covers removed i = false) :
    byte? (cut source removed) (rank removed i) = byte? source i :=
  byte?_cut h (origins_rank hi hkept)

theorem Exact.isBoundary {segment : Segment} (h : Cuttable source removed)
    (hs : segment.Exact source.utf8ByteSize removed) :
    isBoundary source segment.original = true := by
  have hpos := hs.pos
  rcases Nat.eq_zero_or_pos segment.original with hzero | hpos'
  · rw [hzero]
    exact isBoundary_zero source
  · obtain ⟨i, hi⟩ := Nat.exists_eq_add_of_lt hpos'
    rw [Nat.zero_add] at hi
    obtain ⟨r, hr, hstart, hstop⟩ := Span.covers_iff.mp (hs.first i hi.symm)
    have hout := Span.covers_eq_false_iff.mp (hs.kept _ (Nat.le_refl _) (by omega)) r hr
    have heq : segment.original = r.stop := by omega
    rw [heq]
    exact (h.boundary r hr).2

theorem Exact.of_anchor {segment : Segment} (h : Cuttable source removed)
    (hs : segment.Exact source.utf8ByteSize removed) {anchor : Nat × Nat}
    (ha : anchor ∈ anchors (cut source removed) segment) :
    segment.original ≤ anchor.2 ∧ anchor.2 < segment.original + segment.length ∧
      anchor.1 = rank removed anchor.2 ∧ Text.isBoundary source anchor.2 = true := by
  have hpos := hs.pos
  rcases mem_anchors.mp ha with rfl | ⟨i, hi, hlt, hends, rfl⟩
  · exact ⟨Nat.le_refl _, by dsimp only; omega, hs.generated_eq, hs.isBoundary h⟩
  · have hsize := hs.le_size
    have hrank := hs.rank_add (n := i - segment.generated) (by omega)
    rw [Nat.add_sub_cancel' hi] at hrank
    have hbyte := byte?_rank h (i := segment.original + (i - segment.generated)) (by omega)
      (hs.kept _ (by omega) (by omega))
    rw [hrank] at hbyte
    have hbreak := break_of_endsLineAt hends
    rw [hbyte] at hbreak
    refine ⟨by dsimp only; omega, by dsimp only; omega, ?_, ?_⟩
    · rw [hs.rank_add (by omega)]
      dsimp only
      omega
    · have hsucc := isBoundary_succ_of_any (fun _ => toNat_lt_of_isLineBreak) hbreak
      rw [Nat.add_assoc, ← Nat.sub_add_comm hi] at hsucc
      exact hsucc

end

end Segment

namespace SourceMap

open Segment

section

variable {source : String} {removed : List Span}

def anchorsOfCut (source : String) (removed : List Span) : List (Nat × Nat) :=
  anchors (cut source removed) (kept source.utf8ByteSize removed)

theorem exists_segment_of_anchor (h : Cuttable source removed) {anchor : Nat × Nat}
    (ha : anchor ∈ anchorsOfCut source removed) :
    ∃ segment ∈ kept source.utf8ByteSize removed, segment.Exact source.utf8ByteSize removed ∧
      anchor ∈ Segment.anchors (cut source removed) segment := by
  obtain ⟨segment, hsegment, ha⟩ := List.mem_flatMap.mp ha
  exact ⟨segment, hsegment, ((exhaust_kept h).exact segment hsegment).1, ha⟩

theorem anchor_spec (h : Cuttable source removed) {anchor : Nat × Nat}
    (ha : anchor ∈ anchorsOfCut source removed) :
    anchor.2 < source.utf8ByteSize ∧ Span.covers removed anchor.2 = false ∧
      anchor.1 = rank removed anchor.2 ∧ isBoundary source anchor.2 = true := by
  obtain ⟨segment, -, hs, ha⟩ := exists_segment_of_anchor h ha
  obtain ⟨hle, hlt, hrank, hboundary⟩ := hs.of_anchor h ha
  have hsize := hs.le_size
  exact ⟨by omega, hs.kept _ hle hlt, hrank, hboundary⟩

theorem pairwise_anchorsOfCut (h : Cuttable source removed) :
    (anchorsOfCut source removed).Pairwise fun a b => a.1 < b.1 := by
  unfold anchorsOfCut anchors
  have hexhaust := exhaust_kept h
  refine List.pairwise_flatMap.mpr ⟨fun segment _ => pairwise_anchors _ segment, ?_⟩
  refine hexhaust.apart.imp_of_mem fun {s t} hs ht hst a ha b hb => ?_
  have hsexact := (hexhaust.exact s hs).1
  have haspec := hsexact.of_anchor h ha
  have hbspec := (hexhaust.exact t ht).1.of_anchor h hb
  rw [haspec.2.2.1, hbspec.2.2.1]
  exact rank_lt (by omega) (hsexact.kept _ haspec.1 haspec.2.1)

/-- Every kept offset has a last anchor before it, and all between the two is kept. -/
theorem exists_last_anchor (h : Cuttable source removed) {i : Nat} (hi : i < source.utf8ByteSize)
    (hkept : Span.covers removed i = false) :
    ∃ anchor ∈ anchorsOfCut source removed, ∃ segment ∈ kept source.utf8ByteSize removed,
      segment.Exact source.utf8ByteSize removed ∧
      segment.original ≤ anchor.2 ∧ anchor.2 ≤ i ∧ i < segment.original + segment.length ∧
      ∀ b ∈ anchorsOfCut source removed, b.1 ≤ rank removed i → b.1 ≤ anchor.1 := by
  obtain ⟨segment, hsegment, hstart, hstop⟩ := (exhaust_kept h).holds i (Nat.zero_le i) hi hkept
  have hs := ((exhaust_kept h).exact segment hsegment).1
  have hfirst : (segment.generated, segment.original) ∈ anchorsOfCut source removed :=
    List.mem_flatMap.mpr ⟨segment, hsegment, mem_anchors.mpr (Or.inl rfl)⟩
  have hfirstle : segment.generated ≤ rank removed i := by
    rw [hs.generated_eq]
    exact rank_mono removed hstart
  let P := fun g => ∃ anchor ∈ anchorsOfCut source removed, anchor.1 = g
  have hgreatest : ∀ b ∈ anchorsOfCut source removed, b.1 ≤ rank removed i →
      b.1 ≤ Nat.findGreatest P (rank removed i) :=
    fun b hb hle => Nat.le_findGreatest hle ⟨b, hb, rfl⟩
  obtain ⟨anchor, ha, heq⟩ := Nat.findGreatest_spec (P := P) hfirstle ⟨_, hfirst, rfl⟩
  have hle : anchor.1 ≤ rank removed i := heq ▸ Nat.findGreatest_le (rank removed i)
  have hge : segment.generated ≤ anchor.1 := heq ▸ hgreatest _ hfirst hfirstle
  obtain ⟨-, hakept, harank, -⟩ := anchor_spec h ha
  refine ⟨anchor, ha, segment, hsegment, hs, ?_, ?_, hstop, fun b hb hb' => ?_⟩
  · by_contra hlt
    have := rank_lt (Nat.lt_of_not_le hlt) hakept
    rw [← harank, ← hs.generated_eq] at this
    omega
  · by_contra hlt
    have := rank_lt (Nat.lt_of_not_le hlt) hkept
    rw [← harank] at this
    omega
  · rw [heq]
    exact hgreatest b hb hb'

/-- A line feed that starts a segment behind a carriage return was put there by the cut. -/
theorem joinsLineEnd_of_segment (h : Cuttable source removed) {segment : Segment}
    (hs : segment.Exact source.utf8ByteSize removed)
    (horigin : (origins source removed)[segment.generated]? = some segment.original)
    (hpos : 0 < segment.generated)
    (hreturn : byte? (cut source removed) (segment.generated - 1) = some 0x0D)
    (hnewline : byte? source segment.original = some 0x0A) : JoinsLineEnd source removed := by
  have hlt := (List.getElem?_eq_some_iff.mp horigin).1
  have hp := List.getElem?_eq_getElem (l := origins source removed)
    (i := segment.generated - 1) (by omega)
  generalize (origins source removed)[segment.generated - 1] = p at hp
  refine ⟨segment.generated - 1, p, segment.original, hp, ?_, ?_, ?_, hnewline⟩
  · rw [Nat.sub_add_cancel hpos]
    exact horigin
  · intro heq
    have hcovers := hs.first p (by omega)
    rw [(kept_of_origins hp).2] at hcovers
    exact absurd hcovers (by simp)
  · rw [← byte?_cut h hp]
    exact hreturn

/-- No line ends between a kept offset and the last anchor before it, except that the offset may hold
the line feed of a pair. -/
theorem no_line_end_after_anchor (h : Cuttable source removed)
    (hjoin : ¬ JoinsLineEnd source removed) {segment : Segment}
    (hmem : segment ∈ kept source.utf8ByteSize removed)
    (hs : segment.Exact source.utf8ByteSize removed) {anchor : Nat × Nat}
    (ha : anchor.1 = rank removed anchor.2) {i : Nat}
    (hstart : segment.original ≤ anchor.2) (hstop : i < segment.original + segment.length)
    (hlast : ∀ b ∈ anchorsOfCut source removed, b.1 ≤ rank removed i → b.1 ≤ anchor.1)
    (hpair : ∀ k, k + 1 = rank removed i → byte? (cut source removed) k = some 0x0D →
      byte? (cut source removed) (k + 1) ≠ some 0x0A) {j : Nat} (hj : anchor.2 ≤ j) (hji : j < i) :
    (byte? source j).any isLineBreak = false := by
  have hsize := hs.le_size
  have hrank : ∀ k, segment.original ≤ k → k ≤ segment.original + segment.length →
      rank removed k = segment.generated + (k - segment.original) := by
    intro k hk hk'
    rw [← hs.rank_add (by omega), Nat.add_sub_cancel' hk]
  have hjrank := hrank j (by omega) (by omega)
  have hirank := hrank i (by omega) (by omega)
  have harank := hrank anchor.2 hstart (by omega)
  have hcode : segment.generated + segment.length ≤ (cut source removed).utf8ByteSize := by
    rw [size_cut h, ← hs.rank_add (Nat.le_refl _)]
    exact rank_mono removed hsize
  -- A line that ended before the offset would have an anchor behind the last one.
  have hnone : ∀ k, anchor.1 ≤ k → k + 1 ≤ rank removed i →
      endsLineAt (cut source removed) segment.generated k = false := by
    intro k hk hki
    refine Bool.eq_false_iff.mpr fun hends => ?_
    have hlater := hlast (k + 1, segment.original + (k + 1 - segment.generated))
      (List.mem_flatMap.mpr ⟨segment, hmem, mem_anchors.mpr
        (Or.inr ⟨k, by omega, by omega, hends, rfl⟩)⟩) hki
    dsimp only at hlater
    omega
  have hhere := hnone (rank removed j) (by omega) (by omega)
  by_contra hbreak
  rw [Bool.not_eq_false] at hbreak
  obtain ⟨b, hb, hb'⟩ := (Option.any_eq_true _ _).mp hbreak
  have hjorigin : (origins source removed)[rank removed j]? = some j :=
    origins_rank (by omega) (hs.kept j (by omega) (by omega))
  have hcodeb := byte?_cut h hjorigin
  rw [hb] at hcodeb
  simp only [isLineBreak, Bool.or_eq_true, beq_iff_eq] at hb'
  rcases hb' with rfl | rfl
  · -- The cut put the line feed at the start of the segment behind a carriage return.
    rw [endsLineAt, hcodeb] at hhere
    simp only [Bool.not_eq_false', Bool.and_eq_true, beq_iff_eq, decide_eq_true_eq] at hhere
    obtain ⟨⟨hfirst, hpos⟩, hreturn⟩ := hhere
    have hjfirst : j = segment.original := by omega
    rw [hfirst, hjfirst] at hjorigin
    rw [hfirst] at hpos hreturn
    rw [hjfirst] at hb
    exact hjoin (joinsLineEnd_of_segment h hs hjorigin hpos hreturn hb)
  · -- The line ends with the line feed behind the carriage return.
    rw [endsLineAt, hcodeb] at hhere
    simp only [bne_eq_false_iff_eq] at hhere
    by_cases hlastbyte : rank removed j + 1 = rank removed i
    · exact hpair _ hlastbyte hcodeb hhere
    · have hnext := hnone (rank removed j + 1) (by omega) (by omega)
      rw [endsLineAt, hhere] at hnext
      simp only [Bool.not_eq_false', Bool.and_eq_true, beq_iff_eq] at hnext
      omega

end

end SourceMap

end JsPrune
