import JsPrune.Proofs.SourceMap.Anchors
/-!
# Segments and what the cut copies

The text that a cut leaves and its segments come from two walks over the same spans.  The segments
are the maximal runs of kept offsets, whether or not the spans were brought into canonical form
before; and put together they are the text that the cut leaves, so that from an anchor on source and
output agree to the end of its segment.
-/

namespace JsPrune

open String (utf8Len)
open Text

namespace Segment

/-! ## Maximal runs -/

/-- All offsets from `start` up to `stop` are kept, and there is none beside them. -/
structure MaximalRun (size : Nat) (removed : List Span) (start stop : Nat) : Prop where
  lt : start < stop
  le_size : stop ≤ size
  kept : ∀ i, start ≤ i → i < stop → Span.covers removed i = false
  before : ∀ i, i + 1 = start → Span.covers removed i = true
  behind : stop < size → Span.covers removed stop = true

def totalLength (segments : List Segment) : Nat := (segments.map length).foldr (· + ·) 0

section

variable {size : Nat} {removed : List Span}

theorem MaximalRun.contains_of_meet {start stop start' stop' i : Nat}
    (h : MaximalRun size removed start stop) (h' : MaximalRun size removed start' stop')
    (hi : start ≤ i ∧ i < stop) (hi' : start' ≤ i ∧ i < stop') : start ≤ start' ∧ stop' ≤ stop := by
  constructor
  · by_contra hlt
    have hgone := h.before (start - 1) (by omega)
    rw [h'.kept (start - 1) (by omega) (by omega)] at hgone
    exact absurd hgone (by simp)
  · by_contra hlt
    have hsize := h'.le_size
    have hgone := h.behind (by omega)
    rw [h'.kept stop (by omega) (by omega)] at hgone
    exact absurd hgone (by simp)

theorem MaximalRun.eq_of_meet {start stop start' stop' i : Nat}
    (h : MaximalRun size removed start stop) (h' : MaximalRun size removed start' stop')
    (hi : start ≤ i ∧ i < stop) (hi' : start' ≤ i ∧ i < stop') : start = start' ∧ stop = stop' := by
  have hout := h.contains_of_meet h' hi hi'
  have hin := h'.contains_of_meet h hi' hi
  omega

variable {segments : List Segment}

theorem Exhaust.eq_or_apart {cursor : Nat} (h : Exhaust size removed cursor segments)
    {s t : Segment} (hs : s ∈ segments) (ht : t ∈ segments) :
    s = t ∨ s.original + s.length ≤ t.original ∨ t.original + t.length ≤ s.original := by
  obtain ⟨i, hi, rfl⟩ := List.mem_iff_getElem.mp hs
  obtain ⟨j, hj, rfl⟩ := List.mem_iff_getElem.mp ht
  have hapart := List.pairwise_iff_getElem.mp h.apart
  rcases Nat.lt_trichotomy i j with hlt | rfl | hgt
  · exact Or.inr (Or.inl (hapart i j hi hj hlt))
  · exact Or.inl rfl
  · exact Or.inr (Or.inr (hapart j i hj hi hgt))

theorem Exhaust.maximalRun (h : Exhaust size removed 0 segments) {s : Segment}
    (hs : s ∈ segments) : MaximalRun size removed s.original (s.original + s.length) := by
  have hexact := (h.exact s hs).1
  have hpos := hexact.pos
  refine ⟨by omega, hexact.le_size, hexact.kept, hexact.first, fun hlt => ?_⟩
  by_contra hkept
  obtain ⟨t, ht, hstart, hstop⟩ := h.holds _ (Nat.zero_le _) hlt (Bool.not_eq_true _ ▸ hkept)
  rcases h.eq_or_apart hs ht with rfl | hst | hts
  · omega
  · -- What follows would start right where the segment stops.
    have hfirst := (h.exact t ht).1.first (t.original - 1) (by omega)
    rw [hexact.kept _ (by omega) (by omega)] at hfirst
    exact absurd hfirst (by simp)
  · omega

/-- Such a list has a segment for each maximal run, and no other. -/
theorem Exhaust.mem_iff (h : Exhaust size removed 0 segments) {s : Segment} :
    s ∈ segments ↔ MaximalRun size removed s.original (s.original + s.length) ∧
      s.generated = rank removed s.original := by
  constructor
  · intro hs
    exact ⟨h.maximalRun hs, (h.exact s hs).1.generated_eq⟩
  · rintro ⟨hrun, hgenerated⟩
    have hlt := hrun.lt
    obtain ⟨t, ht, hstart, hstop⟩ := h.holds s.original (Nat.zero_le _)
      (Nat.lt_of_lt_of_le hlt hrun.le_size) (hrun.kept _ (Nat.le_refl _) hlt)
    obtain ⟨horiginal, hend⟩ := (h.maximalRun ht).eq_of_meet hrun ⟨hstart, hstop⟩
      ⟨Nat.le_refl _, hlt⟩
    have hgenerated' := (h.exact t ht).1.generated_eq
    rw [horiginal, ← hgenerated] at hgenerated'
    have heq : t = s := by
      cases t
      cases s
      rw [mk.injEq]
      dsimp only at horiginal hend hgenerated'
      omega
    rw [← heq]
    exact ht

theorem Exhaust.ascending {cursor : Nat} (h : Exhaust size removed cursor segments) :
    segments.Pairwise fun s t => s.original + s.length < t.original := by
  apply h.apart.imp_of_mem
  intro s t hs ht hst
  apply Nat.lt_of_le_of_ne hst
  intro htouch
  have hexact := (h.exact s hs).1
  have hpos := hexact.pos
  have hfirst := (h.exact t ht).1.first (t.original - 1) (by omega)
  rw [hexact.kept _ (by omega) (by omega)] at hfirst
  exact absurd hfirst (by simp)

/-- There is only one list of segments that holds all kept offsets. -/
theorem Exhaust.ext {segments' : List Segment} (h : Exhaust size removed 0 segments)
    (h' : Exhaust size removed 0 segments') : segments = segments' := by
  have hnodup : ∀ {list : List Segment}, Exhaust size removed 0 list → list.Nodup := by
    intro list hlist
    apply hlist.ascending.imp
    rintro s t hst rfl
    omega
  have hperm := (List.perm_ext_iff_of_nodup (hnodup h) (hnodup h')).mpr fun s => by
    rw [h.mem_iff, h'.mem_iff]
  apply hperm.eq_of_pairwise _ h.ascending h'.ascending
  intro s t _ _ hst hts
  omega

/-! ## Spans that overlap -/

theorem exhaust_of_sorted (hsorted : removed.Pairwise fun r s => r.start ≤ s.start)
    (hvalid : ∀ r ∈ removed, r.start < r.stop ∧ r.stop ≤ size) :
    Exhaust size removed 0 (kept size removed) :=
  exhaust_keptFrom (fun _ _ => rfl) hsorted hvalid fun i hi => by omega

theorem exhaust_union (hvalid : ∀ r ∈ removed, r.start < r.stop ∧ r.stop ≤ size) :
    Exhaust size removed 0 (kept size (Span.union removed)) := by
  have hcanonical := Span.canonical_union removed
  refine exhaust_keptFrom (fun i _ => (Span.covers_union removed i).symm) hcanonical.sorted ?_
    fun i hi => by omega
  intro r hr
  obtain ⟨s, hs, -, hstop⟩ := Span.stop_of_mem_union hr
  exact ⟨hcanonical.nonempty r hr, hstop ▸ (hvalid s hs).2⟩

end

theorem generated_of_keptFrom {size cursor generated : Nat} {removed : List Span}
    {before behind : List Segment} {s : Segment}
    (h : keptFrom size cursor generated removed = before ++ s :: behind) :
    s.generated = generated + totalLength before := by
  induction removed generalizing cursor generated before with
  | nil =>
      rw [keptFrom] at h
      split at h
      · have hlength := congrArg List.length h
        rw [List.length_singleton, List.length_append, List.length_cons] at hlength
        obtain rfl : before = [] := List.eq_nil_of_length_eq_zero (by omega)
        rw [← (List.cons.inj h).1]
        rfl
      · exact absurd h (by simp)
  | cons r removed ih =>
      rw [keptFrom] at h
      split at h
      · cases before with
        | nil =>
            rw [← (List.cons.inj h).1]
            rfl
        | cons t before =>
            obtain ⟨rfl, hrest⟩ := List.cons.inj h
            rw [ih hrest]
            exact Nat.add_assoc ..
      · exact ih h

end Segment

/-! ## Segments as parts of the text -/

/-- Spans between characters of a text, each of which starts no sooner than the one before it
stops. -/
structure Text.Ascending (source : String) (removed : List Span) : Prop where
  apart : removed.Pairwise fun r s => r.stop ≤ s.start
  ordered : ∀ r ∈ removed, r.start ≤ r.stop
  boundary : ∀ r ∈ removed, isBoundary source r.start = true ∧ isBoundary source r.stop = true

namespace Text

theorem Ascending.tail {source : String} {r : Span} {removed : List Span}
    (h : Ascending source (r :: removed)) : Ascending source removed :=
  ⟨h.apart.of_cons, fun s hs => h.ordered s (List.mem_cons_of_mem _ hs),
    fun s hs => h.boundary s (List.mem_cons_of_mem _ hs)⟩

theorem Ascending.stop_le {source : String} {r s : Span} {removed : List Span}
    (h : Ascending source (r :: removed)) (hs : s ∈ removed) : r.stop ≤ s.start :=
  (List.pairwise_cons.mp h.apart).1 s hs

theorem exists_slice {s : String} {start stop : Nat} (hstart : isBoundary s start = true)
    (hstop : isBoundary s stop = true) (hle : start ≤ stop) :
    ∃ before part after, s.toList = before ++ part ++ after ∧ utf8Len before = start ∧
      start + utf8Len part = stop ∧ slice s start stop = String.ofList part := by
  obtain ⟨before, rest, hs, rfl⟩ := isBoundary_iff.mp hstart
  obtain ⟨part, after, rfl, rfl⟩ := exists_split hs hstop hle
  rw [← List.append_assoc] at hs
  exact ⟨before, part, after, hs, rfl, rfl, slice_eq hs⟩

theorem slice_self {s : String} {i : Nat} (hi : isBoundary s i = true) : slice s i i = "" := by
  obtain ⟨before, part, after, -, -, hlen, hslice⟩ := exists_slice hi hi (Nat.le_refl i)
  obtain rfl : part = [] := String.utf8Len_eq_zero.mp (by omega)
  exact hslice

end Text

namespace Segment

def text (source : String) (segment : Segment) : String :=
  slice source segment.original (segment.original + segment.length)

/-- The characters of a segment stand in the source and in the output where the segment says. -/
def Copied (source output : String) (segment : Segment) : Prop :=
  ∃ before part after front rest, source.toList = before ++ part ++ after ∧
    output.toList = front ++ part ++ rest ∧ utf8Len before = segment.original ∧
    utf8Len front = segment.generated ∧ utf8Len part = segment.length

section

variable {source : String} {removed : List Span}

theorem keptFrom_cons {r : Span} {cursor generated : Nat} (hstart : cursor ≤ r.start)
    (hstop : r.start ≤ r.stop) :
    keptFrom source.utf8ByteSize cursor generated (r :: removed) =
      (if cursor < r.start then [⟨cursor, generated, r.start - cursor⟩] else []) ++
        keptFrom source.utf8ByteSize r.stop (generated + (r.start - cursor)) removed := by
  rw [keptFrom, Nat.max_eq_right (Nat.le_trans hstart hstop)]
  split
  · rfl
  · rw [Nat.sub_eq_zero_of_le (by omega)]
    rfl

theorem join_text_keptFrom {cursor : Nat} (generated : Nat)
    (hcursor : isBoundary source cursor = true) (h : Ascending source removed)
    (hstart : ∀ r ∈ removed, cursor ≤ r.start) :
    String.join ((keptFrom source.utf8ByteSize cursor generated removed).map (text source)) =
      cutFrom source cursor removed := by
  induction removed generalizing cursor generated with
  | nil =>
      have hle := le_size_of_isBoundary hcursor
      rw [keptFrom, cutFrom]
      split
      · rw [List.map_singleton, String.join_cons, String.join_nil, String.append_empty, text]
        dsimp only
        rw [Nat.add_sub_cancel' hle]
      · rw [show cursor = source.utf8ByteSize by omega, slice_self (isBoundary_size source)]
        rfl
  | cons r removed ih =>
      have hr := hstart r List.mem_cons_self
      have hboundary := h.boundary r List.mem_cons_self
      have hrest := ih (generated + (r.start - cursor)) hboundary.2 h.tail fun s => h.stop_le
      rw [keptFrom_cons hr (h.ordered r List.mem_cons_self), List.map_append, cutFrom, ← hrest]
      split
      · rw [List.map_singleton, List.singleton_append, String.join_cons, text]
        dsimp only
        rw [Nat.add_sub_cancel' hr]
      · rw [show cursor = r.start by omega, slice_self hboundary.1]
        simp

theorem copied_of_slice {start stop : Nat} (copied rest : String)
    (hstart : isBoundary source start = true) (hstop : isBoundary source stop = true)
    (hle : start ≤ stop) :
    Copied source (copied ++ slice source start stop ++ rest)
      ⟨start, copied.utf8ByteSize, stop - start⟩ := by
  obtain ⟨before, part, after, hs, hbefore, hpart, hslice⟩ := exists_slice hstart hstop hle
  refine ⟨before, part, after, copied.toList, rest.toList, hs, ?_, hbefore, ?_, ?_⟩
  · rw [hslice, String.toList_append, String.toList_append, String.toList_ofList]
  · exact String.utf8Len_toList copied
  · dsimp only
    omega

theorem copied_keptFrom {cursor : Nat} (copied : String) (hcursor : isBoundary source cursor = true)
    (h : Ascending source removed) (hstart : ∀ r ∈ removed, cursor ≤ r.start) {s : Segment}
    (hs : s ∈ keptFrom source.utf8ByteSize cursor copied.utf8ByteSize removed) :
    Copied source (copied ++ cutFrom source cursor removed) s := by
  induction removed generalizing cursor copied with
  | nil =>
      rw [keptFrom] at hs
      split at hs
      · have hcopied := copied_of_slice copied "" hcursor (isBoundary_size source)
          (le_size_of_isBoundary hcursor)
        rw [String.append_empty] at hcopied
        rw [List.mem_singleton.mp hs]
        exact hcopied
      · exact absurd hs (by simp)
  | cons r removed ih =>
      have hr := hstart r List.mem_cons_self
      have hboundary := h.boundary r List.mem_cons_self
      have hsize := size_slice hcursor hboundary.1 hr
      have hnext : copied.utf8ByteSize + (r.start - cursor) =
          (copied ++ slice source cursor r.start).utf8ByteSize := by
        rw [String.utf8ByteSize_append]
        omega
      rw [keptFrom_cons hr (h.ordered r List.mem_cons_self), hnext] at hs
      rw [cutFrom, ← String.append_assoc]
      rcases List.mem_append.mp hs with hhere | hlater
      · split at hhere
        · rw [List.mem_singleton.mp hhere]
          exact copied_of_slice copied _ hcursor hboundary.1 hr
        · exact absurd hhere (by simp)
      · exact ih _ hboundary.2 h.tail (fun s => h.stop_le) hlater

theorem le_of_mem_keptFrom {size cursor generated : Nat} {s : Segment}
    (hs : s ∈ keptFrom size cursor generated removed) :
    cursor ≤ s.original ∧ generated ≤ s.generated ∧ 0 < s.length := by
  induction removed generalizing cursor generated with
  | nil =>
      rw [keptFrom] at hs
      split at hs
      · rw [List.mem_singleton.mp hs]
        exact ⟨Nat.le_refl _, Nat.le_refl _, by dsimp only; omega⟩
      · exact absurd hs (by simp)
  | cons r removed ih =>
      rw [keptFrom] at hs
      split at hs
      · rcases List.mem_cons.mp hs with rfl | hs
        · exact ⟨Nat.le_refl _, Nat.le_refl _, by dsimp only; omega⟩
        · have := ih hs
          omega
      · have := ih hs
        omega

theorem pairwise_keptFrom {size cursor generated : Nat}
    (hordered : ∀ r ∈ removed, r.start ≤ r.stop) :
    (keptFrom size cursor generated removed).Pairwise fun s t =>
      s.original + s.length ≤ t.original ∧ s.generated + s.length ≤ t.generated := by
  induction removed generalizing cursor generated with
  | nil =>
      rw [keptFrom]
      split
      · exact List.pairwise_singleton _ _
      · exact List.Pairwise.nil
  | cons r removed ih =>
      have hr := hordered r List.mem_cons_self
      have hrest : ∀ cursor generated, (keptFrom size cursor generated removed).Pairwise _ :=
        fun _ _ => ih fun s hs => hordered s (List.mem_cons_of_mem _ hs)
      rw [keptFrom]
      split
      · refine List.pairwise_cons.mpr ⟨fun t ht => ?_, hrest _ _⟩
        have := le_of_mem_keptFrom ht
        dsimp only
        omega
      · exact hrest _ _

/-! ## Anchors -/

/-- From an anchor on, the output and the source are the same up to the end of a segment. -/
structure Agrees (source output : String) (segment : Segment) (anchor : Nat × Nat) : Prop where
  inside : ∃ n, n < segment.length ∧ anchor = (segment.generated + n, segment.original + n)
  output_boundary : isBoundary output anchor.1 = true
  source_boundary : isBoundary source anchor.2 = true
  slice_eq : slice output anchor.1 (segment.generated + segment.length) =
    slice source anchor.2 (segment.original + segment.length)

theorem Copied.agrees {output : String} {segment : Segment} (h : Copied source output segment)
    {n : Nat} (hn : n < segment.length)
    (hboundary : isBoundary output (segment.generated + n) = true) :
    Agrees source output segment (segment.generated + n, segment.original + n) := by
  obtain ⟨before, part, after, front, rest, hs, hout, hbefore, hfront, hpart⟩ := h
  -- The anchor splits the characters of the segment, which are the same on both sides.
  have hout' : output.toList = front ++ (part ++ rest) := by rw [hout, List.append_assoc]
  obtain ⟨first, last, hsplit, hfirst⟩ := exists_split hout' hboundary (by omega)
  obtain ⟨second, rfl, -⟩ := exists_append_of_utf8Len_le hsplit.symm (by omega)
  have hgenerated : utf8Len (front ++ first) = segment.generated + n := by
    rw [String.utf8Len_append]
    exact hfirst
  have horiginal : utf8Len (before ++ first) = segment.original + n := by
    rw [String.utf8Len_append]
    omega
  rw [String.utf8Len_append] at hpart
  have houts : output.toList = front ++ first ++ second ++ rest := by simp [hout]
  have hsources : source.toList = before ++ first ++ second ++ after := by simp [hs]
  refine ⟨⟨n, hn, rfl⟩, hboundary, ?_, ?_⟩
  · rw [← horiginal]
    rw [List.append_assoc _ second] at hsources
    exact isBoundary_utf8Len hsources
  · have hslice := slice_eq houts
    have hslice' := slice_eq hsources
    rw [hgenerated] at hslice
    rw [horiginal] at hslice'
    rw [show segment.generated + segment.length = segment.generated + n + utf8Len second by omega,
      show segment.original + segment.length = segment.original + n + utf8Len second by omega]
    exact hslice.trans hslice'.symm

theorem Copied.agrees_of_anchor {output : String} {segment : Segment}
    (h : Copied source output segment) (hpos : 0 < segment.length) {anchor : Nat × Nat}
    (ha : anchor ∈ anchors output segment) : Agrees source output segment anchor := by
  rcases mem_anchors.mp ha with rfl | ⟨i, hi, hlt, hends, rfl⟩
  · have hstart : isBoundary output (segment.generated + 0) = true := by
      obtain ⟨-, part, -, front, rest, -, hout, -, hfront, -⟩ := h
      rw [Nat.add_zero, ← hfront]
      rw [List.append_assoc] at hout
      exact isBoundary_utf8Len hout
    exact h.agrees hpos hstart
  · have hnext := isBoundary_succ_of_any (fun _ => toNat_lt_of_isLineBreak)
      (break_of_endsLineAt hends)
    obtain ⟨n, rfl⟩ := Nat.exists_eq_add_of_le hi
    have hagrees := h.agrees (n := n + 1) (by omega) hnext
    rw [show segment.generated + n + 1 - segment.generated = n + 1 by omega]
    exact hagrees

/-- Anchors ascend on both sides, within a segment and from one to the next. -/
theorem pairwise_anchors_kept (h : Ascending source removed)
    (hagrees : ∀ s ∈ kept source.utf8ByteSize removed,
      ∀ anchor ∈ anchors (cut source removed) s, Agrees source (cut source removed) s anchor) :
    (SourceMap.anchors (cut source removed) (kept source.utf8ByteSize removed)).Pairwise
      fun a b => a.1 < b.1 ∧ a.2 < b.2 := by
  unfold SourceMap.anchors
  apply List.pairwise_flatMap.mpr
  constructor
  · intro s hs
    apply (pairwise_anchors _ s).imp_of_mem
    intro a b ha hb hab
    obtain ⟨m, -, rfl⟩ := (hagrees s hs a ha).inside
    obtain ⟨n, -, rfl⟩ := (hagrees s hs b hb).inside
    dsimp only at hab ⊢
    omega
  · apply (pairwise_keptFrom h.ordered).imp_of_mem
    intro s t hs ht hst a ha b hb
    obtain ⟨m, hm, rfl⟩ := (hagrees s hs a ha).inside
    obtain ⟨n, -, rfl⟩ := (hagrees t ht b hb).inside
    dsimp only
    omega

end

/-- The segments of ascending spans, which may overlap or touch, are those of their union: the
maximal runs of kept offsets in their order, each copied to where those before it end.  Where the spans
lie apart from each other between characters, the segments put together are what the cut leaves.
From every anchor on the two agree to the end of its segment, the anchors ascend on both sides, and
every segment starts with one. -/
theorem kept_maximal_and_copied :
    (∀ (size : Nat) (removed : List Span), (∀ r ∈ removed, r.start < r.stop ∧ r.stop ≤ size) →
      removed.Pairwise (fun r s => r.start ≤ s.start) →
        kept size removed = kept size (Span.union removed) ∧
        (∀ start stop, MaximalRun size removed start stop ↔
          ∃ s ∈ kept size removed, s.original = start ∧ s.original + s.length = stop) ∧
        (kept size removed).Pairwise (fun s t => s.original + s.length < t.original) ∧
        ∀ before s behind, kept size removed = before ++ s :: behind →
          s.generated = totalLength before) ∧
    ∀ (source : String) (removed : List Span), Ascending source removed →
      String.join ((kept source.utf8ByteSize removed).map (text source)) = cut source removed ∧
      (∀ anchor ∈ SourceMap.anchors (cut source removed) (kept source.utf8ByteSize removed),
        ∃ s ∈ kept source.utf8ByteSize removed, Agrees source (cut source removed) s anchor) ∧
      (SourceMap.anchors (cut source removed) (kept source.utf8ByteSize removed)).Pairwise
        (fun a b => a.1 < b.1 ∧ a.2 < b.2) ∧
      ∀ s ∈ kept source.utf8ByteSize removed,
        (s.generated, s.original) ∈
          SourceMap.anchors (cut source removed) (kept source.utf8ByteSize removed) := by
  constructor
  · intro size removed hvalid hsorted
    have hexhaust := exhaust_of_sorted hsorted hvalid
    refine ⟨hexhaust.ext (exhaust_union hvalid), fun start stop => ⟨fun hrun => ?_, ?_⟩,
      hexhaust.ascending, fun before s behind hsplit => ?_⟩
    · have hlt := hrun.lt
      have hstop : start + (stop - start) = stop := Nat.add_sub_cancel' (Nat.le_of_lt hlt)
      have hmem : ⟨start, rank removed start, stop - start⟩ ∈ kept size removed :=
        hexhaust.mem_iff.mpr ⟨by rw [hstop]; exact hrun, rfl⟩
      exact ⟨_, hmem, rfl, hstop⟩
    · rintro ⟨s, hs, rfl, rfl⟩
      exact hexhaust.maximalRun hs
    · rw [generated_of_keptFrom hsplit, Nat.zero_add]
  · intro source removed h
    have hzero := isBoundary_zero source
    have hagrees : ∀ s ∈ kept source.utf8ByteSize removed,
        ∀ anchor ∈ anchors (cut source removed) s,
          Agrees source (cut source removed) s anchor := by
      intro s hs anchor hanchor
      have hcopied := copied_keptFrom "" hzero h (fun _ _ => Nat.zero_le _) hs
      rw [String.empty_append] at hcopied
      exact hcopied.agrees_of_anchor (le_of_mem_keptFrom hs).2.2 hanchor
    refine ⟨join_text_keptFrom 0 hzero h fun _ _ => Nat.zero_le _, fun anchor hanchor => ?_,
      pairwise_anchors_kept h hagrees, fun s hs => ?_⟩
    · obtain ⟨s, hs, hanchor⟩ := List.mem_flatMap.mp hanchor
      exact ⟨s, hs, hagrees s hs anchor hanchor⟩
    · exact List.mem_flatMap.mpr ⟨s, hs, mem_anchors.mpr (Or.inl rfl)⟩

theorem kept_maximal_and_copied_overlapping :
    kept 9 [⟨0, 2⟩, ⟨1, 4⟩, ⟨4, 5⟩, ⟨7, 9⟩] = kept 9 [⟨0, 5⟩, ⟨7, 9⟩] ∧
      String.join ((kept 9 [⟨0, 2⟩, ⟨2, 3⟩, ⟨7, 8⟩]).map (text "a;\rあ\n;b")) = "あ\nb" := by
  have hunion := (kept_maximal_and_copied.1 9 [⟨0, 2⟩, ⟨1, 4⟩, ⟨4, 5⟩, ⟨7, 9⟩]
    (by decide) (by decide)).1
  have hjoin := (kept_maximal_and_copied.2 "a;\rあ\n;b" [⟨0, 2⟩, ⟨2, 3⟩, ⟨7, 8⟩]
    ⟨by decide, by decide, by decide⟩).1
  exact ⟨hunion, hjoin⟩

end Segment

end JsPrune
