import JsPrune.Proofs.Cut
/-!
# Segments of a cut

The segments of a cut are the maximal runs of offsets that are kept, in ascending order, and each
starts in the output where its first byte is copied to: behind as many bytes as are kept before it.
-/

namespace JsPrune.Segment

open Text

/-- The number of offsets before `i` that are kept. -/
def rank (removed : List Span) (i : Nat) : Nat :=
  ((List.range i).filter fun k => !Span.covers removed k).length

/-- A segment is a maximal run of kept offsets, with its place in the output. -/
structure Exact (size : Nat) (removed : List Span) (segment : Segment) : Prop where
  pos : 0 < segment.length
  le_size : segment.original + segment.length ≤ size
  kept : ∀ i, segment.original ≤ i → i < segment.original + segment.length →
    Span.covers removed i = false
  first : ∀ i, i + 1 = segment.original → Span.covers removed i = true
  generated_eq : segment.generated = rank removed segment.original

/-! ## Ranks -/

theorem rank_succ (removed : List Span) (i : Nat) :
    rank removed (i + 1) = rank removed i + (!Span.covers removed i).toNat := by
  unfold rank
  rw [List.range_succ, List.filter_append, List.length_append]
  cases hi : Span.covers removed i <;> simp [hi]

theorem rank_add_of_kept {removed : List Span} (i n : Nat)
    (h : ∀ k, i ≤ k → k < i + n → Span.covers removed k = false) :
    rank removed (i + n) = rank removed i + n := by
  induction n with
  | zero => rfl
  | succ n ih =>
      rw [← Nat.add_assoc, rank_succ, h (i + n) (by omega) (by omega),
        ih fun k hk hlt => h k hk (by omega)]
      rfl

theorem rank_add_of_removed {removed : List Span} (i n : Nat)
    (h : ∀ k, i ≤ k → k < i + n → Span.covers removed k = true) :
    rank removed (i + n) = rank removed i := by
  induction n with
  | zero => rfl
  | succ n ih =>
      rw [← Nat.add_assoc, rank_succ, h (i + n) (by omega) (by omega),
        ih fun k hk hlt => h k hk (by omega)]
      rfl

theorem rank_stop {removed : List Span} {cursor start stop : Nat} (hstart : cursor ≤ start)
    (hstop : start ≤ stop)
    (hkept : ∀ i, cursor ≤ i → i < start → Span.covers removed i = false)
    (hgone : ∀ i, start ≤ i → i < stop → Span.covers removed i = true) :
    rank removed stop = rank removed cursor + (start - cursor) := by
  calc rank removed stop
      = rank removed (start + (stop - start)) := by
        rw [Nat.add_sub_cancel' hstop]
    _ = rank removed start := by
        apply rank_add_of_removed
        intro i hi hlt
        exact hgone i hi (by omega)
    _ = rank removed (cursor + (start - cursor)) := by
        rw [Nat.add_sub_cancel' hstart]
    _ = rank removed cursor + (start - cursor) := by
        apply rank_add_of_kept
        intro i hi hlt
        exact hkept i hi (by omega)

theorem rank_mono (removed : List Span) {i j : Nat} (hij : i ≤ j) :
    rank removed i ≤ rank removed j := by
  induction j with
  | zero => rw [Nat.le_zero.mp hij]
  | succ j ih =>
      rcases Nat.lt_succ_iff_lt_or_eq.mp (Nat.lt_succ_of_le hij) with hlt | rfl
      · have := ih (by omega)
        rw [rank_succ]
        omega
      · exact Nat.le_refl _

theorem rank_lt {removed : List Span} {i j : Nat} (hij : i < j)
    (hi : Span.covers removed i = false) : rank removed i < rank removed j := by
  have hstep := rank_mono removed (Nat.succ_le_of_lt hij)
  rw [rank_succ, hi] at hstep
  exact hstep

theorem origins_rank {source : String} {removed : List Span} {i : Nat}
    (hi : i < source.utf8ByteSize) (hkept : Span.covers removed i = false) :
    (origins source removed)[rank removed i]? = some i := by
  obtain ⟨n, hn⟩ := Nat.exists_eq_add_of_lt hi
  have hrange : List.range source.utf8ByteSize = List.range i ++ i :: List.range' (i + 1) n := by
    rw [hn, Nat.add_assoc, List.range_eq_range', ← List.range'_append_1, ← List.range_eq_range',
      Nat.zero_add, List.range'_succ]
  rw [origins, hrange, List.filter_append, List.filter_cons_of_pos (by rw [hkept]; rfl), rank,
    List.getElem?_append_right (Nat.le_refl _), Nat.sub_self]
  rfl

theorem rank_lt_iff {removed : List Span} {i j : Nat} (hi : Span.covers removed i = false) :
    rank removed i < rank removed j ↔ i < j := by
  constructor
  · intro hlt
    by_contra hle
    have := rank_mono removed (Nat.le_of_not_lt hle)
    omega
  · exact fun hij => rank_lt hij hi

theorem rank_eq_iff {removed : List Span} {i j : Nat} (hij : i ≤ j)
    (hi : i < j → Span.covers removed i = false) : rank removed i = rank removed j ↔ i = j := by
  constructor
  · intro heq
    by_contra hne
    have := rank_lt (show i < j by omega) (hi (by omega))
    omega
  · rintro rfl
    rfl

theorem rank_of_origins {source : String} {removed : List Span} {k i : Nat}
    (hk : (origins source removed)[k]? = some i) : rank removed i = k := by
  obtain ⟨hi, hkept⟩ := kept_of_origins hk
  have hrank := origins_rank hi hkept
  rcases Nat.lt_trichotomy (rank removed i) k with hlt | heq | hgt
  · exact absurd (origins_lt hrank hk hlt) (Nat.lt_irrefl i)
  · exact heq
  · exact absurd (origins_lt hk hrank hgt) (Nat.lt_irrefl i)

theorem map_rank_origins (source : String) (removed : List Span) :
    (origins source removed).map (rank removed) = List.range (origins source removed).length := by
  apply List.ext_getElem
  · simp
  · intro k hk hk'
    rw [List.length_range] at hk'
    rw [List.getElem_map, List.getElem_range]
    exact rank_of_origins (List.getElem?_eq_getElem hk')

/-! ## The segments -/

theorem Exact.rank_add {size : Nat} {removed : List Span} {segment : Segment}
    (h : segment.Exact size removed) {n : Nat} (hn : n ≤ segment.length) :
    rank removed (segment.original + n) = segment.generated + n := by
  rw [rank_add_of_kept segment.original n fun i hi hlt => h.kept i hi (by omega), h.generated_eq]

/-- Segments in ascending order that hold every kept offset from a cursor on. -/
structure Exhaust (size : Nat) (removed : List Span) (cursor : Nat) (segments : List Segment) :
    Prop where
  exact : ∀ segment ∈ segments, segment.Exact size removed ∧ cursor ≤ segment.original
  apart : segments.Pairwise fun s t => s.original + s.length ≤ t.original
  holds : ∀ i, cursor ≤ i → i < size → Span.covers removed i = false →
    ∃ segment ∈ segments, segment.original ≤ i ∧ i < segment.original + segment.length

/-- One more segment, up to the next removed span. -/
theorem Exhaust.cons {size cursor stop next : Nat} {removed : List Span} {segments : List Segment}
    (h : Exhaust size removed next segments) (hlt : cursor < stop) (hle : stop ≤ next)
    (hsize : stop ≤ size) (hkept : ∀ i, cursor ≤ i → i < stop → Span.covers removed i = false)
    (hgone : ∀ i, stop ≤ i → i < next → Span.covers removed i = true)
    (hfirst : ∀ i, i + 1 = cursor → Span.covers removed i = true) :
    Exhaust size removed cursor (⟨cursor, rank removed cursor, stop - cursor⟩ :: segments) := by
  refine ⟨fun segment hsegment => ?_, List.pairwise_cons.mpr ⟨fun t ht => ?_, h.apart⟩,
    fun i hi hisize hikept => ?_⟩
  · rcases List.mem_cons.mp hsegment with rfl | hsegment
    · refine ⟨⟨?_, ?_, fun i hi hlt => hkept i hi ?_, hfirst, rfl⟩, Nat.le_refl _⟩ <;>
        dsimp only at * <;> omega
    · have hexact := h.exact segment hsegment
      exact ⟨hexact.1, by omega⟩
  · have := (h.exact t ht).2
    dsimp only
    omega
  · rcases Nat.lt_or_ge i stop with hin | hbehind
    · exact ⟨_, List.mem_cons_self, hi, by dsimp only; omega⟩
    · have hnext : next ≤ i := by
        by_contra hbefore
        rw [hgone i hbehind (by omega)] at hikept
        exact absurd hikept (by simp)
      obtain ⟨segment, hsegment, hin⟩ := h.holds i hnext hisize hikept
      exact ⟨segment, List.mem_cons_of_mem _ hsegment, hin⟩

theorem Exhaust.skip {size cursor next : Nat} {removed : List Span} {segments : List Segment}
    (h : Exhaust size removed next segments) (hle : cursor ≤ next)
    (hgone : ∀ i, cursor ≤ i → i < next → Span.covers removed i = true) :
    Exhaust size removed cursor segments := by
  refine ⟨fun segment hsegment => ?_, h.apart, fun i hi hisize hikept => ?_⟩
  · have hexact := h.exact segment hsegment
    exact ⟨hexact.1, by omega⟩
  · refine h.holds i ?_ hisize hikept
    by_contra hbefore
    rw [hgone i hi (by omega)] at hikept
    exact absurd hikept (by simp)

/-- The segments from a cursor on, where the spans that stop behind the cursor are left.  The spans
ascend by where they start, and may overlap. -/
theorem exhaust_keptFrom {size : Nat} {removed rest : List Span} {cursor : Nat}
    (hrest : ∀ i, cursor ≤ i → Span.covers removed i = Span.covers rest i)
    (hsorted : rest.Pairwise fun r s => r.start ≤ s.start)
    (hvalid : ∀ r ∈ rest, r.start < r.stop ∧ r.stop ≤ size)
    (hfirst : ∀ i, i + 1 = cursor → Span.covers removed i = true) :
    Exhaust size removed cursor (keptFrom size cursor (rank removed cursor) rest) := by
  induction rest generalizing cursor with
  | nil =>
      have hkept : ∀ i, cursor ≤ i → Span.covers removed i = false := hrest
      have hnil : Exhaust size removed size [] := by
        refine ⟨by simp, List.Pairwise.nil, fun i hi hlt => ?_⟩
        omega
      rw [keptFrom]
      split
      · rename_i hlt
        exact hnil.cons hlt (Nat.le_refl _) (Nat.le_refl _) (fun i hi _ => hkept i hi)
          (fun i hi hlt => by omega) hfirst
      · refine ⟨by simp, List.Pairwise.nil, fun i hi hlt => ?_⟩
        omega
  | cons r rest ih =>
      obtain ⟨hne, hsize⟩ := hvalid r List.mem_cons_self
      obtain ⟨hhead, htail⟩ := List.pairwise_cons.mp hsorted
      have hkept : ∀ i, cursor ≤ i → i < r.start → Span.covers removed i = false := by
        intro i hi hlt
        rw [hrest i hi, Span.covers_eq_false_iff]
        intro s hs
        rcases List.mem_cons.mp hs with rfl | hs
        · exact Or.inl hlt
        · exact Or.inl (Nat.lt_of_lt_of_le hlt (hhead s hs))
      have hgone : ∀ i, r.start ≤ i → cursor ≤ i → i < max cursor r.stop →
          Span.covers removed i = true := by
        intro i hstart hi hlt
        rw [hrest i hi]
        exact Span.covers_of_mem List.mem_cons_self hstart (by omega)
      have hbehind : ∀ i, max cursor r.stop ≤ i →
          Span.covers removed i = Span.covers rest i := by
        intro i hi
        rw [hrest i (by omega), Span.covers_cons, decide_eq_false (p := i < r.stop) (by omega),
          Bool.and_false, Bool.false_or]
      have hlast : ∀ i, i + 1 = max cursor r.stop → Span.covers removed i = true := by
        intro i hi
        by_cases hcursor : i + 1 = cursor
        · exact hfirst i hcursor
        · exact hgone i (by omega) (by omega) (by omega)
      have hnext := ih hbehind htail (fun s hs => hvalid s (List.mem_cons_of_mem _ hs)) hlast
      rw [keptFrom]
      split
      · rename_i hlt
        have hrank : rank removed (max cursor r.stop) = rank removed cursor + (r.start - cursor) :=
          rank_stop (Nat.le_of_lt hlt) (by omega) hkept fun i hi => hgone i hi (by omega)
        rw [← hrank]
        exact hnext.cons hlt (by omega) (by omega) hkept (fun i hi => hgone i hi (by omega)) hfirst
      · rename_i hge
        have hskip : ∀ i, cursor ≤ i → i < max cursor r.stop → Span.covers removed i = true :=
          fun i hi => hgone i (by omega) hi
        have hrank : rank removed (max cursor r.stop) = rank removed cursor := by
          rw [rank_stop (Nat.le_refl cursor) (Nat.le_max_left ..) (fun i hi hlt => by omega) hskip]
          omega
        rw [← hrank]
        exact hnext.skip (Nat.le_max_left ..) hskip

/-- The segments of a cut are exact, ascend, and hold all that is kept. -/
theorem exhaust_kept {source : String} {removed : List Span} (h : Cuttable source removed) :
    Exhaust source.utf8ByteSize removed 0 (kept source.utf8ByteSize removed) :=
  exhaust_keptFrom (fun _ _ => rfl) h.canonical.sorted
    (fun r hr => ⟨h.canonical.nonempty r hr, le_size_of_isBoundary (h.boundary r hr).2⟩)
    fun i hi => by omega

theorem Exhaust.exists_of_run {size cursor start stop : Nat} {removed : List Span}
    {segments : List Segment} (h : Exhaust size removed cursor segments) (hcursor : cursor ≤ start)
    (hlt : start < stop) (hsize : stop ≤ size)
    (hkept : ∀ i, start ≤ i → i < stop → Span.covers removed i = false) :
    ∃ segment ∈ segments, segment.original ≤ start ∧
      stop ≤ segment.original + segment.length := by
  obtain ⟨segment, hsegment, hle, hin⟩ :=
    h.holds (stop - 1) (by omega) (by omega) (hkept _ (by omega) (by omega))
  refine ⟨segment, hsegment, ?_, by omega⟩
  -- What stands right before a segment is removed.
  by_contra hlate
  have hfirst := (h.exact segment hsegment).1.first (segment.original - 1) (by omega)
  rw [hkept _ (by omega) (by omega)] at hfirst
  exact absurd hfirst (by simp)

end JsPrune.Segment
