import JsPrune.Span
import Mathlib.Data.List.Basic
import Mathlib.Tactic.ByContra
/-!
# The union of spans

`Span.union` sorts spans and sweeps over them once.  It names a set of offsets by its maximal runs: it
covers the offsets that the given spans cover, its spans ascend without contact, and each of them
starts and stops where a given span does.
-/

namespace JsPrune.Span

def covers (spans : List Span) (i : Nat) : Bool :=
  spans.any fun r => decide (r.start ≤ i) && decide (i < r.stop)

/-- Ascending spans, each of which covers something, that neither overlap nor touch. -/
structure Canonical (spans : List Span) : Prop where
  apart : spans.Pairwise fun r s => r.stop < s.start
  nonempty : ∀ r ∈ spans, r.start < r.stop

def totalLength (spans : List Span) : Nat := (spans.map length).foldr (· + ·) 0

theorem covers_iff {spans : List Span} {i : Nat} :
    covers spans i = true ↔ ∃ r ∈ spans, r.start ≤ i ∧ i < r.stop := by
  simp [covers]

theorem covers_eq_false_iff {spans : List Span} {i : Nat} :
    covers spans i = false ↔ ∀ r ∈ spans, i < r.start ∨ r.stop ≤ i := by
  rw [← Bool.not_eq_true, covers_iff]
  constructor
  · intro h r hr
    by_contra hin
    exact h ⟨r, hr, by omega, by omega⟩
  · rintro h ⟨r, hr, hstart, hstop⟩
    rcases h r hr with hlt | hge <;> omega

theorem covers_of_mem {spans : List Span} {r : Span} {i : Nat} (hr : r ∈ spans)
    (hstart : r.start ≤ i) (hstop : i < r.stop) : covers spans i = true :=
  covers_iff.mpr ⟨r, hr, hstart, hstop⟩

@[simp] theorem covers_nil (i : Nat) : covers [] i = false := rfl

@[simp] theorem covers_cons (r : Span) (spans : List Span) (i : Nat) :
    covers (r :: spans) i =
      ((decide (r.start ≤ i) && decide (i < r.stop)) || covers spans i) := rfl

@[simp] theorem totalLength_cons (r : Span) (spans : List Span) :
    totalLength (r :: spans) = r.stop - r.start + totalLength spans := rfl

@[simp] theorem isEmpty_eq_false_iff {r : Span} : r.isEmpty = false ↔ r.start < r.stop := by
  simp [isEmpty]

/-! ## Sorting -/

theorem mem_insert {r s : Span} {spans : List Span} : s ∈ insert r spans ↔ s = r ∨ s ∈ spans := by
  induction spans with
  | nil => simp [insert]
  | cons t rest ih =>
      rw [insert]
      split
      · exact List.mem_cons
      · rw [List.mem_cons, ih, List.mem_cons, or_left_comm]

theorem mem_sort {r : Span} {spans : List Span} : r ∈ sort spans ↔ r ∈ spans := by
  induction spans with
  | nil => rfl
  | cons s rest ih =>
      have hsort : sort (s :: rest) = insert s (sort rest) := rfl
      rw [hsort, mem_insert, ih, List.mem_cons]

theorem start_le_of_le {r s : Span} (h : r.le s = true) : r.start ≤ s.start := by
  simp only [le, Bool.or_eq_true, Bool.and_eq_true, decide_eq_true_eq, beq_iff_eq] at h
  omega

theorem start_le_of_not_le {r s : Span} (h : ¬ r.le s = true) : s.start ≤ r.start := by
  simp only [le, Bool.or_eq_true, Bool.and_eq_true, decide_eq_true_eq, beq_iff_eq] at h
  omega

theorem sorted_insert (r : Span) {spans : List Span}
    (h : spans.Pairwise fun s t => s.start ≤ t.start) :
    (insert r spans).Pairwise fun s t => s.start ≤ t.start := by
  induction spans with
  | nil => exact List.pairwise_singleton _ r
  | cons s rest ih =>
      obtain ⟨hs, hrest⟩ := List.pairwise_cons.mp h
      rw [insert]
      split
      · rename_i hle
        apply List.pairwise_cons.mpr
        refine ⟨?_, h⟩
        intro t ht
        rcases List.mem_cons.mp ht with rfl | ht
        · exact start_le_of_le hle
        · exact Nat.le_trans (start_le_of_le hle) (hs t ht)
      · rename_i hnot
        apply List.pairwise_cons.mpr
        refine ⟨?_, ih hrest⟩
        intro t ht
        rcases mem_insert.mp ht with rfl | ht
        · exact start_le_of_not_le hnot
        · exact hs t ht

theorem sorted_sort (spans : List Span) :
    (sort spans).Pairwise fun r s => r.start ≤ s.start := by
  induction spans with
  | nil => exact List.Pairwise.nil
  | cons r rest ih => exact sorted_insert r ih

/-! ## The sweep -/

/-- A span that starts in another one, or where it stops, covers with it what both cover together. -/
theorem covers_grown {last r : Span} (hsorted : last.start ≤ r.start) (htouch : r.start ≤ last.stop)
    (i : Nat) :
    last.start ≤ i ∧ i < max last.stop r.stop ↔
      (last.start ≤ i ∧ i < last.stop) ∨ (r.start ≤ i ∧ i < r.stop) := by
  omega

theorem covers_coalesce {last : Span} {rest : List Span}
    (h : (last :: rest).Pairwise fun r s => r.start ≤ s.start) (i : Nat) :
    covers (coalesce last rest) i = covers (last :: rest) i := by
  induction rest generalizing last with
  | nil => rfl
  | cons r rest ih =>
      obtain ⟨hlast, hrest⟩ := List.pairwise_cons.mp h
      have hsorted := hlast r List.mem_cons_self
      rw [coalesce]
      split
      · rename_i htouch
        have hgrown := covers_grown hsorted htouch i
        have hpairwise : ((⟨last.start, max last.stop r.stop⟩ : Span) :: rest).Pairwise
            fun r s => r.start ≤ s.start :=
          List.pairwise_cons.mpr ⟨fun s hs => hlast s (List.mem_cons_of_mem _ hs), hrest.of_cons⟩
        rw [ih hpairwise, Bool.eq_iff_iff]
        simp only [covers_cons, Bool.or_eq_true, Bool.and_eq_true, decide_eq_true_eq]
        rw [hgrown, or_assoc]
      · rw [covers_cons, ih hrest, covers_cons last]

theorem start_of_mem_coalesce {t last : Span} {rest : List Span} (ht : t ∈ coalesce last rest) :
    ∃ s ∈ last :: rest, t.start = s.start := by
  induction rest generalizing last with
  | nil => exact ⟨t, ht, rfl⟩
  | cons r rest ih =>
      rw [coalesce] at ht
      split at ht
      · obtain ⟨s, hs, hstart⟩ := ih ht
        rcases List.mem_cons.mp hs with rfl | hs
        · exact ⟨last, List.mem_cons_self, hstart⟩
        · exact ⟨s, List.mem_cons_of_mem _ (List.mem_cons_of_mem _ hs), hstart⟩
      · rcases List.mem_cons.mp ht with rfl | ht
        · exact ⟨t, List.mem_cons_self, rfl⟩
        · obtain ⟨s, hs, hstart⟩ := ih ht
          exact ⟨s, List.mem_cons_of_mem _ hs, hstart⟩

theorem stop_of_mem_coalesce {t last : Span} {rest : List Span} (ht : t ∈ coalesce last rest) :
    ∃ s ∈ last :: rest, t.stop = s.stop := by
  induction rest generalizing last with
  | nil => exact ⟨t, ht, rfl⟩
  | cons r rest ih =>
      rw [coalesce] at ht
      split at ht
      · obtain ⟨s, hs, hstop⟩ := ih ht
        rcases List.mem_cons.mp hs with rfl | hs
        · rcases Nat.le_total last.stop r.stop with hle | hle
          · exact ⟨r, List.mem_cons_of_mem _ List.mem_cons_self, hstop.trans (Nat.max_eq_right hle)⟩
          · exact ⟨last, List.mem_cons_self, hstop.trans (Nat.max_eq_left hle)⟩
        · exact ⟨s, List.mem_cons_of_mem _ (List.mem_cons_of_mem _ hs), hstop⟩
      · rcases List.mem_cons.mp ht with rfl | ht
        · exact ⟨t, List.mem_cons_self, rfl⟩
        · obtain ⟨s, hs, hstop⟩ := ih ht
          exact ⟨s, List.mem_cons_of_mem _ hs, hstop⟩

theorem canonical_nil : Canonical [] := ⟨List.Pairwise.nil, by simp⟩

theorem Canonical.tail {r : Span} {spans : List Span} (h : Canonical (r :: spans)) :
    Canonical spans :=
  ⟨h.apart.of_cons, fun s hs => h.nonempty s (List.mem_cons_of_mem _ hs)⟩

theorem Canonical.cons {r : Span} {spans : List Span} (hr : r.start < r.stop)
    (hapart : ∀ s ∈ spans, r.stop < s.start) (h : Canonical spans) : Canonical (r :: spans) := by
  refine ⟨List.pairwise_cons.mpr ⟨hapart, h.apart⟩, ?_⟩
  intro s hs
  rcases List.mem_cons.mp hs with rfl | hs
  · exact hr
  · exact h.nonempty s hs

theorem Canonical.head_lt {r s : Span} {spans : List Span} (h : Canonical (r :: spans))
    (hs : s ∈ spans) : r.stop < s.start :=
  (List.pairwise_cons.mp h.apart).1 s hs

theorem canonical_coalesce {last : Span} {rest : List Span}
    (h : (last :: rest).Pairwise fun r s => r.start ≤ s.start)
    (hne : ∀ r ∈ last :: rest, r.start < r.stop) : Canonical (coalesce last rest) := by
  induction rest generalizing last with
  | nil => exact Canonical.cons (hne last List.mem_cons_self) (by simp) canonical_nil
  | cons r rest ih =>
      obtain ⟨hlast, hrest⟩ := List.pairwise_cons.mp h
      have hnonempty := hne last List.mem_cons_self
      rw [coalesce]
      split
      · apply ih
        · exact List.pairwise_cons.mpr
            ⟨fun s hs => hlast s (List.mem_cons_of_mem _ hs), hrest.of_cons⟩
        · intro s hs
          rcases List.mem_cons.mp hs with rfl | hs
          · exact Nat.lt_of_lt_of_le hnonempty (Nat.le_max_left _ _)
          · exact hne s (List.mem_cons_of_mem _ (List.mem_cons_of_mem _ hs))
      · rename_i hapart
        apply Canonical.cons hnonempty
        · intro t ht
          obtain ⟨s, hs, hstart⟩ := start_of_mem_coalesce ht
          -- The spans to come start no earlier than the next one, which stands apart.
          have hle : r.start ≤ s.start := by
            rcases List.mem_cons.mp hs with rfl | hs
            · exact Nat.le_refl _
            · exact (List.pairwise_cons.mp hrest).1 s hs
          omega
        · exact ih hrest fun s hs => hne s (List.mem_cons_of_mem _ hs)

theorem Canonical.sorted {spans : List Span} (h : Canonical spans) :
    spans.Pairwise fun r s => r.start ≤ s.start := by
  apply h.apart.imp_of_mem
  intro r s hr _ hrs
  have := h.nonempty r hr
  omega

/-! ## The union -/

theorem covers_filter_nonempty (spans : List Span) (i : Nat) :
    covers (spans.filter fun r => !r.isEmpty) i = covers spans i := by
  rw [Bool.eq_iff_iff, covers_iff, covers_iff]
  constructor
  · rintro ⟨r, hr, hin⟩
    exact ⟨r, (List.mem_filter.mp hr).1, hin⟩
  · rintro ⟨r, hr, hstart, hstop⟩
    refine ⟨r, List.mem_filter.mpr ⟨hr, ?_⟩, hstart, hstop⟩
    rw [Bool.not_eq_true', isEmpty_eq_false_iff]
    omega

theorem covers_sort (spans : List Span) (i : Nat) : covers (sort spans) i = covers spans i := by
  rw [Bool.eq_iff_iff, covers_iff, covers_iff]
  simp only [mem_sort]

/-- The union is the sweep over the given spans that are not empty, in their order. -/
theorem union_eq (spans : List Span) :
    union spans = [] ∧ sort (spans.filter fun r => !r.isEmpty) = [] ∨
      ∃ last rest, sort (spans.filter fun r => !r.isEmpty) = last :: rest ∧
        union spans = coalesce last rest := by
  unfold union
  cases sort (spans.filter fun r => !r.isEmpty) with
  | nil => exact Or.inl ⟨rfl, rfl⟩
  | cons last rest => exact Or.inr ⟨last, rest, rfl, rfl⟩

theorem mem_of_sort_eq {spans : List Span} {last : Span} {rest : List Span}
    (h : sort (spans.filter fun r => !r.isEmpty) = last :: rest) {r : Span}
    (hr : r ∈ last :: rest) : r ∈ spans ∧ r.start < r.stop := by
  rw [← h, mem_sort, List.mem_filter, Bool.not_eq_true', isEmpty_eq_false_iff] at hr
  exact hr

theorem covers_union (spans : List Span) (i : Nat) :
    covers (union spans) i = covers spans i := by
  rw [← covers_filter_nonempty spans, ← covers_sort (spans.filter fun r => !r.isEmpty)]
  rcases union_eq spans with ⟨hunion, hsort⟩ | ⟨last, rest, hsort, hunion⟩
  · rw [hunion, hsort]
  · have hsorted := sorted_sort (spans.filter fun r => !r.isEmpty)
    rw [hsort] at hsorted ⊢
    rw [hunion, covers_coalesce hsorted]

theorem canonical_union (spans : List Span) : Canonical (union spans) := by
  rcases union_eq spans with ⟨hunion, -⟩ | ⟨last, rest, hsort, hunion⟩
  · rw [hunion]
    exact canonical_nil
  · have hsorted := sorted_sort (spans.filter fun r => !r.isEmpty)
    rw [hsort] at hsorted
    rw [hunion]
    exact canonical_coalesce hsorted fun r hr => (mem_of_sort_eq hsort hr).2

theorem start_of_mem_union {t : Span} {spans : List Span} (ht : t ∈ union spans) :
    ∃ r ∈ spans, r.start < r.stop ∧ t.start = r.start := by
  rcases union_eq spans with ⟨hunion, -⟩ | ⟨last, rest, hsort, hunion⟩
  · rw [hunion] at ht
    exact absurd ht List.not_mem_nil
  · rw [hunion] at ht
    obtain ⟨r, hr, hstart⟩ := start_of_mem_coalesce ht
    obtain ⟨hmem, hne⟩ := mem_of_sort_eq hsort hr
    exact ⟨r, hmem, hne, hstart⟩

theorem stop_of_mem_union {t : Span} {spans : List Span} (ht : t ∈ union spans) :
    ∃ r ∈ spans, r.start < r.stop ∧ t.stop = r.stop := by
  rcases union_eq spans with ⟨hunion, -⟩ | ⟨last, rest, hsort, hunion⟩
  · rw [hunion] at ht
    exact absurd ht List.not_mem_nil
  · rw [hunion] at ht
    obtain ⟨r, hr, hstop⟩ := stop_of_mem_coalesce ht
    obtain ⟨hmem, hne⟩ := mem_of_sort_eq hsort hr
    exact ⟨r, hmem, hne, hstop⟩

/-! ## Runs of covered offsets -/

theorem Canonical.eq_of_touch {spans : List Span} (h : Canonical spans) {r s : Span}
    (hr : r ∈ spans) (hs : s ∈ spans) (hrs : r.start ≤ s.stop) (hsr : s.start ≤ r.stop) :
    r = s := by
  induction spans with
  | nil => simp at hr
  | cons t rest ih =>
      rcases List.mem_cons.mp hr with hrt | hrt
      · rcases List.mem_cons.mp hs with hst | hst
        · rw [hrt, hst]
        · subst hrt
          have := h.head_lt hst
          omega
      · rcases List.mem_cons.mp hs with hst | hst
        · subst hst
          have := h.head_lt hrt
          omega
        · exact ih h.tail hrt hst

theorem Canonical.eq_or_apart {spans : List Span} (h : Canonical spans) {r s : Span}
    (hr : r ∈ spans) (hs : s ∈ spans) : r = s ∨ r.stop < s.start ∨ s.stop < r.start := by
  by_cases hrs : r.start ≤ s.stop
  · by_cases hsr : s.start ≤ r.stop
    · exact Or.inl (h.eq_of_touch hr hs hrs hsr)
    · omega
  · omega

theorem Canonical.not_covers_stop {spans : List Span} (h : Canonical spans) {r : Span}
    (hr : r ∈ spans) : covers spans r.stop = false := by
  rw [covers_eq_false_iff]
  intro s hs
  by_contra hin
  have hne := h.nonempty r hr
  have := h.eq_of_touch hr hs (by omega) (by omega)
  subst this
  omega

theorem Canonical.not_covers_before {spans : List Span} (h : Canonical spans) {r : Span}
    (hr : r ∈ spans) {i : Nat} (hi : i + 1 = r.start) : covers spans i = false := by
  rw [covers_eq_false_iff]
  intro s hs
  by_contra hin
  have hne := h.nonempty r hr
  have := h.eq_of_touch hr hs (by omega) (by omega)
  subst this
  omega

theorem Canonical.exists_of_run {spans : List Span} (h : Canonical spans) {start stop : Nat}
    (hlt : start < stop) (hrun : ∀ i, start ≤ i → i < stop → covers spans i = true) :
    ∃ r ∈ spans, r.start ≤ start ∧ stop ≤ r.stop := by
  obtain ⟨r, hr, hrs, hsr⟩ := covers_iff.mp (hrun start (Nat.le_refl _) hlt)
  refine ⟨r, hr, hrs, ?_⟩
  by_contra hshort
  have hstop := hrun r.stop (by omega) (by omega)
  rw [h.not_covers_stop hr] at hstop
  exact absurd hstop (by simp)

theorem Canonical.contains_of_meet {spans : List Span} (h : Canonical spans) {r s : Span}
    (hr : r ∈ spans) (hs : ∀ i, s.start ≤ i → i < s.stop → covers spans i = true) {i : Nat}
    (hi : r.start ≤ i ∧ i < r.stop) (his : s.start ≤ i ∧ i < s.stop) :
    r.start ≤ s.start ∧ s.stop ≤ r.stop := by
  obtain ⟨t, ht, hts, hst⟩ := h.exists_of_run (by omega) hs
  have := h.eq_of_touch hr ht (by omega) (by omega)
  subst this
  exact ⟨hts, hst⟩

theorem contains_of_mem_union {spans : List Span} {r s : Span} (hr : r ∈ union spans)
    (hs : s ∈ spans) {i : Nat} (hi : r.start ≤ i ∧ i < r.stop) (his : s.start ≤ i ∧ i < s.stop) :
    r.start ≤ s.start ∧ s.stop ≤ r.stop := by
  refine (canonical_union spans).contains_of_meet hr ?_ hi his
  intro j hj hj'
  rw [covers_union]
  exact covers_of_mem hs hj hj'

/-! ## Spans apart from all others -/

def Apart (r s : Span) : Prop := r.stop ≤ s.start ∨ s.stop ≤ r.start

instance (r s : Span) : Decidable (r.Apart s) :=
  inferInstanceAs (Decidable (r.stop ≤ s.start ∨ s.stop ≤ r.start))

theorem covers_eq_false_of_apart {spans : List Span} {s : Span} (h : ∀ r ∈ spans, r.Apart s)
    {i : Nat} (hstart : s.start ≤ i) (hstop : i < s.stop) : covers spans i = false := by
  rw [covers_eq_false_iff]
  intro r hr
  rcases h r hr with hle | hle
  · exact Or.inr (Nat.le_trans hle hstart)
  · exact Or.inl (Nat.lt_of_lt_of_le hstop hle)

theorem apart_of_mem_union {spans : List Span} {s : Span} (hs : s.start < s.stop)
    (h : ∀ r ∈ spans, r.Apart s) {r : Span} (hr : r ∈ union spans) : r.Apart s := by
  by_contra hmeet
  have hne := (canonical_union spans).nonempty r hr
  unfold Apart at hmeet
  have hcovers := covers_of_mem hr (i := max r.start s.start) (by omega) (by omega)
  rw [covers_union, covers_eq_false_of_apart h (by omega) (by omega)] at hcovers
  exact absurd hcovers (by simp)

/-! ## One list for each set of offsets -/

/-- A canonical span is a maximal run, so it is in every canonical list that covers the same. -/
theorem Canonical.mem_of_covers {a b : List Span} (ha : Canonical a) (hb : Canonical b)
    (h : ∀ i, covers a i = covers b i) {r : Span} (hr : r ∈ a) : r ∈ b := by
  have hrun : ∀ i, r.start ≤ i → i < r.stop → covers b i = true := by
    intro i hi hlt
    rw [← h]
    exact covers_of_mem hr hi hlt
  obtain ⟨s, hs, hstart, hstop⟩ := hb.exists_of_run (ha.nonempty r hr) hrun
  have hback : ∀ i, s.start ≤ i → i < s.stop → covers a i = true := by
    intro i hi hlt
    rw [h]
    exact covers_of_mem hs hi hlt
  have hcontains := ha.contains_of_meet hr hback (i := r.start)
    ⟨Nat.le_refl _, ha.nonempty r hr⟩ ⟨hstart, by have := ha.nonempty r hr; omega⟩
  have heq : r = s := by
    cases r
    cases s
    rw [mk.injEq]
    exact ⟨Nat.le_antisymm hcontains.1 hstart, Nat.le_antisymm hstop hcontains.2⟩
  rw [heq]
  exact hs

theorem Canonical.nodup {spans : List Span} (h : Canonical spans) : spans.Nodup := by
  apply h.apart.imp_of_mem
  intro r s hr _ hrs heq
  have := h.nonempty r hr
  rw [heq] at hrs this
  omega

theorem Canonical.ext {a b : List Span} (ha : Canonical a) (hb : Canonical b)
    (h : ∀ i, covers a i = covers b i) : a = b := by
  have hmem : ∀ r, r ∈ a ↔ r ∈ b := by
    intro r
    constructor
    · exact ha.mem_of_covers hb h
    · exact hb.mem_of_covers ha fun i => (h i).symm
  have hperm := (List.perm_ext_iff_of_nodup ha.nodup hb.nodup).mpr hmem
  apply hperm.eq_of_pairwise _ ha.apart hb.apart
  intro r s hr hs hrs hsr
  have := ha.nonempty r hr
  have := hb.nonempty s hs
  omega

theorem Canonical.union_eq {spans : List Span} (h : Canonical spans) : union spans = spans :=
  (canonical_union spans).ext h (covers_union spans)

theorem union_congr {a b : List Span} (h : ∀ i, covers a i = covers b i) : union a = union b := by
  apply (canonical_union a).ext (canonical_union b)
  intro i
  rw [covers_union, covers_union, h]

end JsPrune.Span
