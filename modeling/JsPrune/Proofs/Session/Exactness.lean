import JsPrune.Proofs.Session.Run
/-!
# What a session removes

A session removes what it granted and spaces, and nothing else.  Apart from spaces, the code that is
left is therefore the source without what the grants name.
-/

namespace JsPrune.Session

open Text

theorem covers_marks {source : String} {grants : List Grant}
    (h : ∀ grant ∈ grants, grant.Sound source) (i : Nat) :
    ((grants.any fun grant => grant.names source i) = true →
      Span.covers (grants.filterMap (Grant.mark source)) i = true) ∧
    (Span.covers (grants.filterMap (Grant.mark source)) i = true →
      (grants.any fun grant => grant.names source i) = false →
      (byte? source i).any isSpace = true) := by
  constructor
  · intro hnamed
    obtain ⟨grant, hgrant, hi⟩ := List.any_eq_true.mp hnamed
    obtain ⟨wide, hwide, hfits⟩ := Grant.exists_fits (h grant hgrant)
    have hin := hfits.holds i hi
    exact Span.covers_of_mem (List.mem_filterMap.mpr ⟨grant, hgrant, hwide⟩) hin.1 hin.2
  · intro hcovers hnone
    obtain ⟨wide, hmem, hstart, hstop⟩ := Span.covers_iff.mp hcovers
    obtain ⟨grant, hgrant, hwide⟩ := List.mem_filterMap.mp hmem
    obtain ⟨wide', hwide', hfits⟩ := Grant.exists_fits (h grant hgrant)
    obtain rfl := Option.some.inj (hwide.symm.trans hwide')
    refine hfits.space i hstart hstop (Bool.eq_false_iff.mpr fun hnames => ?_)
    exact Bool.eq_false_iff.mp hnone (List.any_eq_true.mpr ⟨grant, hgrant, hnames⟩)

theorem atBoundaries_marks {source : String} {grants : List Grant}
    (h : ∀ grant ∈ grants, grant.Sound source) :
    Padding.AtBoundaries source (grants.filterMap (Grant.mark source)) := by
  intro wide hmem
  obtain ⟨grant, hgrant, hwide⟩ := List.mem_filterMap.mp hmem
  obtain ⟨wide', hwide', hfits⟩ := Grant.exists_fits (h grant hgrant)
  obtain rfl := Option.some.inj (hwide.symm.trans hwide')
  exact hfits.boundary

variable (source sourceName : String) (requests : List Request)

theorem source_after_new : ((new source sourceName).after requests).source = source :=
  (after_spec _ requests).1

theorem marks_after_new :
    ((new source sourceName).after requests).marks.map Mark.span =
      ((new source sourceName).grants requests).filterMap (Grant.mark source) :=
  (after_spec (new source sourceName) requests).2.1

theorem sound_grants_new :
    ∀ grant ∈ (new source sourceName).grants requests, grant.Sound source :=
  (after_spec (new source sourceName) requests).2.2

theorem covering_after_new :
    Padding.Covering source
      (((new source sourceName).grants requests).filterMap (Grant.mark source))
      ((new source sourceName).after requests).removed := by
  rw [← marks_after_new, removed_eq, source_after_new]
  exact Padding.covering_removed source _

/-- Whatever was asked of a session, it cuts its source along characters. -/
theorem cuttable_after_new :
    Cuttable source ((new source sourceName).after requests).removed := by
  rw [removed_eq, source_after_new]
  refine Padding.cuttable_removed ?_
  rw [marks_after_new]
  exact atBoundaries_marks (sound_grants_new source sourceName requests)

/-- Off spaces, a session removes exactly what its grants name. -/
theorem covers_removed_eq_names {i : Nat} (hi : (byte? source i).any isSpace = false) :
    Span.covers ((new source sourceName).after requests).removed i =
      ((new source sourceName).grants requests).any fun grant => grant.names source i := by
  have hmarks := covers_marks (sound_grants_new source sourceName requests) i
  have hcover := covering_after_new source sourceName requests
  rw [Bool.eq_iff_iff]
  constructor
  · intro hremoved
    by_contra hnone
    cases hmarked : Span.covers
        (((new source sourceName).grants requests).filterMap (Grant.mark source)) i with
    | true =>
        have := hmarks.2 hmarked (Bool.eq_false_iff.mpr hnone)
        rw [hi] at this
        exact absurd this (by simp)
    | false =>
        have := hcover.space i hremoved hmarked
        rw [hi] at this
        exact absurd this (by simp)
  · exact fun hnamed => hcover.covers i (hmarks.1 hnamed)

theorem bytes_code_after_new :
    bytes ((new source sourceName).after requests).code =
      (origins source ((new source sourceName).after requests).removed).filterMap
        (byte? source) := by
  rw [code_eq, source_after_new]
  exact bytes_cut (cuttable_after_new source sourceName requests)

theorem filter_not_isSpace_congr {source : String} {p q : Nat → Bool} (is : List Nat)
    (h : ∀ i, (byte? source i).any isSpace = false → p i = q i) :
    ((is.filter p).filterMap (byte? source)).filter (fun b => !isSpace b) =
      ((is.filter q).filterMap (byte? source)).filter fun b => !isSpace b := by
  rw [List.filterMap_filter, List.filterMap_filter, List.filter_filterMap, List.filter_filterMap]
  refine List.filterMap_congr fun i _ => ?_
  cases hspace : (byte? source i).any isSpace with
  | false => rw [h i hspace]
  | true =>
      obtain ⟨b, hb, hspace⟩ := (Option.any_eq_true _ _).mp hspace
      have hnone : (byte? source i).filter (fun b => !isSpace b) = none := by
        rw [hb, Option.filter_some, hspace]
        rfl
      cases p i <;> cases q i <;> simp [hnone]

/-- A session removes what it granted and spaces: all that a grant names is removed, all that is
removed is named by a grant or a space, and apart from spaces the code that is left consists of the
bytes of the source that no grant names, in their order. -/
theorem removes_exactly_granted (source sourceName : String) (requests : List Request) :
    let session := (new source sourceName).after requests
    let grants := (new source sourceName).grants requests
    (∀ i, Span.covers session.removed i = true →
      (∃ grant ∈ grants, grant.names source i = true) ∨
        (byte? source i).any isSpace = true) ∧
    (∀ grant ∈ grants, ∀ i, grant.names source i = true →
      Span.covers session.removed i = true) ∧
    (bytes session.code).filter (fun b => !isSpace b) =
      (((List.range source.utf8ByteSize).filter fun i =>
        !grants.any fun grant => grant.names source i).filterMap (byte? source)).filter
          fun b => !isSpace b := by
  dsimp only
  refine ⟨fun i hi => ?_, fun grant hgrant i hi => ?_, ?_⟩
  · cases hspace : (byte? source i).any isSpace with
    | true => exact Or.inr rfl
    | false =>
        rw [covers_removed_eq_names source sourceName requests hspace] at hi
        exact Or.inl (List.any_eq_true.mp hi)
  · exact (covering_after_new source sourceName requests).covers i
      ((covers_marks (sound_grants_new source sourceName requests) i).1
        (List.any_eq_true.mpr ⟨grant, hgrant, hi⟩))
  · rw [bytes_code_after_new, origins]
    refine filter_not_isSpace_congr _ fun i hi => ?_
    rw [covers_removed_eq_names source sourceName requests hi]

end JsPrune.Session
