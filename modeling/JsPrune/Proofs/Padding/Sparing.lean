import JsPrune.Proofs.Padding.Runs
/-!
# Comments that are spared

A comment that is not marked is left as it is, whatever is marked around it.  Going forward, a
widening stops at the slash with which a comment starts.  Going back from the slash of another
comment, it stops at the slash with which a comment ends, or at the line terminator behind it.
-/

namespace JsPrune.Padding

open Text

variable {source : String} {marks : List Mark} {d : Comment}

theorem apart_of_removed {place : Span} (hplace : place.start < place.stop)
    (hmark : ∀ mark ∈ marks, mark.span.Apart place)
    (hwiden : ∀ u ∈ runs marks, u.Apart place → (stranded source u).Apart place) {r : Span}
    (hr : r ∈ Mark.removed source marks) : r.Apart place := by
  refine Span.apart_of_mem_union hplace (fun wide hwide => ?_) hr
  obtain ⟨u, hu, rfl⟩ := List.mem_map.mp hwide
  refine hwiden u hu (Span.apart_of_mem_union hplace (fun wide hwide => ?_) hu)
  obtain ⟨mark, hmem, rfl⟩ := List.mem_map.mp hwide
  exact hmark mark hmem

theorem apart_of_comment {c : Comment} {wide : Span} (hc : c ∈ Comment.all source)
    (hd : d ∈ Comment.all source) (hne : c ≠ d) (hwide : comment source c = some wide) :
    wide.Apart d.span := by
  have hwidens := widens_comment hwide
  have hstart := hwidens.start_le
  have hstop := hwidens.le_stop
  rcases Comment.eq_or_apart hc hd with heq | hbefore | hbehind
  · exact absurd heq hne
  · left
    by_contra hreach
    have htwo := (Comment.standsIn_of_mem hc).start_add_two_le
    exact hne (eq_of_reaches hc hd hwide ⟨by omega, by omega⟩)
  · right
    have hslash := (Comment.standsIn_of_mem hc).byte?_start
    refine (Comment.standsIn_of_mem hd).stop_le_of_run hbehind hslash fun k hk hkc => ?_
    have hle := blankStart_le source c.span.start
    refine blankRun_blankStart source c.span.start k ?_ hkc
    rcases start_of_comment hwide with heq | heq <;> omega

theorem apart_stranded (hmarks : OfComments source marks) (hd : d ∈ Comment.all source) {u : Span}
    (hu : u ∈ runs marks) (hapart : u.Apart d.span) : (stranded source u).Apart d.span := by
  have hwidens := widens_stranded source u
  have hstart := hwidens.start_le
  have hne := (Span.canonical_union _).nonempty u hu
  rcases hapart with hbefore | hbehind
  · left
    by_contra hreach
    have hspace := hwidens.space d.span.start (by omega) (by omega) (Or.inr hbefore)
    rw [(Comment.standsIn_of_mem hd).byte?_start] at hspace
    exact absurd hspace (by decide)
  · right
    rcases start_of_stranded source u with heq | heq
    · rw [heq]
      exact hbehind
    -- The run starts with the slash of a comment, or with the blanks before it.
    obtain ⟨c, wide, hc, hwide, hcstart, -⟩ := exists_first hmarks hu
    rw [heq, ← hcstart]
    rcases start_of_comment hwide with hslash | hblank
    · rw [hslash]
      exact (Comment.standsIn_of_mem hd).stop_le_of_run (by omega)
        (Comment.standsIn_of_mem hc.1).byte?_start (blankRun_blankStart source _)
    · rw [hblank, blankStart_blankStart, ← hblank, hcstart]
      exact hbehind

/-- What marks remove is apart from the comments that are not marked. -/
theorem apart_of_mem_removed (hmarks : OfComments source marks) (hd : d ∈ Comment.all source)
    (hspared : ¬ Marked source marks d) {r : Span} (hr : r ∈ Mark.removed source marks) :
    r.Apart d.span := by
  have htwo := (Comment.standsIn_of_mem hd).start_add_two_le
  refine apart_of_removed (by omega) (fun mark hmark => ?_) (fun u => apart_stranded hmarks hd) hr
  obtain ⟨c, hc, hcmark⟩ := hmarks mark hmark
  refine apart_of_comment hc hd ?_ hcmark
  rintro rfl
  exact hspared ⟨hc, mark, hmark, hcmark⟩

end JsPrune.Padding
