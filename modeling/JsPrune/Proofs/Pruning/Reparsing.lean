import JsPrune.Proofs.Concrete.Sample
import JsPrune.Proofs.Pruning.Found
import JsPrune.Proofs.Pruning.Surviving
/-!
# Pruned scripts are read again

What the pass over statements leaves need not be a script: where no semicolon is written, the statements
around one that goes can run into each other.  If at every place something can go, the script loses one
space or statement after the other, and a parser still reads what is left.
-/

namespace JsPrune

open Concrete Text
open String (utf8Len)

namespace Script

variable {policy : Policy} {source : String}

/-- Whether a script can lose all that is taken out: at each place statements can go from between what
is left in front and what stands behind, and behind a call that goes nothing is left of its statement. -/
structure CanLose (removed : List Span) (ps : List Piece) : Prop where
  free : ∀ before p behind, ps = before ++ p :: behind → p.stays removed = false →
    Leaf.free (Piece.leftOf removed before) (Piece.leavesOf behind) = true
  endsOnLine : ∀ p ∈ ps, p.endsOnLine = true

def canLoseFrom (removed : List Span) : List Leaf → List Piece → Bool
  | _, [] => true
  | left, p :: ps =>
    (p.stays removed || Leaf.free left (Piece.leavesOf ps)) && p.endsOnLine &&
      canLoseFrom removed (left ++ Piece.leftOf removed [p]) ps

theorem canLoseFrom_iff {removed : List Span} {left : List Leaf} {ps : List Piece} :
    canLoseFrom removed left ps = true ↔
      (∀ before p behind, ps = before ++ p :: behind → p.stays removed = false →
        Leaf.free (left ++ Piece.leftOf removed before) (Piece.leavesOf behind) = true) ∧
      ∀ p ∈ ps, p.endsOnLine = true := by
  induction ps generalizing left with
  | nil => simp [canLoseFrom]
  | cons p ps ih =>
      rw [canLoseFrom, Bool.and_eq_true, Bool.and_eq_true, Bool.or_eq_true, ih,
        List.forall_mem_cons]
      constructor
      · rintro ⟨⟨hfirst, hend⟩, hfree, hends⟩
        refine ⟨fun before q behind hps hgoes => ?_, hend, hends⟩
        cases before with
        | nil =>
            obtain ⟨rfl, rfl⟩ := List.cons.inj hps
            rw [hgoes] at hfirst
            simpa [Piece.leftOf] using hfirst
        | cons p' before =>
            obtain ⟨rfl, rfl⟩ := List.cons.inj hps
            have hrest := hfree before q behind rfl hgoes
            rwa [List.append_assoc, ← Piece.leftOf_append, List.singleton_append] at hrest
      · rintro ⟨hfree, hend, hends⟩
        refine ⟨⟨?_, hend⟩, fun before q behind hps hgoes => ?_, hends⟩
        · cases hstays : p.stays removed with
          | true => exact Or.inl rfl
          | false =>
              have hfirst := hfree [] p ps rfl hstays
              exact Or.inr (by simpa [Piece.leftOf] using hfirst)
        · have hrest := hfree (p :: before) q behind (by rw [hps]; rfl) hgoes
          rwa [List.append_assoc, ← Piece.leftOf_append, List.singleton_append]

instance (removed : List Span) (ps : List Piece) : Decidable (CanLose removed ps) :=
  decidable_of_iff (canLoseFrom removed [] ps = true) <| by
    rw [canLoseFrom_iff]
    exact ⟨fun h => ⟨h.1, h.2⟩, fun h => ⟨h.free, h.endsOnLine⟩⟩

theorem cutting_of_read {sourceName : String} {span : Span} {parts : List Concrete}
    (hwell : WellFormed parts) (htext : Leaf.textOf (leavesIn parts) = source.toList)
    (hline : ∀ p ∈ scriptPieces policy source parts, p.endsOnLine = true)
    {removals : List Removal}
    (hremovals : removals =
      Finding.removals (findings policy source .root (.node .script span (treesIn 0 parts))))
    (hgrants : (Session.new source sourceName).grants (removals.map Removal.request) =
      removals.map Removal.grant) :
    Cutting source parts (scriptPieces policy source parts) removals
      ((Session.new source sourceName).after (removals.map Removal.request)).removed where
  wellFormed := hwell
  text_eq := htext
  leaves_eq := leavesOf_piecesIn _ _ parts
  placed := placedAt_piecesIn _ _ parts
  footprint := by
    rintro p hp start kind inner r rfl
    obtain ⟨hregular, hall, around, hgoes⟩ := comes_of_mem_piecesIn parts hwell.regular hp
    exact footprint_of_removal hregular hall (hline _ hp) hgoes
  removals_eq := by
    intro r hr
    rw [hremovals, mem_removals_iff hwell] at hr
    obtain ⟨p, hp, hremoval⟩ := hr
    cases p with
    | leaf o l => exact absurd hremoval (by simp [Piece.removal?])
    | statement start kind inner r' =>
        obtain rfl := Option.some.inj hremoval
        exact ⟨start, kind, inner, hp⟩
  mem_removals := by
    intro start kind inner r hp
    rw [hremovals, mem_removals_iff hwell]
    exact ⟨_, hp, rfl⟩
  takes := takes_of_grants hgrants

/-- If a script can lose what is taken out, then what is left of it is read, and has the tree without
the statements that go. -/
theorem exists_tree_of_canLose {reading : Reading} {parser : Parser}
    (hreading : reading.Describes parser) {sourceName : String} {span : Span} {parts : List Concrete}
    (hread : reading.read source = some parts) {removals : List Removal}
    (hremovals : removals =
      Finding.removals (findings policy source .root (.node .script span (treesIn 0 parts))))
    (hgrants : (Session.new source sourceName).grants (removals.map Removal.request) =
      removals.map Removal.grant)
    (hlose : CanLose ((Session.new source sourceName).after (removals.map Removal.request)).removed
      (scriptPieces policy source parts)) :
    ∃ left, parser.tree
        (cut source ((Session.new source sourceName).after (removals.map Removal.request)).removed) =
          .ok left ∧
      left.unplaced =
        (without policy source .root (.node .script span (treesIn 0 parts))).unplaced := by
  have hcutting := cutting_of_read (hreading.wellFormed hread) (hreading.text_of_read hread)
    hlose.endsOnLine hremovals hgrants
  have hcuttable := Session.cuttable_after_new source sourceName (removals.map Removal.request)
  generalize ((Session.new source sourceName).after (removals.map Removal.request)).removed =
    removed at *
  have hcan : CanGo removed [] [] (scriptPieces policy source parts) := by
    intro before p behind hps hgoes
    rw [List.nil_append, List.append_nil]
    exact ⟨hlose.free before p behind hps hgoes, hcutting.inComment_eq_false hps hgoes⟩
  have hsheds := sheds_pruneIn .root .script [] [] 0 [] parts hcan
  have hreads := Reading.reads_of_sheds hreading (Reading.reads_of_read hreading hread) hsheds
  obtain ⟨span', trees, htree, hshape⟩ := Reading.exists_tree_of_reads hreading hreads
  have hcode : cut source removed =
      String.ofList (Leaf.textOf (leavesIn ([] ++
        pruneIn removed policy source (Surrounding.root.below .script) 0 parts))) := by
    rw [List.nil_append, leavesIn_pruneIn, ← scriptPieces, ← hcutting.toList_cut hcuttable,
      String.ofList_toList]
  refine ⟨_, by rw [hcode]; exact htree, ?_⟩
  rw [List.nil_append, unplacedIn_pruneIn] at hshape
  rw [Tree.unplaced, hshape, without, Tree.unplaced]

end Script

namespace Pass

end Pass

end JsPrune
