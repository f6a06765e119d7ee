import JsPrune.Proofs.Padding.Monotone
import JsPrune.Proofs.Session.Comments
/-!
# Sessions that remove more comments

A session that is to remove more comments removes more of the script, byte for byte.
-/

namespace JsPrune

open Text

theorem Text.origins_sublist {source : String} {removed more : List Span}
    (h : ∀ i, Span.covers removed i = true → Span.covers more i = true) :
    (origins source more).Sublist (origins source removed) := by
  unfold origins
  apply List.monotone_filter_right
  intro i hi
  rw [Bool.not_eq_true'] at hi ⊢
  rw [← Bool.not_eq_true] at hi ⊢
  exact fun hcovers => hi (h i hcovers)

namespace Session

/-- If a second decision removes every comment text of the script that the first one does, then every
byte that the first one removes is removed by the second one as well.  So what the second one leaves
are some of the bytes that the first one leaves, from the same places of the script, in their order. -/
theorem removed_mono {source : String} (sourceName : String) {accepts accepts' : String → Bool}
    (h : ∀ c ∈ Comment.all source, accepts c.text = true → accepts' c.text = true) :
    (∀ i, Span.covers (withoutComments source sourceName accepts).removed i = true →
      Span.covers (withoutComments source sourceName accepts').removed i = true) ∧
    (origins source (withoutComments source sourceName accepts').removed).Sublist
      (origins source (withoutComments source sourceName accepts).removed) ∧
    bytes (withoutComments source sourceName accepts').code =
      (origins source (withoutComments source sourceName accepts').removed).filterMap
        (byte? source) ∧
    bytes (withoutComments source sourceName accepts).code =
      (origins source (withoutComments source sourceName accepts).removed).filterMap
        (byte? source) := by
  have hmore : ∀ c, Padding.Marked source (withoutComments source sourceName accepts).marks c →
      Padding.Marked source (withoutComments source sourceName accepts').marks c := by
    intro c hc
    have hchosen := chosen_of_marked source sourceName accepts hc
    obtain ⟨-, mark, -, hspan⟩ := hc
    apply marked_withoutComments source sourceName accepts' ?_ hspan
    rw [Decision.chosen_of_text, List.mem_filter] at hchosen ⊢
    exact ⟨hchosen.1, h c hchosen.1 hchosen.2⟩
  have hcovers : ∀ i, Span.covers (withoutComments source sourceName accepts).removed i = true →
      Span.covers (withoutComments source sourceName accepts').removed i = true := by
    intro i hi
    rw [removed_withoutComments] at hi ⊢
    exact Padding.covers_removed_mono (ofComments_withoutComments source sourceName accepts)
      (ofComments_withoutComments source sourceName accepts') hmore hi
  refine ⟨hcovers, origins_sublist hcovers, ?_, ?_⟩
  · rw [code_withoutComments]
    exact bytes_cut (cuttable_withoutComments source sourceName accepts')
  · rw [code_withoutComments]
    exact bytes_cut (cuttable_withoutComments source sourceName accepts)

/-- On a line that goes as a whole only with both of its comments. -/
theorem removed_mono_on_a_line :
    (∀ c ∈ Comment.all "  /*a*//*b*/\nc", (c.text == "/*a*/") = true → true = true) ∧
    (withoutComments "  /*a*//*b*/\nc" "a.js" (· == "/*a*/")).removed = [⟨2, 7⟩] ∧
    (withoutComments "  /*a*//*b*/\nc" "a.js" fun _ : String => true).removed = [⟨0, 13⟩] ∧
    (origins "  /*a*//*b*/\nc"
        (withoutComments "  /*a*//*b*/\nc" "a.js" fun _ : String => true).removed).Sublist
      (origins "  /*a*//*b*/\nc"
        (withoutComments "  /*a*//*b*/\nc" "a.js" (· == "/*a*/")).removed) := by
  have himplies : ∀ c ∈ Comment.all "  /*a*//*b*/\nc",
      (c.text == "/*a*/") = true → true = true := fun _ _ _ => rfl
  refine ⟨himplies, by decide +kernel, by decide +kernel, ?_⟩
  exact (removed_mono "a.js" himplies).2.1

end Session

end JsPrune
