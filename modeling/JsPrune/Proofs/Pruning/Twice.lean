import JsPrune.Proofs.Pruning.Kept
import JsPrune.Proofs.Pruning.Seams
/-!
# The pass over comments, twice

A second pass sees what the first one left.  The comments that the policy removes and the first pass
kept had to stay there; the second one keeps them if they still have to, by what the first one left
beside them.  A comment beside one that goes can lose what held it, and then a second pass removes it.
-/

namespace JsPrune

open Text

namespace Session

variable {source : String} {accepts : String → Bool} {c : Comment}

theorem covers_start_of_not_held (sourceName : String) (hc : c ∈ Comment.all source)
    (haccepts : accepts c.text = true) (hfree : ¬ Padding.Held source c) :
    Span.covers (withoutComments source sourceName accepts).removed c.span.start = true := by
  rw [← Padding.comment_eq_none_iff, ← ne_eq, Option.ne_none_iff_exists'] at hfree
  obtain ⟨wide, hwide⟩ := hfree
  have hchosen : c ∈ (accepts : Decision).chosen (Comment.all source) := by
    rw [Decision.chosen_of_text]
    exact List.mem_filter.mpr ⟨hc, haccepts⟩
  obtain ⟨-, mark, hmark, hspan⟩ := marked_withoutComments source sourceName accepts hchosen hwide
  have hwidens := Padding.widens_comment hspan
  have hstart := hwidens.start_le
  have hstop := hwidens.le_stop
  have htwo := (Comment.standsIn_of_mem hc).start_add_two_le
  rw [removed_withoutComments]
  apply (Padding.covering_removed source _).covers
  exact Span.covers_of_mem (List.mem_map_of_mem hmark) hstart (by omega)

theorem mem_kept_of_held (hc : c ∈ Comment.all source) (hheld : Padding.Held source c) :
    c ∈ (accepts : Decision).kept source := by
  apply List.mem_filter.mpr
  refine ⟨hc, ?_⟩
  rw [Padding.comment_eq_none_iff.mpr hheld]
  simp

theorem covers_start_of_held (sourceName : String) (accepts : String → Bool)
    (hc : c ∈ Comment.all source) (hheld : Padding.Held source c) :
    Span.covers (withoutComments source sourceName accepts).removed c.span.start = false := by
  have htwo := (Comment.standsIn_of_mem hc).start_add_two_le
  apply Span.covers_eq_false_of_apart (apart_of_mem_kept (mem_kept_of_held hc hheld))
    (Nat.le_refl _)
  omega

end Session

namespace Pass

variable {policy : Policy} {source sourceName : String} {out : Pruned}

theorem code_of_runComments (h : (runComments policy source sourceName).result = .ok (some out)) :
    out.code = cut source
      (Session.withoutComments source sourceName policy.removesCommentText).removed := by
  obtain ⟨result, hresult, hcode⟩ := runComments_ok policy source sourceName
  rw [h, Except.ok.injEq] at hresult
  rw [← hresult, Session.code_withoutComments] at hcode
  exact hcode

/-- What is left of the comments that the policy removes are those that had to stay. -/
theorem held_of_cut_iff {removed : List Span}
    (hremoved :
      removed = (Session.withoutComments source sourceName policy.removesCommentText).removed)
    (hall : Comment.all (cut source removed) =
      ((Comment.all source).filter fun c => !Span.covers removed c.span.start).map
        (Comment.afterCut removed)) :
    (∀ c ∈ Comment.all (cut source removed), policy.removesCommentText c.text = true →
        Padding.Held (cut source removed) c) ↔
      ∀ c ∈ Comment.all source, policy.removesCommentText c.text = true → Padding.Held source c →
        Padding.StillHeld source removed c := by
  have hcut : Cuttable source removed := by
    rw [hremoved]
    exact Session.cuttable_withoutComments source sourceName _
  rw [hall, List.forall_mem_map]
  constructor
  · intro hleft c hc hremoves hheld
    have hkept := Session.covers_start_of_held sourceName policy.removesCommentText hc hheld
    rw [← hremoved] at hkept
    rw [← Padding.held_afterCut_iff_stillHeld hcut (Comment.standsIn_of_mem hc)]
    exact hleft c (List.mem_filter.mpr ⟨hc, by rw [hkept]; rfl⟩) hremoves
  · intro hstill c hc hremoves
    obtain ⟨hmem, hkept⟩ := List.mem_filter.mp hc
    rw [Padding.held_afterCut_iff_stillHeld hcut (Comment.standsIn_of_mem hmem)]
    apply hstill c hmem hremoves
    -- A comment that could go is gone.
    by_contra hfree
    have hgone := Session.covers_start_of_not_held sourceName hmem hremoves hfree
    rw [← hremoved] at hgone
    rw [hgone] at hkept
    exact absurd hkept (by simp)

/-- A second pass over comments changes nothing if and only if, of the comments that the first one
left, each that the policy removes has to stay.  If the scanner does not notice what the first pass
took out, this can be told from the source: every comment that the policy removes and that had to stay
there still has to, by what is kept beside it. -/
theorem runComments_twice (h : (runComments policy source sourceName).result = .ok (some out)) :
    let removed := (Session.withoutComments source sourceName policy.removesCommentText).removed
    out.code = cut source removed ∧
    ((runComments policy out.code sourceName).result = .ok none ↔
      ∀ c ∈ Comment.all out.code, policy.removesCommentText c.text = true →
        Padding.Held out.code c) ∧
    ((∀ r ∈ removed, Scanner.Seam source removed r) →
      (Scanner.splitHashbang out.code.toList).1 = (Scanner.splitHashbang source.toList).1 →
      ((runComments policy out.code sourceName).result = .ok none ↔
        ∀ c ∈ Comment.all source, policy.removesCommentText c.text = true →
          Padding.Held source c → Padding.StillHeld source removed c)) := by
  intro removed
  have hcode := code_of_runComments h
  have hsecond := runComments_eq_none_iff policy out.code sourceName
  refine ⟨hcode, hsecond, fun hseams hline => hsecond.trans ?_⟩
  rw [hcode] at hline ⊢
  have hcut : Cuttable source removed :=
    Session.cuttable_withoutComments source sourceName policy.removesCommentText
  exact held_of_cut_iff rfl (Comment.all_cut hcut hseams hline)

/-- A comment over two lines between code, which has to stay, in front of one that goes. -/
theorem runComments_twice_multiline :
    ∃ out, (runComments (Policy.ofPreset none) "a(/*x\n*/b);\n// y\nc();\n" "a.js").result =
        .ok (some out) ∧ out.code = "a(/*x\n*/b);\nc();\n" ∧
      (runComments (Policy.ofPreset none) out.code "a.js").result = .ok none := by
  have hfirst : (runComments (Policy.ofPreset none) "a(/*x\n*/b);\n// y\nc();\n" "a.js").result =
      .ok (some ⟨"a(/*x\n*/b);\nc();\n",
        "\x7b\"version\":3,\"sources\":[\"a.js\"],\"names\":[],\"mappings\":\"AAAA;AACA;AAEA\"\x7d"⟩) := by
    decide +kernel
  have hremoved : (Session.withoutComments "a(/*x\n*/b);\n// y\nc();\n" "a.js"
      (Policy.ofPreset none).removesCommentText).removed = [⟨12, 17⟩] := by
    decide +kernel
  have hall : Comment.all "a(/*x\n*/b);\n// y\nc();\n" =
      [⟨⟨2, 8⟩, .block, "/*x\n*/", true⟩, ⟨⟨12, 16⟩, .line, "// y", true⟩] := by
    decide +kernel
  have helev : Scanner.Reached "a(/*x\n*/b);\n// y\nc();\n" 11 ⟨true, false, 0, []⟩
      ('\n' :: "// y\nc();\n".toList) :=
    Scanner.Reached.of_walk 6 (by decide +kernel)
  have hseventeen : Scanner.Reached "a(/*x\n*/b);\n// y\nc();\n" 17 ⟨true, false, 0, []⟩
      "c();\n".toList :=
    Scanner.Reached.of_walk 9 (by decide +kernel)
  refine ⟨_, hfirst, rfl, ((runComments_twice hfirst).2.2 ?_ (by decide +kernel)).mpr ?_⟩
  · intro r hr
    rw [hremoved, List.mem_singleton] at hr
    rw [hr]
    exact .of_space helev rfl rfl hseventeen
  · intro c hc _ hheld
    rw [hall] at hc
    rw [hremoved]
    simp only [List.mem_cons, List.not_mem_nil, or_false] at hc
    rcases hc with rfl | rfl
    · refine ⟨⟨1, by decide, by decide +kernel, by decide +kernel, ?_⟩,
        ⟨8, by decide +kernel, by decide, by decide +kernel, by decide +kernel, ?_⟩,
        Or.inl (by decide +kernel)⟩
      -- No byte stands between the comment and the one beside it.
      · intro k hk hlt
        dsimp only at hk hlt
        omega
      · intro k hk hlt
        dsimp only at hk hlt
        omega
    · exact absurd (Padding.comment_eq_none_iff.mpr hheld) (by decide +kernel)

-- Each of the two comments stands beside the slash of the other one.
example :
    (runComments (Policy.ofPreset none) "a+/*x*//*y*/b" "a.js").result.map
        (Option.map Pruned.code) = .ok (some "a+/*x*/b") ∧
      (runComments (Policy.ofPreset none) "a+/*x*/b" "a.js").result.map
        (Option.map Pruned.code) = .ok (some "a+b") := by
  decide +kernel

end Pass

end JsPrune
