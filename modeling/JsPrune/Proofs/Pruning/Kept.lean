import JsPrune.Proofs.Padding.Sparing
import JsPrune.Proofs.Pruning.Comments
import JsPrune.Proofs.SourceMap.Segments
/-!
# Comments that are kept

A request to remove comments leaves the other ones as they are: those that were not chosen, and those
that were but have to stay.  Each lies in one segment of the cut, so its text is in the output from
one end to the other, and the texts keep their order.
-/

namespace JsPrune

open String (utf8Len)
open Text

/-- Texts stand among some characters as a whole, one behind the other. -/
def Text.HoldsInOrder : List Char → List String → Prop
  | _, [] => True
  | cs, text :: texts =>
    ∃ front behind, cs = front ++ text.toList ++ behind ∧ HoldsInOrder behind texts

/-- The comments that a request leaves alone: those that were not chosen, and those that have to
stay. -/
def Decision.kept (decision : Decision) (source : String) : List Comment :=
  (Comment.all source).filter fun c =>
    !((decision.chosen (Comment.all source)).contains c && (Padding.comment source c).isSome)

namespace Text

variable {source : String} {removed : List Span}

/-- What is kept of a text up to a part that is kept as a whole, the part, and what is kept of the
rest. -/
theorem keep_part {before part after : List Char} {offset : Nat} {s : Span}
    (hstart : s.start = offset + utf8Len before)
    (hstop : s.stop = offset + utf8Len before + utf8Len part)
    (hapart : ∀ r ∈ removed, r.Apart s) :
    keep removed offset (before ++ part ++ after) =
      keep removed offset before ++ part ++ keep removed s.stop after := by
  have hself : keep removed (offset + utf8Len before) part = part :=
    keep_eq_self fun i hi hlt => Span.covers_eq_false_of_apart hapart (by omega) (by omega)
  rw [keep_append, keep_append, hself, String.utf8Len_append, ← Nat.add_assoc, ← hstop]

theorem holdsInOrder_keep {before rest : List Char} {comments : List Comment}
    (hs : source.toList = before ++ rest)
    (hplaced : ∀ c ∈ comments, c.StandsIn source ∧ utf8Len before ≤ c.span.start)
    (hascend : comments.Pairwise fun c d => c.span.stop ≤ d.span.start)
    (hapart : ∀ c ∈ comments, ∀ r ∈ removed, r.Apart c.span) :
    HoldsInOrder (keep removed (utf8Len before) rest) (comments.map Comment.text) := by
  induction comments generalizing before rest with
  | nil => trivial
  | cons c comments ih =>
      obtain ⟨hstands, hle⟩ := hplaced c List.mem_cons_self
      obtain ⟨front, after, hs', hstart, hstop, -⟩ := hstands
      rw [hstart] at hle
      rw [List.append_assoc] at hs'
      -- What is kept before the first comment is the front, and the others are in what is kept
      -- behind it.
      obtain ⟨part, rfl, rfl⟩ := exists_append_of_utf8Len_le (hs.symm.trans hs') hle
      rw [String.utf8Len_append] at hstart hstop
      rw [← List.append_assoc part, keep_part hstart hstop (hapart c List.mem_cons_self)]
      refine ⟨_, _, rfl, ?_⟩
      have hbehind : c.span.stop = utf8Len (before ++ part ++ c.text.toList) := by
        rw [hstop, String.utf8Len_append, String.utf8Len_append]
      obtain ⟨hnext, hascend⟩ := List.pairwise_cons.mp hascend
      rw [hbehind] at hnext ⊢
      refine ih ?_ ?_ hascend fun d hd => hapart d (List.mem_cons_of_mem _ hd)
      · rw [hs', List.append_assoc (before ++ part)]
      · exact fun d hd => ⟨(hplaced d (List.mem_cons_of_mem _ hd)).1, hnext d hd⟩

/-- What stands in a text, apart from what is cut, lies in one segment, which says where it is in the
output. -/
theorem exists_segment_of_apart {c : Comment} (h : Cuttable source removed)
    (hc : c.StandsIn source) (hapart : ∀ r ∈ removed, r.Apart c.span) :
    ∃ segment ∈ Segment.kept source.utf8ByteSize removed,
      segment.original ≤ c.span.start ∧ c.span.stop ≤ segment.original + segment.length ∧
      ∃ front behind, (cut source removed).toList = front ++ c.text.toList ++ behind ∧
        utf8Len front = segment.generated + (c.span.start - segment.original) := by
  have htwo := hc.start_add_two_le
  have hsegments := Segment.exhaust_kept h
  obtain ⟨segment, hsegment, hstart, hstop⟩ := hsegments.exists_of_run (Nat.zero_le _)
    (show c.span.start < c.span.stop by omega) (le_size_of_isBoundary hc.boundary.2)
    fun i hi hlt => Span.covers_eq_false_of_apart hapart hi hlt
  have hrank := (hsegments.exact segment hsegment).1.rank_add
    (show c.span.start - segment.original ≤ segment.length by omega)
  rw [Nat.add_sub_cancel' hstart] at hrank
  obtain ⟨before, after, hs, hbefore, hbehind, -⟩ := hc
  have hlen := utf8Len_keep (hs.trans (List.append_assoc ..)) h
  rw [← hbefore] at hlen
  refine ⟨segment, hsegment, hstart, hstop, keep removed 0 before,
    keep removed c.span.stop after, ?_, hlen.trans hrank⟩
  rw [toList_cut h, hs]
  exact keep_part (by omega) (by omega) hapart

end Text

namespace Comment

theorem nodup_all (source : String) : (all source).Nodup := by
  refine (all_placed source).2.imp_of_mem fun {c d} hc _ hcd heq => ?_
  have htwo := (standsIn_of_mem hc).start_add_two_le
  rw [← heq] at hcd
  omega

end Comment

namespace Decision

theorem length_declined (decision : Decision) {comments : List Comment} (h : comments.Nodup) :
    (comments.filter fun c => !(decision.chosen comments).contains c).length +
      (decision.chosen comments).length = comments.length := by
  have hsub := decision.chosenAfter_sublist [] comments
  have hperm : (comments.filter fun c => (decision.chosen comments).contains c).Perm
      (decision.chosen comments) := by
    refine (List.perm_ext_iff_of_nodup (h.filter _) (hsub.nodup h)).mpr fun c => ?_
    rw [List.mem_filter, List.contains_iff_mem]
    exact ⟨And.right, fun hc => ⟨hsub.mem hc, hc⟩⟩
  rw [← hperm.length_eq, Nat.add_comm]
  exact (List.length_eq_length_filter_add _).symm

end Decision

namespace Session

variable {source sourceName : String} {decision : Decision} {c : Comment}

/-- What a request removes is apart from the comments that it leaves alone. -/
theorem apart_of_mem_kept (hc : c ∈ decision.kept source) :
    ∀ r ∈ (withoutComments source sourceName decision).removed, r.Apart c.span := by
  intro r hr
  rw [removed_withoutComments] at hr
  obtain ⟨hmem, hkept⟩ := List.mem_filter.mp hc
  refine Padding.apart_of_mem_removed (ofComments_withoutComments source sourceName decision) hmem
    (fun hmarked => ?_) hr
  have hchosen := chosen_of_marked source sourceName decision hmarked
  obtain ⟨-, mark, -, hmark⟩ := hmarked
  rw [List.contains_iff_mem.mpr hchosen, hmark] at hkept
  exact absurd hkept (by simp)

/-- Comments that are left alone stand in the code that is left, in their order. -/
theorem holdsInOrder_code (source sourceName : String) (decision : Decision)
    {comments : List Comment} (hsub : comments.Sublist (decision.kept source)) :
    HoldsInOrder (withoutComments source sourceName decision).code.toList
      (comments.map Comment.text) := by
  have hcut := cuttable_withoutComments source sourceName decision
  have hall := hsub.trans List.filter_sublist
  rw [code_withoutComments, toList_cut hcut]
  refine holdsInOrder_keep (List.nil_append _).symm (fun c hc => ?_)
    ((Comment.all_placed source).2.sublist hall) fun c hc r hr => ?_
  · exact ⟨Comment.standsIn_of_mem (hall.mem hc), Nat.zero_le _⟩
  · exact apart_of_mem_kept (hsub.mem hc) r hr

theorem report_withoutComments (source sourceName : String) (decision : Decision) :
    ∃ report, ((new source sourceName).answer (.markComments decision)).1 = .report report ∧
      report.scanned = (Comment.all source).length ∧
      report.removed = ((decision.chosen (Comment.all source)).filter fun c =>
        (Padding.comment source c).isSome).length ∧
      report.skipped = ((decision.chosen (Comment.all source)).filter fun c =>
        (Padding.comment source c).isNone).length := by
  have hchosen := List.length_eq_length_filter_add (l := decision.chosen (Comment.all source))
    fun c => (Padding.comment source c).isSome
  have hspans : ((decision.chosen (Comment.all source)).filterMap (Padding.comment source)).length =
      ((decision.chosen (Comment.all source)).filter fun c =>
        (Padding.comment source c).isSome).length := by
    rw [List.length_filterMap_eq_countP, List.countP_eq_length_filter]
  refine ⟨_, rfl, rfl, hspans, ?_⟩
  simp only [Option.not_isSome] at hchosen
  have hskipped : (decision.chosen (Comment.all source)).length -
      ((decision.chosen (Comment.all source)).filterMap (Padding.comment source)).length =
      ((decision.chosen (Comment.all source)).filter fun c =>
        (Padding.comment source c).isNone).length := by
    omega
  exact hskipped

end Session

namespace Pass

/-- The pass over comments never fails.  What it leaves is what a session leaves that is asked for the
comments which the policy removes. -/
theorem runComments_ok (policy : Policy) (source sourceName : String) :
    ∃ result, (runComments policy source sourceName).result = .ok result ∧
      result.elim source Pruned.code =
        (Session.withoutComments source sourceName policy.removesCommentText).code := by
  refine ⟨(Session.withoutComments source sourceName policy.removesCommentText).finish, rfl, ?_⟩
  exact Session.elim_finish (Session.withoutComments source sourceName policy.removesCommentText)

theorem mem_kept_of_not_removes {policy : Policy} {source : String} {c : Comment}
    (hc : c ∈ Comment.all source) (h : policy.removesCommentText c.text = false) :
    c ∈ (policy.removesCommentText : Decision).kept source := by
  refine List.mem_filter.mpr ⟨hc, ?_⟩
  have hdeclined : ((policy.removesCommentText : Decision).chosen (Comment.all source)).contains c =
      false := by
    rw [Bool.eq_false_iff, Ne, List.contains_iff_mem, Decision.chosen_of_text, List.mem_filter, h]
    simp
  rw [hdeclined]
  rfl

theorem sublist_kept {policy : Policy} {source : String} {p : Comment → Bool}
    (h : ∀ c, p c = true → policy.removesCommentText c.text = false) :
    ((Comment.all source).filter p).Sublist ((policy.removesCommentText : Decision).kept source) := by
  have hsame : (Comment.all source).filter p =
      ((policy.removesCommentText : Decision).kept source).filter p := by
    rw [Decision.kept, List.filter_filter]
    refine List.filter_congr fun c hc => ?_
    cases hp : p c with
    | false => rfl
    | true => exact (List.mem_filter.mp (mem_kept_of_not_removes hc (h c hp))).2.symm
  rw [hsame]
  exact List.filter_sublist

end Pass

namespace Session

/-- A comment that a request to remove comments leaves alone meets nothing that is removed.  It lies in
one segment of the cut, so its text stands in the output where this segment puts it, and the texts
of all such comments keep their order.  Every comment that was scanned is declined, removed or
skipped.  So the pass over comments, under a policy that keeps licenses, leaves the text of every
license as it is. -/
theorem kept_comments_stand (source sourceName : String) (decision : Decision) :
    (∀ c ∈ decision.kept source,
      (∀ r ∈ (withoutComments source sourceName decision).removed, r.Apart c.span) ∧
      ∃ segment ∈ Segment.kept source.utf8ByteSize
          (withoutComments source sourceName decision).removed,
        segment.original ≤ c.span.start ∧ c.span.stop ≤ segment.original + segment.length ∧
        ∃ front behind, (withoutComments source sourceName decision).code.toList =
            front ++ c.text.toList ++ behind ∧
          utf8Len front = segment.generated + (c.span.start - segment.original)) ∧
    HoldsInOrder (withoutComments source sourceName decision).code.toList
      ((decision.kept source).map Comment.text) ∧
    (∃ report, ((new source sourceName).answer (.markComments decision)).1 = .report report ∧
      report.removed = ((decision.chosen (Comment.all source)).filter fun c =>
        (Padding.comment source c).isSome).length ∧
      report.skipped = ((decision.chosen (Comment.all source)).filter fun c =>
        (Padding.comment source c).isNone).length ∧
      report.scanned = ((Comment.all source).filter fun c =>
        !(decision.chosen (Comment.all source)).contains c).length +
          report.removed + report.skipped) ∧
    ∀ policy : Policy, (∀ text, policy.licenses.removes text = false) →
      ∃ result, (Pass.runComments policy source sourceName).result = .ok result ∧
        HoldsInOrder (result.elim source Pruned.code).toList
          (((Comment.all source).filter fun c => Category.ofText c.text == .license).map
            Comment.text) := by
  refine ⟨fun c hc => ?_, ?_, ?_, fun policy hpolicy => ?_⟩
  · have hapart : ∀ r ∈ (withoutComments source sourceName decision).removed, r.Apart c.span :=
      apart_of_mem_kept hc
    rw [code_withoutComments]
    exact ⟨hapart, exists_segment_of_apart (cuttable_withoutComments source sourceName decision)
      (Comment.standsIn_of_mem (List.mem_filter.mp hc).1) hapart⟩
  · exact holdsInOrder_code source sourceName decision (List.Sublist.refl _)
  · obtain ⟨report, hanswer, hscanned, hremoved, hskipped⟩ :=
      report_withoutComments source sourceName decision
    refine ⟨report, hanswer, hremoved, hskipped, ?_⟩
    have hdeclined := decision.length_declined (Comment.nodup_all source)
    have hchosen := List.length_eq_length_filter_add (l := decision.chosen (Comment.all source))
      fun c => (Padding.comment source c).isSome
    simp only [Option.not_isSome] at hchosen
    omega
  · obtain ⟨result, hresult, hcode⟩ := Pass.runComments_ok policy source sourceName
    refine ⟨result, hresult, ?_⟩
    rw [hcode]
    refine holdsInOrder_code source sourceName _ (Pass.sublist_kept fun c hc => ?_)
    rw [Policy.removesCommentText, beq_iff_eq.mp hc]
    exact hpolicy c.text

/-- A line comment that ends in a blank and before a line separator, between comments that go. -/
theorem kept_comments_stand_separator :
    (∃ front behind, (withoutComments "  /*! l */ /*x*/\n// k \u2028/*y*/ f()" "a.js"
        ⟨fun _ text => text != "// k "⟩).code.toList = front ++ "// k ".toList ++ behind) ∧
    ∃ result, (Pass.runComments (Policy.ofPreset (some .library))
        "  /*! l */ /*x*/\n// k \u2028/*y*/ f()" "a.js").result = .ok result ∧
      HoldsInOrder (result.elim "  /*! l */ /*x*/\n// k \u2028/*y*/ f()" Pruned.code).toList
        ["/*! l */"] := by
  constructor
  · obtain ⟨-, segment, -, -, -, front, behind, hcode, -⟩ :=
      (kept_comments_stand "  /*! l */ /*x*/\n// k \u2028/*y*/ f()" "a.js"
        ⟨fun _ text => text != "// k "⟩).1 ⟨⟨17, 22⟩, .line, "// k ", true⟩ (by decide +kernel)
    exact ⟨front, behind, hcode⟩
  · obtain ⟨result, hresult, hholds⟩ :=
      (kept_comments_stand "  /*! l */ /*x*/\n// k \u2028/*y*/ f()" "a.js"
        ⟨fun _ text => text != "// k "⟩).2.2.2 (Policy.ofPreset (some .library)) fun _ => rfl
    refine ⟨result, hresult, ?_⟩
    have hlicenses : ((Comment.all "  /*! l */ /*x*/\n// k \u2028/*y*/ f()").filter fun c =>
        Category.ofText c.text == .license).map Comment.text = ["/*! l */"] := by
      decide +kernel
    rwa [hlicenses] at hholds

end Session

end JsPrune
