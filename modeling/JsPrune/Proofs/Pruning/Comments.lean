import JsPrune.Proofs.Session.Comments
import JsPrune.Proofs.Session.Lifecycle
import JsPrune.Pruning
/-!
# The pass over comments

The pass over comments leaves a script alone exactly if every comment that is to go has to stay where
it stands: between code on both sides of its line, and holding two lines or two tokens apart.
-/

namespace JsPrune

namespace Padding

/-- A comment that has to stay: code stands on both sides of its line, and without it two lines would
be one, or two bytes without a blank between them. -/
structure Held (source : String) (c : Comment) : Prop where
  code_before : (Margin.ofSpan source c.span).opensLine = false
  code_behind : (Margin.ofSpan source c.span).closesLine = false
  apart : c.isMultiline = true ∨
    (Margin.ofSpan source c.span).start = c.span.start ∧
      (Margin.ofSpan source c.span).stop = c.span.stop ∧ gluesAround source c.span = true

theorem embedded_eq_none_iff {source : String} {c : Comment} {margin : Margin} :
    embedded source c margin = none ↔
      c.isMultiline = true ∨
        margin.start = c.span.start ∧ margin.stop = c.span.stop ∧
          gluesAround source c.span = true := by
  unfold embedded
  dsimp only
  split_ifs with hlines hglues hblanks
  · exact iff_of_true rfl (Or.inl hlines)
  · simp only [Bool.and_eq_true, beq_iff_eq, and_assoc] at hglues
    exact iff_of_true rfl (Or.inr hglues)
  all_goals
    simp only [Bool.and_eq_true, beq_iff_eq, and_assoc] at hglues
    exact iff_of_false (by simp) (not_or.mpr ⟨hlines, hglues⟩)

theorem comment_eq_none_iff {source : String} {c : Comment} :
    comment source c = none ↔ Held source c := by
  have hheld : Held source c ↔ (Margin.ofSpan source c.span).opensLine = false ∧
      (Margin.ofSpan source c.span).closesLine = false ∧
      embedded source c (Margin.ofSpan source c.span) = none := by
    rw [embedded_eq_none_iff]
    exact ⟨fun h => ⟨h.code_before, h.code_behind, h.apart⟩, fun h => ⟨h.1, h.2.1, h.2.2⟩⟩
  rw [hheld, comment]
  cases (Margin.ofSpan source c.span).opensLine <;>
    cases (Margin.ofSpan source c.span).closesLine <;> simp

end Padding

namespace Session

theorem elim_finish (session : Session) :
    session.finish.elim session.source Pruned.code = session.code := by
  unfold finish
  cases hchanged : session.hasChanged with
  | true => rfl
  | false =>
      rw [hasChanged, Bool.not_eq_false', List.isEmpty_iff] at hchanged
      exact (code_of_unchanged hchanged).symm

end Session

namespace Pass

theorem markComments_new (policy : Policy) (source sourceName : String) :
    policy.markComments (Session.new source sourceName) =
      .ok ((Session.new source sourceName).addMarks .comment
        (((Comment.all source).filter fun c => policy.removesCommentText c.text).filterMap
          (Padding.comment source))) := by
  rw [← Decision.chosen_of_text]
  rfl

/-- The pass over comments changes nothing if and only if every comment that is to go has to stay. -/
theorem runComments_eq_none_iff (policy : Policy) (source sourceName : String) :
    (runComments policy source sourceName).result = .ok none ↔
      ∀ c ∈ Comment.all source, policy.removesCommentText c.text = true →
        Padding.Held source c := by
  have hresult : (runComments policy source sourceName).result =
      .ok ((Session.new source sourceName).addMarks .comment
        (((Comment.all source).filter fun c => policy.removesCommentText c.text).filterMap
          (Padding.comment source))).finish := by
    rw [runComments, markComments_new]
    rfl
  have hempty : ∀ spans : List Span,
      ((Session.new source sourceName).addMarks .comment spans).finish = none ↔ spans = [] := by
    intro spans
    cases spans <;> simp [Session.finish, Session.hasChanged, Session.addMarks, Session.new]
  rw [hresult, Except.ok.injEq, hempty, List.filterMap_eq_nil_iff]
  simp only [List.mem_filter, and_imp, Padding.comment_eq_none_iff]

end Pass

end JsPrune
