import JsPrune.Proofs.Guarded.Scanner
import JsPrune.Proofs.Guarded.SourceMap
import JsPrune.Proofs.Session.Exactness
/-!
# Sessions that ask before they read

Every request of a session can be answered without a read outside the source, a difference below zero
or a slice through a character, whatever was asked before and whatever the spans and decisions are.
-/

namespace JsPrune

def Session.answers (session : Session) : List Request → List Answer
  | [] => []
  | request :: requests =>
    (session.answer request).1 :: answers (session.answer request).2 requests

namespace Guarded

open Text

def markConstruct (session : Session) (start stop : Nat) (kind : Construct)
    (placement : Placement) : Option (Answer × Session) :=
  if session.closed then some (.refused .sessionClosed, session)
  else
    match Span.ofBounds session.source start stop with
    | .error error => some (.refused error, session)
    | .ok span => do
      let wide ← construct session.source span kind placement
      some (.marked, session.addMarks .construct [wide])

def markComments (session : Session) (decision : Decision) : Option (Answer × Session) :=
  if session.closed then some (.refused .sessionClosed, session)
  else do
    let comments ← comments session.source
    let chosen := decision.chosen comments
    let wide ← chosen.mapM (comment session.source)
    let spans := wide.filterMap id
    let malformed := (comments.filter fun comment => !comment.terminated).map fun comment =>
      Error.unterminatedComment comment.span.start
    some (.report ⟨comments.length, spans.length, chosen.length - spans.length, malformed,
      comments.map Comment.text⟩, session.addMarks .comment spans)

def mapOf (session : Session) : Option SourceMap := do
  let finished ← finish session
  sourceMap session.source finished.code session.sourceName finished.removed

def answer (session : Session) : Request → Option (Answer × Session)
  | .markConstruct start stop kind placement => markConstruct session start stop kind placement
  | .markComments decision => markComments session decision
  | .code => do
    let finished ← finish session
    some (.code finished.code, session.close)
  | .removed => do
    let finished ← finish session
    some (.removed finished.removed, session.close)
  | .sourceMap => do
    let map ← mapOf session
    some (.sourceMap map, session.close)
  | .renderedMap => do
    let map ← mapOf session
    some (.renderedMap map.render, session.close)

def answers (session : Session) : List Request → Option (List Answer)
  | [] => some []
  | request :: requests => do
    let (first, next) ← answer session request
    let later ← answers next requests
    some (first :: later)

/-! ## One request -/

/-- All that is marked in a session starts and stops at boundaries. -/
def Sound (session : Session) : Prop :=
  Padding.AtBoundaries session.source (session.marks.map Mark.span)

theorem sound_answer {session : Session} (h : Sound session) (request : Request) :
    Sound (session.answer request).2 := by
  obtain ⟨hsource, hmarks, hsound⟩ := session.answer_spec request
  rw [Sound, hsource, hmarks]
  intro r hr
  rcases List.mem_append.mp hr with hr | hr
  · exact h r hr
  · exact Session.atBoundaries_marks hsound r hr

theorem markConstruct_eq (session : Session) (start stop : Nat) (kind : Construct)
    (placement : Placement) :
    markConstruct session start stop kind placement =
      some (session.answer (.markConstruct start stop kind placement)) := by
  unfold markConstruct Session.answer Session.markConstruct
  by_cases hclosed : session.closed = true
  · simp only [hclosed, if_true]
  rw [if_neg hclosed]
  by_cases hvalid : start < stop ∧ stop ≤ session.source.utf8ByteSize ∧
      isBoundary session.source start = true ∧ isBoundary session.source stop = true
  · have hspan : Span.ofBounds session.source start stop = .ok ⟨start, stop⟩ := if_pos hvalid
    have hwide : construct session.source ⟨start, stop⟩ kind placement =
        some (Padding.construct session.source ⟨start, stop⟩ kind placement) :=
      construct_eq hvalid.1 hvalid.2.1 kind placement
    simp only [hclosed, hspan, hwide]
    rfl
  · have hspan : Span.ofBounds session.source start stop =
        .error (.invalidSpan start stop session.source.utf8ByteSize) := if_neg hvalid
    simp only [hclosed, hspan]
    rfl

theorem markComments_eq (session : Session) (decision : Decision) :
    markComments session decision = some (session.answer (.markComments decision)) := by
  have hcomment : ∀ c ∈ decision.chosen (Comment.all session.source),
      comment session.source c = some (Padding.comment session.source c) := fun c hc => by
    have hstands := Comment.standsIn_of_mem (Decision.mem_of_mem_chosen hc)
    have htwo := hstands.start_add_two_le
    exact comment_eq (by omega) (le_size_of_isBoundary hstands.boundary.2)
  unfold markComments Session.answer Session.markComments
  by_cases hclosed : session.closed = true
  · simp only [hclosed, if_true]
  · simp only [hclosed, comments_eq, mapM_eq_some hcomment, Option.bind_eq_bind, Option.bind_some,
      List.filterMap_map, Function.id_comp]
    rfl

theorem mapOf_eq {session : Session} (h : Sound session) : mapOf session = some session.sourceMap := by
  rw [mapOf, finish_eq h, Option.bind_eq_bind, Option.bind_some, sourceMap_eq, Session.sourceMap]

/-- A session with sound marks answers every request. -/
theorem answer_eq {session : Session} (h : Sound session) (request : Request) :
    answer session request = some (session.answer request) := by
  cases request with
  | markConstruct start stop kind placement => exact markConstruct_eq session start stop kind placement
  | markComments decision => exact markComments_eq session decision
  | code => rw [answer, finish_eq h]; rfl
  | removed => rw [answer, finish_eq h]; rfl
  | sourceMap => rw [answer, mapOf_eq h]; rfl
  | renderedMap => rw [answer, mapOf_eq h]; rfl

/-! ## All requests -/

theorem answers_eq {session : Session} (h : Sound session) (requests : List Request) :
    answers session requests = some (session.answers requests) := by
  induction requests generalizing session with
  | nil => rfl
  | cons request requests ih =>
      simp only [answers, answer_eq h, ih (sound_answer h request), Option.bind_eq_bind,
        Option.bind_some, Session.answers]

end Guarded

namespace Session

open Text

/-- No request asks for a byte outside the source, a difference below zero or a slice that is none:
the guarded session answers all requests, and as the session does.  What the marks of a session come
down to, before and after they are widened once more, are spans that hold something and start and stop
at boundaries of the source. -/
theorem answers_guarded (source sourceName : String) (requests : List Request) :
    Guarded.answers (new source sourceName) requests =
      some ((new source sourceName).answers requests) ∧
    ∀ r, r ∈ Span.union (((new source sourceName).after requests).marks.map Mark.span) ∨
        r ∈ ((new source sourceName).after requests).removed →
      r.start < r.stop ∧ r.stop ≤ source.utf8ByteSize ∧
        isBoundary source r.start = true ∧ isBoundary source r.stop = true := by
  refine ⟨Guarded.answers_eq (by simp [Guarded.Sound, Padding.AtBoundaries, new]) requests, ?_⟩
  have hcut := cuttable_after_new source sourceName requests
  have hmarks := (atBoundaries_marks (sound_grants_new source sourceName requests)).union
  rw [← marks_after_new] at hmarks
  rintro r (hr | hr)
  · have hboundary := hmarks r hr
    exact ⟨(Span.canonical_union _).nonempty r hr, le_size_of_isBoundary hboundary.2, hboundary⟩
  · have hboundary := hcut.boundary r hr
    exact ⟨hcut.canonical.nonempty r hr, le_size_of_isBoundary hboundary.2, hboundary⟩

end Session

end JsPrune
