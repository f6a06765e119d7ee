import JsPrune.Comment.Scanner
import JsPrune.SourceMap.Basic
/-!
# Sessions

A session collects marks against one source and gives the result: the code that is left, the spans
that were removed, and the map from the code to the source.  The first result closes the session;
every mark after it is turned down.
-/

namespace JsPrune

/-- What marks come down to: the spans that they remove, and the code without them. -/
structure Finalized where
  removed : List Span
  code : String
  deriving DecidableEq, Repr

def Finalized.ofMarks (source : String) (marks : List Mark) : Finalized :=
  let removed := Mark.removed source marks
  ⟨removed, Text.cut source removed⟩

/-- One source and what is marked in it.  The first result fills `finalized`, which every later one is
taken from. -/
structure Session where
  source : String
  /-- The name of the source in source maps. -/
  sourceName : String
  marks : List Mark
  finalized : Option Finalized
  agrees : ∀ result ∈ finalized, result = Finalized.ofMarks source marks
  deriving DecidableEq, Repr

structure CommentReport where
  scanned : Nat
  /-- The number of comments that were marked. -/
  removed : Nat
  /-- The number of comments that were to go, but hold code apart. -/
  skipped : Nat
  /-- An error for every comment that does not end. -/
  malformed : List Error
  offered : List String
  deriving DecidableEq, Repr

/-- Whether a comment is to go, by the texts that were asked about before it and by its own. -/
structure Decision where
  accepts : List String → String → Bool

namespace Decision

instance : Coe (String → Bool) Decision := ⟨fun accepts => ⟨fun _ => accepts⟩⟩

def chosenAfter (decision : Decision) (asked : List String) : List Comment → List Comment
  | [] => []
  | comment :: comments =>
    let later := decision.chosenAfter (asked ++ [comment.text]) comments
    if decision.accepts asked comment.text then comment :: later else later

def chosen (decision : Decision) (comments : List Comment) : List Comment :=
  decision.chosenAfter [] comments

end Decision

namespace Session

def new (source sourceName : String) : Session := ⟨source, sourceName, [], none, by simp⟩

def hasChanged (session : Session) : Bool := !session.marks.isEmpty

def closed (session : Session) : Bool := session.finalized.isSome

def addMarks (session : Session) (kind : Mark.Kind) (spans : List Span) : Session :=
  ⟨session.source, session.sourceName, session.marks ++ spans.map fun span => ⟨span, kind⟩, none,
    by simp⟩

def markConstruct (session : Session) (start stop : Nat) (construct : Construct)
    (placement : Placement) : Except Error Session :=
  if session.closed then .error .sessionClosed
  else do
    let span ← Span.ofBounds session.source start stop
    .ok (session.addMarks .construct [Padding.construct session.source span construct placement])

/-- Marks the comments that a decision accepts, unless they hold code apart. -/
def markComments (session : Session) (decision : Decision) :
    Except Error (CommentReport × Session) :=
  if session.closed then .error .sessionClosed
  else
    let comments := Comment.all session.source
    let chosen := decision.chosen comments
    let spans := chosen.filterMap (Padding.comment session.source)
    let malformed := (comments.filter fun comment => !comment.terminated).map fun comment =>
      Error.unterminatedComment comment.span.start
    .ok (⟨comments.length, spans.length, chosen.length - spans.length, malformed,
      comments.map Comment.text⟩, session.addMarks .comment spans)

/-- What the session has come down to, which is found out when it is first asked for. -/
def result (session : Session) : Finalized :=
  session.finalized.getD (Finalized.ofMarks session.source session.marks)

theorem result_eq (session : Session) :
    session.result = Finalized.ofMarks session.source session.marks := by
  unfold result
  cases hslot : session.finalized with
  | none => rfl
  | some result => exact session.agrees result hslot

def removed (session : Session) : List Span := session.result.removed

def code (session : Session) : String := session.result.code

def sourceMap (session : Session) : SourceMap :=
  SourceMap.ofCut session.source session.code session.sourceName session.removed

def close (session : Session) : Session :=
  { session with
    finalized := some session.result
    agrees := by simp [result_eq] }

theorem removed_eq (session : Session) :
    session.removed = Mark.removed session.source session.marks :=
  congrArg Finalized.removed session.result_eq

theorem code_eq (session : Session) : session.code = Text.cut session.source session.removed := by
  rw [code, removed, result_eq]
  rfl

end Session

inductive Request where
  | markConstruct (start stop : Nat) (construct : Construct) (placement : Placement)
  | markComments (decision : Decision)
  | code
  | removed
  | sourceMap
  | renderedMap

inductive Answer where
  | marked
  | report (report : CommentReport)
  | refused (error : Error)
  | code (code : String)
  | removed (spans : List Span)
  | sourceMap (map : SourceMap)
  | renderedMap (text : String)
  deriving DecidableEq, Repr

namespace Session

/-- Answers a request.  A request that is refused changes nothing, and every result closes the
session. -/
def answer (session : Session) : Request → Answer × Session
  | .markConstruct start stop construct placement =>
    match session.markConstruct start stop construct placement with
    | .ok next => (.marked, next)
    | .error error => (.refused error, session)
  | .markComments decision =>
    match session.markComments decision with
    | .ok (report, next) => (.report report, next)
    | .error error => (.refused error, session)
  | .code => (.code session.code, session.close)
  | .removed => (.removed session.removed, session.close)
  | .sourceMap => (.sourceMap session.sourceMap, session.close)
  | .renderedMap => (.renderedMap session.sourceMap.render, session.close)

end Session

end JsPrune
