import JsPrune.Script.Parse
import JsPrune.Script.Removal
import JsPrune.Session
/-!
# Pruning a script

Three passes over a script: one removes statements, which takes a syntax tree, one removes comments,
which does not, and one does both at once, so that a single map covers every removal.
-/

namespace JsPrune

/-- A pruned script, and the text of the map back to the script before. -/
structure Pruned where
  code : String
  map : String
  deriving DecidableEq, Repr

structure Outcome where
  /-- The pruned script; `none` if nothing was removed. -/
  result : Except Error (Option Pruned)
  /-- What the pass asked the filters of the user, in order. -/
  queries : List Query

inductive Pass where
  /-- Removes debugger statements and console calls. -/
  | statements
  | comments
  /-- Removes both. -/
  | everything
  deriving DecidableEq, Repr

namespace Policy

def removesCommentText (policy : Policy) (text : String) : Bool :=
  policy.removesComment (Category.ofText text) text

def commentQueries (policy : Policy) (source : String) : List Query :=
  (Comment.all source).flatMap fun comment =>
    policy.commentQuery (Category.ofText comment.text) comment.text

end Policy

namespace Session

def markRemovals (session : Session) : List Script.Removal → Except Error Session
  | [] => .ok session
  | r :: rest => do
    let next ← session.markConstruct r.span.start r.span.stop r.construct r.placement
    next.markRemovals rest

def finish (session : Session) : Option Pruned :=
  if session.hasChanged then some ⟨session.code, session.sourceMap.render⟩ else none

end Session

def Policy.markStatements (parser : Parser) (policy : Policy) (session : Session) :
    Except Error Session × List Query :=
  match parser.tree session.source with
  | .error error => (.error error, [])
  | .ok tree =>
    let found := Script.findings policy session.source .root tree
    (session.markRemovals (Script.Finding.removals found), Script.Finding.queries found)

def Policy.markComments (policy : Policy) (session : Session) : Except Error Session :=
  (session.markComments policy.removesCommentText).map Prod.snd

namespace Pass

/-- Removes statements from a script.  Where no statement can go, it is not even parsed. -/
def runStatements (parser : Parser) (policy : Policy) (source sourceName : String) : Outcome :=
  if policy.removesStatements then
    let (marked, queries) := policy.markStatements parser (Session.new source sourceName)
    ⟨marked.map Session.finish, queries⟩
  else ⟨.ok none, []⟩

def runComments (policy : Policy) (source sourceName : String) : Outcome :=
  ⟨(policy.markComments (Session.new source sourceName)).map Session.finish,
    policy.commentQueries source⟩

/-- Removes statements and comments from a script.  If it cannot be parsed, no comment is looked
at. -/
def runEverything (parser : Parser) (policy : Policy) (source sourceName : String) : Outcome :=
  let session := Session.new source sourceName
  let (marked, queries) :=
    if policy.removesStatements then policy.markStatements parser session else (.ok session, [])
  match marked with
  | .error error => ⟨.error error, queries⟩
  | .ok session =>
    ⟨(policy.markComments session).map Session.finish, queries ++ policy.commentQueries source⟩

def run (pass : Pass) (policy : Policy) (source sourceName : String) : Outcome :=
  match pass with
  | .statements => runStatements Script.parser policy source sourceName
  | .comments => runComments policy source sourceName
  | .everything => runEverything Script.parser policy source sourceName

end Pass

end JsPrune
