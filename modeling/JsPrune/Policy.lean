import JsPrune.Comment.Category
import JsPrune.Options.Basic
/-!
# Policies

A policy is what options come down to: for every kind of comment, for every console call and for
debugger statements it says whether they go.  Where the user gave a filter, the policy asks it, and
`Query` records what it asks.
-/

namespace JsPrune

inductive CallRule where
  | all (remove : Bool)
  /-- Removes the calls of the included methods that are not excluded. -/
  | methods (included excluded : List String)
  /-- Removes the calls whose method and text the filter accepts. -/
  | filter (accepts : String → String → Bool)

inductive Query where
  | license (text : String)
  | documentation (text : String)
  | call (method text : String)
  deriving DecidableEq, Repr

namespace CommentRule

def isActive : CommentRule → Bool
  | .all remove => remove
  | .filter _ => true

def removes : CommentRule → String → Bool
  | .all remove, _ => remove
  | .filter accepts, text => accepts text

def query (about : String → Query) : CommentRule → String → List Query
  | .all _, _ => []
  | .filter _, text => [about text]

end CommentRule

namespace CallRule

def isActive : CallRule → Bool
  | .all remove => remove
  | _ => true

def removes : CallRule → String → String → Bool
  | .all remove, _, _ => remove
  | .methods included excluded, method, _ => included.contains method && !excluded.contains method
  | .filter accepts, method, text => accepts method text

def query : CallRule → String → String → List Query
  | .filter _, method, text => [.call method text]
  | _, _, _ => []

end CallRule

def consoleMethods : List String :=
  ["assert", "clear", "context", "count", "countReset", "createTask", "debug", "dir", "dirxml",
   "error", "group", "groupCollapsed", "groupEnd", "info", "log", "profile", "profileEnd", "table",
   "time", "timeEnd", "timeLog", "timeStamp", "trace", "warn"]

/-- The methods of a console that report to the users of an application. -/
def reportingMethods : List String := ["info", "warn", "error", "debug"]

structure Policy where
  licenses : CommentRule
  docs : CommentRule
  annotations : Bool
  console : CallRule
  debugger : Bool

namespace Policy

def ofPreset : Option Preset → Policy
  | none => ⟨.all true, .all true, true, .all true, true⟩
  | some .library => ⟨.all false, .all false, false, .all true, true⟩
  | some .application =>
    ⟨.all false, .all true, true, .methods consoleMethods reportingMethods, true⟩

def callRule (fallback : CallRule) : Option ConsoleOption → CallRule
  | none => fallback
  | some (.all remove) => .all remove
  | some (.filter accepts) => .filter accepts
  | some (.methods included excluded) =>
    .methods (included.getD consoleMethods) (excluded.getD [])

/-- The policy of options.  What they leave open, the preset decides. -/
def ofOptions (options : Options) : Policy :=
  let preset := ofPreset options.preset
  let settled := { preset with
    console := callRule preset.console options.console
    debugger := options.debugger.getD preset.debugger }
  match options.comments with
  | none => settled
  | some (.all remove) =>
    { settled with licenses := .all remove, docs := .all remove, annotations := remove }
  | some (.byCategory rules) =>
    { settled with
      licenses := rules.licenses.getD preset.licenses
      docs := rules.docs.getD preset.docs
      annotations := rules.annotations.getD preset.annotations }

def removesStatements (policy : Policy) : Bool :=
  policy.debugger || policy.console.isActive

def removesComment (policy : Policy) (category : Category) (text : String) : Bool :=
  match category with
  | .license => policy.licenses.removes text
  | .documentation => policy.docs.removes text
  | .hint => policy.annotations
  | .meaningless => true

def commentQuery (policy : Policy) (category : Category) (text : String) : List Query :=
  match category with
  | .license => policy.licenses.query .license text
  | .documentation => policy.docs.query .documentation text
  | _ => []

end Policy

end JsPrune
