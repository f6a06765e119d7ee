import JsPrune.Padding
import JsPrune.Policy
import JsPrune.Script.Tree
/-!
# What a policy removes from a script

A walk over the syntax tree finds the debugger statements and the console calls that can go without
harm to what is around them: a debugger statement in a list of statements, and a call that is the
whole expression of an expression statement in such a list.  What is removed is not looked into.

The policy is asked about every console call that the walk meets, wherever it stands.
-/

namespace JsPrune.Script

structure Removal where
  span : Span
  construct : Construct
  placement : Placement
  deriving DecidableEq, Repr

inductive Finding where
  | removal (removal : Removal)
  | query (query : Query)
  deriving DecidableEq, Repr

/-- The method of a console call: the property of a member of the variable `console`. -/
def consoleMethod? (source : String) : Tree → Option String
  | .node .call _ (.node .member _ [.node .identifier object _, .node .property method _] :: _) =>
    if Text.slice? source object.start object.stop = some "console" then
      Text.slice? source method.start method.stop
    else none
  | _ => none

def consoleCall? (source : String) (tree : Tree) : Option (String × String) := do
  let method ← consoleMethod? source tree
  let text ← Text.slice? source tree.span.start tree.span.stop
  some (method, text)

/-- Where a node stands: what its parent is, and what the parent of that is. -/
structure Surrounding where
  parent : Option Kind
  grandparent : Option Kind
  deriving DecidableEq, Repr

namespace Surrounding

def root : Surrounding := ⟨none, none⟩

def below (around : Surrounding) (kind : Kind) : Surrounding := ⟨some kind, around.parent⟩

def inStatementList (around : Surrounding) : Bool :=
  around.parent.any Kind.isStatementList

def isListedExpression (around : Surrounding) : Bool :=
  around.parent == some .expressionStatement && around.grandparent.any Kind.isStatementList

end Surrounding

/-- What the walk finds at a node itself, and whether it removes the node. -/
def inspect (policy : Policy) (source : String) (around : Surrounding) (tree : Tree) :
    List Finding × Bool :=
  match tree.kind with
  | .debuggerStatement =>
    if policy.debugger && around.inStatementList then
      ([.removal ⟨tree.span, .statement, .statementList⟩], true)
    else ([], false)
  | .call =>
    match consoleCall? source tree with
    | none => ([], false)
    | some (method, text) =>
      let queries := (policy.console.query method text).map Finding.query
      if policy.console.removes method text && around.isListedExpression then
        (queries ++ [.removal ⟨tree.span, .expression, .expressionStatement⟩], true)
      else (queries, false)
  | _ => ([], false)

mutual

def findings (policy : Policy) (source : String) (around : Surrounding) : Tree → List Finding
  | .node kind span parts =>
    let (found, removed) := inspect policy source around (.node kind span parts)
    if removed then found
    else found ++ findingsIn policy source (around.below kind) parts

def findingsIn (policy : Policy) (source : String) (around : Surrounding) :
    List Tree → List Finding
  | [] => []
  | tree :: trees => findings policy source around tree ++ findingsIn policy source around trees

end

namespace Finding

def removals (found : List Finding) : List Removal :=
  found.filterMap fun
    | .removal r => some r
    | .query _ => none

def queries (found : List Finding) : List Query :=
  found.filterMap fun
    | .removal _ => none
    | .query q => some q

end Finding

end JsPrune.Script
