import JsPrune.Proofs.Pruning.Statements
import Mathlib.Logic.Relation
/-!
# The walk over a syntax tree

A walk moves over the tree from node to node: to the first part of a node, to the next part of the
node around it, and back to that node.  It climbs where nothing is left below and beside it, and looks
at no node that it comes back to.  It ends, with the findings of the tree.
-/

namespace JsPrune.Script

/-! ## Sites -/

/-- A node that a walk has gone into, with the parts on either side of the way. -/
structure Level where
  kind : Kind
  span : Span
  /-- The parts before the way, the nearest first. -/
  before : List Tree
  behind : List Tree

def Level.around (level : Level) (part : Tree) : Tree :=
  .node level.kind level.span (level.before.reverse ++ part :: level.behind)

theorem around_reverse (kind : Kind) (span : Span) (before parts : List Tree) (part : Tree) :
    Tree.node kind span ((part :: before).reverse ++ parts) =
      .node kind span (before.reverse ++ part :: parts) := by
  rw [List.reverse_cons, List.append_assoc, List.singleton_append]

/-- A node in its tree: the node itself and the way back to the root. -/
structure Site where
  node : Tree
  path : List Level

namespace Site

def root (tree : Tree) : Site := ⟨tree, []⟩

def firstPart? (s : Site) : Option Site :=
  match s.node with
  | .node _ _ [] => none
  | .node kind span (part :: parts) => some ⟨part, ⟨kind, span, [], parts⟩ :: s.path⟩

def nextSibling? (s : Site) : Option Site :=
  match s.path with
  | ⟨kind, span, before, next :: behind⟩ :: path =>
    some ⟨next, ⟨kind, span, s.node :: before, behind⟩ :: path⟩
  | _ => none

def parent? (s : Site) : Option Site :=
  match s.path with
  | [] => none
  | level :: path => some ⟨level.around s.node, path⟩

def surrounding (s : Site) : Surrounding :=
  ⟨s.parent?.map (·.node.kind), (s.parent?.bind parent?).map (·.node.kind)⟩

theorem surrounding_part (level : Level) (part node : Tree) (path : List Level) :
    (Site.mk part (level :: path)).surrounding =
      (Site.mk node path).surrounding.below level.kind := by
  cases path <;> rfl

end Site

/-! ## Walks -/

/-- How far a walk has come, and what it has found so far. -/
inductive Walk where
  /-- It is to look at a node. -/
  | visit (site : Site) (found : List Finding)
  /-- It is back from all that is below a node. -/
  | climb (site : Site) (found : List Finding)
  | done (found : List Finding)

namespace Walk

/-- The next step of a walk.  It goes down from a node that stays, and else to the next part of the
node around it, if there is one. -/
def step (policy : Policy) (source : String) : Walk → Option Walk
  | .visit site found =>
    let (new, removed) := inspect policy source site.surrounding site.node
    match (if removed then none else site.firstPart?) with
    | some part => some (.visit part (found ++ new))
    | none => some (.climb site (found ++ new))
  | .climb site found =>
    match site.nextSibling? with
    | some next => some (.visit next found)
    | none =>
      match site.parent? with
      | some parent => some (.climb parent found)
      | none => some (.done found)
  | .done _ => none

def Steps (policy : Policy) (source : String) (walk next : Walk) : Prop :=
  walk.step policy source = some next

def Reaches (policy : Policy) (source : String) : Walk → Walk → Prop :=
  Relation.ReflTransGen (Steps policy source)

def among (kind : Kind) (span : Span) (path : List Level) (before : List Tree)
    (found : List Finding) : List Tree → Walk
  | [] => .climb ⟨.node kind span before.reverse, path⟩ found
  | part :: parts => .visit ⟨part, ⟨kind, span, before, parts⟩ :: path⟩ found

variable {policy : Policy} {source : String}

theorem step_climb (kind : Kind) (span : Span) (path : List Level) (before parts : List Tree)
    (part : Tree) (found : List Finding) :
    Steps policy source (.climb ⟨part, ⟨kind, span, before, parts⟩ :: path⟩ found)
      (among kind span path (part :: before) found parts) := by
  unfold Steps
  cases parts with
  | nil =>
      rw [among, List.reverse_cons]
      rfl
  | cons next parts => rfl

theorem step_visit {kind : Kind} {span : Span} {parts : List Tree} {path : List Level}
    {new : List Finding}
    (h : inspect policy source (Site.mk (.node kind span parts) path).surrounding
      (.node kind span parts) = (new, false)) (found : List Finding) :
    Steps policy source (.visit ⟨.node kind span parts, path⟩ found)
      (among kind span path [] (found ++ new) parts) := by
  rw [Steps, step, h]
  cases parts <;> rfl

/-- A walk does not go into a node that it removes. -/
theorem step_visit_removed {tree : Tree} {path : List Level} {new : List Finding}
    (h : inspect policy source (Site.mk tree path).surrounding tree = (new, true))
    (found : List Finding) :
    Steps policy source (.visit ⟨tree, path⟩ found) (.climb ⟨tree, path⟩ (found ++ new)) := by
  rw [Steps, step, h]
  rfl

mutual

/-- A walk comes back to every node that it looks at, with the findings of this node. -/
theorem reaches_climb (path : List Level) (found : List Finding) : (tree : Tree) →
    Reaches policy source (.visit ⟨tree, path⟩ found)
      (.climb ⟨tree, path⟩
        (found ++ findings policy source (Site.mk tree path).surrounding tree))
  | .node kind span parts => by
      cases hself : inspect policy source (Site.mk (.node kind span parts) path).surrounding
        (.node kind span parts) with
      | mk new removed =>
          rw [findings, hself]
          cases removed with
          | true => exact Relation.ReflTransGen.single (step_visit_removed hself found)
          | false =>
              have hparts := reaches_climb_among kind span path [] (found ++ new) parts
              rw [List.append_assoc] at hparts
              exact hparts.head (step_visit hself found)

theorem reaches_climb_among (kind : Kind) (span : Span) (path : List Level) (before : List Tree)
    (found : List Finding) : (parts : List Tree) →
    Reaches policy source (among kind span path before found parts)
      (.climb ⟨.node kind span (before.reverse ++ parts), path⟩
        (found ++ findingsIn policy source
          ((Site.mk (.node kind span (before.reverse ++ parts)) path).surrounding.below kind) parts))
  | [] => by
      rw [findingsIn, List.append_nil, List.append_nil]
      exact Relation.ReflTransGen.refl
  | part :: parts => by
      have hpart := reaches_climb (⟨kind, span, before, parts⟩ :: path) found part
      have hrest := reaches_climb_among kind span path (part :: before)
        (found ++ findings policy source
          (Site.mk part (⟨kind, span, before, parts⟩ :: path)).surrounding part) parts
      rw [around_reverse, List.append_assoc, Site.surrounding_part _ _ (.node kind span
        (before.reverse ++ part :: parts))] at hrest
      rw [Site.surrounding_part _ _ (.node kind span (before.reverse ++ part :: parts))] at hpart
      exact (hpart.tail (step_climb kind span path before parts part _)).trans hrest

end

theorem reaches_done (policy : Policy) (source : String) (tree : Tree) :
    Reaches policy source (.visit (.root tree) []) (.done (findings policy source .root tree)) :=
  (reaches_climb [] [] tree).tail rfl

end Walk

end JsPrune.Script
