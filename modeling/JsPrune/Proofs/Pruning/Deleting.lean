import JsPrune.Proofs.Concrete.Shedding
import JsPrune.Proofs.Pruning.Statements
/-!
# Scripts without the statements that go

A script falls into the statements that go, each as a whole, and the leaves that stand in none of them.
If of these the statements go, and spaces here and there, then what is left has the tree of the script
with the statements deleted, and comes about by the loss of one space or statement after the other.
-/

namespace JsPrune

open Concrete
open String (utf8Len)

namespace Script

variable {policy : Policy} {source : String}

/-- The removal for a statement, if it goes: that of a debugger statement itself, and that of the
expression of an expression statement. -/
def statementRemoval? (policy : Policy) (source : String) (around : Surrounding) :
    Tree → Option Removal
  | .node .debuggerStatement span parts =>
    removal? policy source (around, .node .debuggerStatement span parts)
  | .node .expressionStatement _ (expression :: _) =>
    removal? policy source (around.below .expressionStatement, expression)
  | _ => none

mutual

/-- A tree with the statements that go deleted from their lists. -/
def without (policy : Policy) (source : String) (around : Surrounding) : Tree → Tree
  | .node kind span parts => .node kind span (withoutIn policy source (around.below kind) parts)

def withoutIn (policy : Policy) (source : String) (around : Surrounding) : List Tree → List Tree
  | [] => []
  | tree :: trees =>
    if (statementRemoval? policy source around tree).isSome then
      withoutIn policy source around trees
    else without policy source around tree :: withoutIn policy source around trees

end

theorem withoutIn_append (around : Surrounding) (trees trees' : List Tree) :
    withoutIn policy source around (trees ++ trees') =
      withoutIn policy source around trees ++ withoutIn policy source around trees' := by
  induction trees with
  | nil => rfl
  | cons tree trees ih =>
      rw [List.cons_append, withoutIn, withoutIn, ih]
      split <;> rfl

theorem findingsIn_append (around : Surrounding) (trees trees' : List Tree) :
    findingsIn policy source around (trees ++ trees') =
      findingsIn policy source around trees ++ findingsIn policy source around trees' := by
  induction trees with
  | nil => rfl
  | cons tree trees ih => rw [List.cons_append, findingsIn, findingsIn, ih, List.append_assoc]

/-! ## What goes -/

/-- What is removed is a debugger statement in a list of statements, or a call that is the expression
of an expression statement in such a list. -/
theorem cases_of_removal? {around : Surrounding} {tree : Tree} {r : Removal}
    (h : removal? policy source (around, tree) = some r) :
    tree.kind = .debuggerStatement ∧ around.inStatementList = true ∧
        r = ⟨tree.span, .statement, .statementList⟩ ∨
      tree.kind = .call ∧ around.isListedExpression = true ∧
        r = ⟨tree.span, .expression, .expressionStatement⟩ := by
  unfold removal? at h
  dsimp only at h
  split at h
  case h_1 hkind =>
    split at h
    case isTrue hgoes =>
      exact Or.inl ⟨hkind, (Bool.and_eq_true_iff.mp hgoes).2, (Option.some.inj h).symm⟩
    case isFalse => exact absurd h (by simp)
  case h_2 hkind =>
    obtain ⟨call, -, h⟩ := Option.bind_eq_some_iff.mp h
    split at h
    case isTrue hgoes =>
      exact Or.inr ⟨hkind, (Bool.and_eq_true_iff.mp hgoes).2, (Option.some.inj h).symm⟩
    case isFalse => exact absurd h (by simp)
  case h_3 => exact absurd h (by simp)

theorem isListedExpression_below {around : Surrounding} {kind : Kind}
    (h : (around.below kind).isListedExpression = true) :
    kind = .expressionStatement ∧ around.inStatementList = true := by
  rw [Surrounding.isListedExpression, Bool.and_eq_true, beq_iff_eq] at h
  exact ⟨Option.some.inj h.1, h.2⟩

theorem statement_of_removal? {around : Surrounding} {kind : Kind} {span : Span}
    {parts : List Tree} {r : Removal}
    (h : statementRemoval? policy source around (.node kind span parts) = some r) :
    (kind = .debuggerStatement ∨ kind = .expressionStatement) ∧ around.inStatementList = true := by
  unfold statementRemoval? at h
  split at h
  case h_1 heq =>
    obtain ⟨rfl, -, -⟩ := Tree.node.inj heq
    rcases cases_of_removal? h with ⟨-, hlist, -⟩ | ⟨hkind, -, -⟩
    · exact ⟨Or.inl rfl, hlist⟩
    · exact absurd hkind (by simp [Tree.kind])
  case h_2 heq =>
    obtain ⟨rfl, -, -⟩ := Tree.node.inj heq
    rcases cases_of_removal? h with ⟨-, hlist, -⟩ | ⟨-, hlisted, -⟩
    · exact absurd hlist (by simp [Surrounding.inStatementList, Surrounding.below,
        Kind.isStatementList])
    · exact ⟨Or.inr rfl, (isListedExpression_below hlisted).2⟩
  case h_3 => exact absurd h (by simp)

/-! ## Pieces -/

/-- A statement that goes, or a leaf that stands in none. -/
inductive Piece where
  | leaf (start : Nat) (leaf : Leaf)
  | statement (start : Nat) (kind : Kind) (parts : List Concrete) (removal : Removal)

namespace Piece

def start : Piece → Nat
  | leaf start _ => start
  | statement start _ _ _ => start

def leaves : Piece → List Leaf
  | leaf _ l => [l]
  | statement _ _ parts _ => leavesIn parts

def removal? : Piece → Option Removal
  | leaf _ _ => none
  | statement _ _ _ r => some r

/-- Statements go, and so do the spaces that spans cover. -/
def stays (removed : List Span) : Piece → Bool
  | leaf start (.space _) => !Span.covers removed start
  | leaf _ _ => true
  | statement .. => false

def leavesOf (pieces : List Piece) : List Leaf := pieces.flatMap leaves

def leftOf (removed : List Span) (pieces : List Piece) : List Leaf :=
  leavesOf (pieces.filter (stays removed))

@[simp] theorem leavesOf_nil : leavesOf [] = [] := rfl

@[simp] theorem leavesOf_cons (p : Piece) (ps : List Piece) :
    leavesOf (p :: ps) = p.leaves ++ leavesOf ps := rfl

@[simp] theorem leavesOf_append (ps qs : List Piece) :
    leavesOf (ps ++ qs) = leavesOf ps ++ leavesOf qs :=
  List.flatMap_append

@[simp] theorem leftOf_append (removed : List Span) (ps qs : List Piece) :
    leftOf removed (ps ++ qs) = leftOf removed ps ++ leftOf removed qs := by
  rw [leftOf, List.filter_append, leavesOf_append, leftOf, leftOf]

end Piece

mutual

def pieces (policy : Policy) (source : String) (around : Surrounding) (start : Nat) :
    Concrete → List Piece
  | .leaf l => [.leaf start l]
  | .node kind parts =>
    match statementRemoval? policy source around (tree start kind parts) with
    | some r => [.statement start kind parts r]
    | none => piecesIn policy source (around.below kind) start parts

def piecesIn (policy : Policy) (source : String) (around : Surrounding) (start : Nat) :
    List Concrete → List Piece
  | [] => []
  | c :: cs =>
    pieces policy source around start c ++ piecesIn policy source around (start + c.size) cs

end

mutual

/-- What is left of a part without the pieces that do not stay. -/
def prune (removed : List Span) (policy : Policy) (source : String) (around : Surrounding)
    (start : Nat) : Concrete → List Concrete
  | .leaf l => if (Piece.leaf start l).stays removed then [.leaf l] else []
  | .node kind parts =>
    if (statementRemoval? policy source around (tree start kind parts)).isSome then []
    else [.node kind (pruneIn removed policy source (around.below kind) start parts)]

def pruneIn (removed : List Span) (policy : Policy) (source : String) (around : Surrounding)
    (start : Nat) : List Concrete → List Concrete
  | [] => []
  | c :: cs =>
    prune removed policy source around start c ++
      pruneIn removed policy source around (start + c.size) cs

end

mutual

theorem leavesOf_pieces (around : Surrounding) (start : Nat) : (c : Concrete) →
    Piece.leavesOf (pieces policy source around start c) = c.leaves
  | .leaf l => rfl
  | .node kind parts => by
      rw [pieces, leaves]
      split
      · exact List.append_nil _
      · exact leavesOf_piecesIn (around.below kind) start parts

theorem leavesOf_piecesIn (around : Surrounding) (start : Nat) : (cs : List Concrete) →
    Piece.leavesOf (piecesIn policy source around start cs) = leavesIn cs
  | [] => rfl
  | c :: cs => by
      rw [piecesIn, leavesIn, Piece.leavesOf_append, leavesOf_pieces around start c,
        leavesOf_piecesIn around (start + c.size) cs]

end

variable {removed : List Span}

mutual

theorem leavesIn_prune (around : Surrounding) (start : Nat) : (c : Concrete) →
    leavesIn (prune removed policy source around start c) =
      Piece.leftOf removed (pieces policy source around start c)
  | .leaf l => by
      rw [prune, pieces, Piece.leftOf, List.filter_cons]
      split <;> rfl
  | .node kind parts => by
      rw [prune, pieces]
      cases statementRemoval? policy source around (tree start kind parts) with
      | some r => rfl
      | none =>
          have hparts := leavesIn_pruneIn (around.below kind) start parts
          simpa only [Option.isSome_none, Bool.false_eq_true, if_false, leavesIn, leaves,
            List.append_nil] using hparts

theorem leavesIn_pruneIn (around : Surrounding) (start : Nat) : (cs : List Concrete) →
    leavesIn (pruneIn removed policy source around start cs) =
      Piece.leftOf removed (piecesIn policy source around start cs)
  | [] => rfl
  | c :: cs => by
      rw [pruneIn, piecesIn, leavesIn_append, Piece.leftOf_append, leavesIn_prune around start c,
        leavesIn_pruneIn around (start + c.size) cs]

end

mutual

/-- What is left has the tree without the statements that go. -/
theorem unplacedIn_prune (around : Surrounding) (start start' : Nat) : (c : Concrete) →
    Tree.unplacedIn (treesIn start' (prune removed policy source around start c)) =
      Tree.unplacedIn (withoutIn policy source around (c.trees start))
  | .leaf l => by
      rw [prune]
      split <;> rfl
  | .node kind parts => by
      rw [prune, trees_node, withoutIn]
      split
      · rfl
      · have hparts := unplacedIn_pruneIn (around.below kind) start start' parts
        rw [treesIn, treesIn, List.append_nil, trees, tree, without, withoutIn]
        simp only [Tree.unplacedIn, Tree.unplaced, hparts]

theorem unplacedIn_pruneIn (around : Surrounding) (start start' : Nat) : (cs : List Concrete) →
    Tree.unplacedIn (treesIn start' (pruneIn removed policy source around start cs)) =
      Tree.unplacedIn (withoutIn policy source around (treesIn start cs))
  | [] => rfl
  | c :: cs => by
      rw [pruneIn, treesIn_append, treesIn, withoutIn_append, Tree.unplacedIn_append,
        Tree.unplacedIn_append, unplacedIn_prune around start start' c,
        unplacedIn_pruneIn around (start + c.size) _ cs]

end

/-! ## One piece after the other -/

/-- Whether the pieces that do not stay can go from between other leaves, from the front on: the
pieces behind are still there. -/
def CanGo (removed : List Span) (left right : List Leaf) (ps : List Piece) : Prop :=
  ∀ before p behind, ps = before ++ p :: behind → p.stays removed = false →
    Leaf.free (left ++ Piece.leftOf removed before) (Piece.leavesOf behind ++ right) = true ∧
      Leaf.inComment (left ++ Piece.leftOf removed before) = false

theorem CanGo.append {left right : List Leaf} {ps qs : List Piece}
    (h : CanGo removed left right (ps ++ qs)) :
    CanGo removed left (Piece.leavesOf qs ++ right) ps ∧
      CanGo removed (left ++ Piece.leftOf removed ps) right qs := by
  constructor
  · intro before p behind hps hgoes
    have hcan := h before p (behind ++ qs) (by rw [hps]; simp) hgoes
    rwa [Piece.leavesOf_append, List.append_assoc] at hcan
  · intro before p behind hqs hgoes
    have hcan := h (ps ++ before) p behind (by rw [hqs]; simp) hgoes
    rwa [Piece.leftOf_append, ← List.append_assoc] at hcan

theorem sheds_inside {kind k : Kind} {left right : List Leaf}
    {before parts parts' after : List Concrete}
    (h : Relation.ReflTransGen (Sheds k (left ++ leavesIn before) (leavesIn after ++ right))
      parts parts') :
    Relation.ReflTransGen (Sheds kind left right) (before ++ .node k parts :: after)
      (before ++ .node k parts' :: after) :=
  h.lift (fun parts => before ++ .node k parts :: after) fun _ _ => Sheds.inside

mutual

theorem sheds_prune (outer : Surrounding) (kind : Kind) (left right : List Leaf) (start : Nat)
    (before after : List Concrete) : (c : Concrete) →
    CanGo removed (left ++ leavesIn before) (leavesIn after ++ right)
      (pieces policy source (outer.below kind) start c) →
    Relation.ReflTransGen (Sheds kind left right) (before ++ c :: after)
      (before ++ prune removed policy source (outer.below kind) start c ++ after)
  | .leaf l, hcan => by
      rw [prune]
      split
      case isTrue => rw [List.append_assoc]; exact .refl
      case isFalse hgoes =>
        have hgoes := Bool.eq_false_iff.mpr hgoes
        obtain ⟨hfree, hcomment⟩ := hcan [] _ [] rfl hgoes
        simp only [Piece.leftOf, Piece.leavesOf, List.filter_nil, List.flatMap_nil,
          List.append_nil, List.nil_append] at hfree hcomment
        rw [List.append_nil]
        cases l with
        | space c => exact .single (.space hfree hcomment)
        | lineComment text => exact absurd hgoes (by simp [Piece.stays])
        | blockComment text => exact absurd hgoes (by simp [Piece.stays])
        | token text => exact absurd hgoes (by simp [Piece.stays])
        | inserted => exact absurd hgoes (by simp [Piece.stays])
  | .node k parts, hcan => by
      rw [prune]
      rw [pieces] at hcan
      cases hremoval : statementRemoval? policy source (outer.below kind) (tree start k parts) with
      | some r =>
          rw [hremoval] at hcan
          obtain ⟨hfree, hcomment⟩ := hcan [] _ [] rfl rfl
          simp only [Piece.leftOf, Piece.leavesOf, List.filter_nil, List.flatMap_nil,
            List.append_nil, List.nil_append] at hfree hcomment
          obtain ⟨hkind, hlist⟩ := statement_of_removal? hremoval
          rw [Option.isSome_some, if_pos rfl, List.append_nil]
          exact .single (.statement hlist hkind hfree hcomment)
      | none =>
          rw [hremoval] at hcan
          have hparts := sheds_pruneIn (outer.below kind) k (left ++ leavesIn before)
            (leavesIn after ++ right) start [] parts
            (by rw [leavesIn, List.append_nil]; exact hcan)
          rw [Option.isSome_none, if_neg Bool.false_ne_true, List.append_assoc]
          exact sheds_inside hparts

theorem sheds_pruneIn (outer : Surrounding) (kind : Kind) (left right : List Leaf) (start : Nat)
    (before : List Concrete) : (cs : List Concrete) →
    CanGo removed (left ++ leavesIn before) right
      (piecesIn policy source (outer.below kind) start cs) →
    Relation.ReflTransGen (Sheds kind left right) (before ++ cs)
      (before ++ pruneIn removed policy source (outer.below kind) start cs)
  | [], _ => .refl
  | c :: cs, hcan => by
      rw [piecesIn] at hcan
      obtain ⟨hfirst, hrest⟩ := hcan.append
      rw [leavesOf_piecesIn] at hfirst
      rw [← leavesIn_prune, List.append_assoc, ← leavesIn_append] at hrest
      have hstep := sheds_prune outer kind left right start before cs c hfirst
      have hmore := sheds_pruneIn outer kind left right (start + c.size) _ cs hrest
      rw [pruneIn, ← List.append_assoc]
      exact hstep.trans hmore

end

end Script

end JsPrune
