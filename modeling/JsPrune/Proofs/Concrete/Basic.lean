import JsPrune.Comment.Basic
import JsPrune.Proofs.Text.Utf8
import JsPrune.Script.Tree
/-!
# Concrete syntax

A concrete syntax tree holds a script down to the last character: spaces and comments stand in it as
leaves of their own, and so does a semicolon that the parser inserts, which has no characters.  The
syntax tree proper is what is left of it without the leaves, each node with the span of its text.

A first line that starts with a number sign and an exclamation mark counts as a line comment.  What a
template holds between two expressions is one token with the punctuation around it, and so is what an
element of markup holds between two of them.
-/

namespace JsPrune

open String (utf8Len)

inductive Leaf where
  | space (c : Char)
  | lineComment (text : List Char)
  | blockComment (text : List Char)
  /-- Text that the grammar does not look into: a word, a literal or punctuation. -/
  | token (text : List Char)
  /-- A semicolon that is not written. -/
  | inserted
  deriving DecidableEq, Repr

namespace Leaf

def chars : Leaf → List Char
  | space c => [c]
  | lineComment text => text
  | blockComment text => text
  | token text => text
  | inserted => []

def isGap : Leaf → Bool
  | space _ | lineComment _ | blockComment _ => true
  | token _ | inserted => false

/-- Spaces, comments and inserted semicolons, which stand between two written tokens. -/
def isSlack (l : Leaf) : Bool := l.isGap || l == inserted

def written (leaves : List Leaf) : List Leaf := leaves.filter (· != inserted)

def textOf (leaves : List Leaf) : List Char := leaves.flatMap chars

@[simp] theorem textOf_nil : textOf [] = [] := rfl

@[simp] theorem textOf_cons (leaf : Leaf) (leaves : List Leaf) :
    textOf (leaf :: leaves) = leaf.chars ++ textOf leaves := rfl

@[simp] theorem textOf_append (leaves leaves' : List Leaf) :
    textOf (leaves ++ leaves') = textOf leaves ++ textOf leaves' :=
  List.flatMap_append

@[simp] theorem written_nil : written [] = [] := rfl

@[simp] theorem written_append (leaves leaves' : List Leaf) :
    written (leaves ++ leaves') = written leaves ++ written leaves' :=
  List.filter_append ..

theorem written_cons {l : Leaf} (h : l ≠ inserted) (leaves : List Leaf) :
    written (l :: leaves) = l :: written leaves :=
  List.filter_cons_of_pos (bne_iff_ne.mpr h)

@[simp] theorem written_inserted_cons (leaves : List Leaf) :
    written (inserted :: leaves) = written leaves := rfl

@[simp] theorem textOf_written (leaves : List Leaf) : textOf (written leaves) = textOf leaves := by
  induction leaves with
  | nil => rfl
  | cons l leaves ih =>
      by_cases hl : l = inserted
      · rw [hl, written_inserted_cons, ih]
        rfl
      · rw [written_cons hl, textOf_cons, textOf_cons, ih]

theorem written_of_not_mem {leaves : List Leaf} (h : inserted ∉ leaves) : written leaves = leaves :=
  List.filter_eq_self.mpr fun _ hl => bne_iff_ne.mpr fun hinserted => h (hinserted ▸ hl)

end Leaf

inductive Concrete where
  | leaf (leaf : Leaf)
  | node (kind : Kind) (parts : List Concrete)

namespace Concrete

mutual

def leaves : Concrete → List Leaf
  | .leaf l => [l]
  | .node _ parts => leavesIn parts

def leavesIn : List Concrete → List Leaf
  | [] => []
  | c :: cs => c.leaves ++ leavesIn cs

end

def size (c : Concrete) : Nat := utf8Len (Leaf.textOf c.leaves)

mutual

def trees (start : Nat) : Concrete → List Tree
  | .leaf _ => []
  | .node kind parts =>
    [.node kind ⟨start, start + utf8Len (Leaf.textOf (leavesIn parts))⟩ (treesIn start parts)]

def treesIn (start : Nat) : List Concrete → List Tree
  | [] => []
  | c :: cs => c.trees start ++ treesIn (start + c.size) cs

end

def tree (start : Nat) (kind : Kind) (parts : List Concrete) : Tree :=
  .node kind ⟨start, start + utf8Len (Leaf.textOf (leavesIn parts))⟩ (treesIn start parts)

theorem trees_node (start : Nat) (kind : Kind) (parts : List Concrete) :
    (node kind parts).trees start = [tree start kind parts] := rfl

mutual

/-- The same without spaces and comments. -/
def bare : Concrete → List Concrete
  | .leaf l => if l.isGap then [] else [.leaf l]
  | .node kind parts => [.node kind (bareIn parts)]

def bareIn : List Concrete → List Concrete
  | [] => []
  | c :: cs => c.bare ++ bareIn cs

end

@[simp] theorem leavesIn_append (cs ds : List Concrete) :
    leavesIn (cs ++ ds) = leavesIn cs ++ leavesIn ds := by
  induction cs with
  | nil => rfl
  | cons c cs ih => rw [List.cons_append, leavesIn, leavesIn, ih, List.append_assoc]

@[simp] theorem bareIn_append (cs ds : List Concrete) :
    bareIn (cs ++ ds) = bareIn cs ++ bareIn ds := by
  induction cs with
  | nil => rfl
  | cons c cs ih => rw [List.cons_append, bareIn, bareIn, ih, List.append_assoc]

theorem treesIn_append (start : Nat) (cs ds : List Concrete) :
    treesIn start (cs ++ ds) =
      treesIn start cs ++ treesIn (start + utf8Len (Leaf.textOf (leavesIn cs))) ds := by
  induction cs generalizing start with
  | nil => rfl
  | cons c cs ih =>
      rw [List.cons_append, treesIn, treesIn, ih, leavesIn, Leaf.textOf_append,
        String.utf8Len_append, List.append_assoc, size, Nat.add_assoc]

mutual

theorem leavesIn_bare : (c : Concrete) →
    leavesIn c.bare = c.leaves.filter fun l => !l.isGap
  | .leaf l => by
      rw [bare, leaves]
      cases hgap : l.isGap <;> simp [leavesIn, leaves, hgap]
  | .node kind parts => by
      rw [bare, leavesIn, leavesIn, List.append_nil, leaves, leaves, leavesIn_bareIn parts]

theorem leavesIn_bareIn : (cs : List Concrete) →
    leavesIn (bareIn cs) = (leavesIn cs).filter fun l => !l.isGap
  | [] => rfl
  | c :: cs => by
      rw [bareIn, leavesIn_append, leavesIn, List.filter_append, leavesIn_bare c,
        leavesIn_bareIn cs]

end

theorem leavesIn_map_leaf (leaves : List Leaf) : leavesIn (leaves.map .leaf) = leaves := by
  induction leaves with
  | nil => rfl
  | cons l leaves ih =>
      rw [List.map_cons, leavesIn, ih]
      rfl

theorem treesIn_map_leaf (start : Nat) (leaves : List Leaf) :
    treesIn start (leaves.map .leaf) = [] := by
  induction leaves generalizing start with
  | nil => rfl
  | cons l leaves ih =>
      rw [List.map_cons, treesIn, ih]
      rfl

end Concrete

/-! ## Trees without positions -/

mutual

/-- A tree of the same nodes, all at one place. -/
def Tree.unplaced : Tree → Tree
  | .node kind _ parts => .node kind ⟨0, 0⟩ (Tree.unplacedIn parts)

def Tree.unplacedIn : List Tree → List Tree
  | [] => []
  | tree :: trees => tree.unplaced :: Tree.unplacedIn trees

end

@[simp] theorem Tree.unplacedIn_append (trees trees' : List Tree) :
    Tree.unplacedIn (trees ++ trees') = Tree.unplacedIn trees ++ Tree.unplacedIn trees' := by
  induction trees with
  | nil => rfl
  | cons tree trees ih => rw [List.cons_append, unplacedIn, unplacedIn, ih, List.cons_append]

namespace Concrete

mutual

/-- Without positions, the nodes are the same wherever the text starts and whatever stands between
the tokens. -/
theorem unplacedIn_trees_bare (start start' : Nat) : (c : Concrete) →
    Tree.unplacedIn (treesIn start' c.bare) = Tree.unplacedIn (c.trees start)
  | .leaf l => by
      rw [bare, trees]
      split <;> rfl
  | .node kind parts => by
      have hparts := unplacedIn_treesIn_bareIn start start' parts
      rw [bare, treesIn, treesIn, List.append_nil, trees, trees]
      simp only [Tree.unplacedIn, Tree.unplaced, hparts]

theorem unplacedIn_treesIn_bareIn (start start' : Nat) : (cs : List Concrete) →
    Tree.unplacedIn (treesIn start' (bareIn cs)) = Tree.unplacedIn (treesIn start cs)
  | [] => rfl
  | c :: cs => by
      rw [bareIn, treesIn_append, Tree.unplacedIn_append, treesIn, Tree.unplacedIn_append,
        unplacedIn_trees_bare start start' c, unplacedIn_treesIn_bareIn (start + c.size) _ cs]

end

end Concrete

end JsPrune
