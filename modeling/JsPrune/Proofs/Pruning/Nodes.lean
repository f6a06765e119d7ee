import JsPrune.Proofs.Pruning.Walk
import Mathlib.Data.List.Infix
/-!
# The nodes of a syntax tree

The nodes of a tree are listed parents before their parts, each once.  The nodes around a node are
those that a walk comes back to when it climbs from it.  If the parts of every node stand in it, one
behind the other, then of two nodes in the list the first is around the second or ends before it.
-/

namespace JsPrune

/-! ## Ordered trees -/

mutual

def Tree.isOrdered : Tree → Bool
  | .node _ span parts =>
    decide (span.start ≤ span.stop) && Tree.areOrdered span.start span.stop parts

def Tree.areOrdered (start stop : Nat) : List Tree → Bool
  | [] => decide (start ≤ stop)
  | tree :: trees =>
    decide (start ≤ tree.span.start) && tree.isOrdered && Tree.areOrdered tree.span.stop stop trees

end

namespace Script

/-! ## Nodes -/

mutual

/-- The nodes of a tree at the end of a way, parents before their parts. -/
def nodesFrom (path : List Level) : Tree → List Site
  | .node kind span parts =>
    ⟨.node kind span parts, path⟩ :: nodesAmong kind span path [] parts

def nodesAmong (kind : Kind) (span : Span) (path : List Level) (before : List Tree) :
    List Tree → List Site
  | [] => []
  | part :: parts =>
    nodesFrom (⟨kind, span, before, parts⟩ :: path) part ++
      nodesAmong kind span path (part :: before) parts

end

def nodes (tree : Tree) : List Site := nodesFrom [] tree

namespace Site

def ancestorsOf (node : Tree) : List Level → List Site
  | [] => []
  | level :: path => ⟨level.around node, path⟩ :: ancestorsOf (level.around node) path

def ancestors (s : Site) : List Site := ancestorsOf s.node s.path

theorem ancestors_part (level : Level) (part : Tree) (path : List Level) :
    (Site.mk part (level :: path)).ancestors =
      ⟨level.around part, path⟩ :: (Site.mk (level.around part) path).ancestors := rfl

theorem ancestors_trans {s outer outermost : Site} (houter : outer ∈ s.ancestors)
    (h : outermost ∈ outer.ancestors) : outermost ∈ s.ancestors := by
  obtain ⟨node, path⟩ := s
  induction path generalizing node with
  | nil => exact absurd houter List.not_mem_nil
  | cons level path ih =>
      rw [ancestors_part] at houter ⊢
      rcases List.mem_cons.mp houter with rfl | houter
      · exact List.mem_cons_of_mem _ h
      · exact List.mem_cons_of_mem _ (ih _ houter)

theorem length_path_of_mem_ancestors {s outer : Site} (h : outer ∈ s.ancestors) :
    outer.path.length < s.path.length := by
  obtain ⟨node, path⟩ := s
  induction path generalizing node with
  | nil => exact absurd h List.not_mem_nil
  | cons level path ih =>
      rw [ancestors_part] at h
      rcases List.mem_cons.mp h with rfl | h
      · exact Nat.lt_succ_self _
      · exact Nat.lt_succ_of_lt (ih _ h)

end Site

mutual

theorem mem_ancestors_of_mem_nodesFrom {s : Site} (path : List Level) : (tree : Tree) →
    s ∈ nodesFrom path tree → s = ⟨tree, path⟩ ∨ Site.mk tree path ∈ s.ancestors
  | .node kind span parts, h => by
      rw [nodesFrom] at h
      rcases List.mem_cons.mp h with rfl | h
      · exact Or.inl rfl
      · exact Or.inr (mem_ancestors_of_mem_nodesAmong kind span path [] parts h)

theorem mem_ancestors_of_mem_nodesAmong {s : Site} (kind : Kind) (span : Span) (path : List Level)
    (before : List Tree) : (parts : List Tree) → s ∈ nodesAmong kind span path before parts →
    Site.mk (.node kind span (before.reverse ++ parts)) path ∈ s.ancestors
  | [], h => absurd h List.not_mem_nil
  | part :: parts, h => by
      have hparent : Site.mk (.node kind span (before.reverse ++ part :: parts)) path ∈
          (Site.mk part (⟨kind, span, before, parts⟩ :: path)).ancestors := List.mem_cons_self
      rw [nodesAmong] at h
      rcases List.mem_append.mp h with h | h
      · rcases mem_ancestors_of_mem_nodesFrom _ part h with rfl | hpart
        · exact hparent
        · exact Site.ancestors_trans hpart hparent
      · have hrest := mem_ancestors_of_mem_nodesAmong kind span path (part :: before) parts h
        rw [around_reverse] at hrest
        exact hrest

end

mutual

theorem mem_nodesFrom_or_mem_ancestors {s outer : Site} (houter : outer ∈ s.ancestors)
    (path : List Level) : (tree : Tree) → s ∈ nodesFrom path tree →
    outer ∈ nodesFrom path tree ∨ outer ∈ (Site.mk tree path).ancestors
  | .node kind span parts, hs => by
      rw [nodesFrom] at hs ⊢
      rcases List.mem_cons.mp hs with rfl | hs
      · exact Or.inr houter
      · rcases mem_nodesAmong_or_mem_ancestors houter kind span path [] parts hs with h | h
        · exact Or.inl (List.mem_cons_of_mem _ h)
        · rcases List.mem_cons.mp h with rfl | h
          · exact Or.inl List.mem_cons_self
          · exact Or.inr h

theorem mem_nodesAmong_or_mem_ancestors {s outer : Site} (houter : outer ∈ s.ancestors)
    (kind : Kind) (span : Span) (path : List Level) (before : List Tree) : (parts : List Tree) →
    s ∈ nodesAmong kind span path before parts →
    outer ∈ nodesAmong kind span path before parts ∨
      outer ∈ Site.mk (.node kind span (before.reverse ++ parts)) path ::
        (Site.mk (.node kind span (before.reverse ++ parts)) path).ancestors
  | [], hs => absurd hs List.not_mem_nil
  | part :: parts, hs => by
      rw [nodesAmong] at hs ⊢
      rcases List.mem_append.mp hs with hs | hs
      · exact (mem_nodesFrom_or_mem_ancestors houter _ part hs).imp_left
          (List.mem_append_left _)
      · have hrest :=
          mem_nodesAmong_or_mem_ancestors houter kind span path (part :: before) parts hs
        rw [around_reverse] at hrest
        exact hrest.imp_left (List.mem_append_right _)

end

theorem mem_nodes_of_mem_ancestors {tree : Tree} {s outer : Site} (hs : s ∈ nodes tree)
    (houter : outer ∈ s.ancestors) : outer ∈ nodes tree :=
  (mem_nodesFrom_or_mem_ancestors houter [] tree hs).resolve_right List.not_mem_nil

/-! ## Every node once -/

mutual

theorem suffix_of_mem_nodesFrom {s : Site} (path : List Level) : (tree : Tree) →
    s ∈ nodesFrom path tree → path <:+ s.path
  | .node kind span parts, h => by
      rw [nodesFrom] at h
      rcases List.mem_cons.mp h with rfl | h
      · exact List.suffix_rfl
      · obtain ⟨before, behind, -, hsuffix⟩ := suffix_of_mem_nodesAmong kind span path [] parts h
        exact (List.suffix_cons _ path).trans hsuffix

theorem suffix_of_mem_nodesAmong {s : Site} (kind : Kind) (span : Span) (path : List Level)
    (before : List Tree) : (parts : List Tree) → s ∈ nodesAmong kind span path before parts →
    ∃ before' behind, before.length ≤ before'.length ∧
      ⟨kind, span, before', behind⟩ :: path <:+ s.path
  | [], h => absurd h List.not_mem_nil
  | part :: parts, h => by
      rw [nodesAmong] at h
      rcases List.mem_append.mp h with h | h
      · exact ⟨before, parts, Nat.le_refl _, suffix_of_mem_nodesFrom _ part h⟩
      · obtain ⟨before', behind, hle, hsuffix⟩ :=
          suffix_of_mem_nodesAmong kind span path (part :: before) parts h
        exact ⟨before', behind, Nat.le_of_succ_le hle, hsuffix⟩

end

mutual

theorem nodup_nodesFrom (path : List Level) : (tree : Tree) → (nodesFrom path tree).Nodup
  | .node kind span parts => by
      refine List.nodup_cons.mpr ⟨fun h => ?_, nodup_nodesAmong kind span path [] parts⟩
      have hself := mem_ancestors_of_mem_nodesAmong kind span path [] parts h
      exact Nat.lt_irrefl _ (Site.length_path_of_mem_ancestors hself)

theorem nodup_nodesAmong (kind : Kind) (span : Span) (path : List Level) (before : List Tree) :
    (parts : List Tree) → (nodesAmong kind span path before parts).Nodup
  | [] => List.nodup_nil
  | part :: parts => by
      refine List.nodup_append.mpr ⟨nodup_nodesFrom _ part,
        nodup_nodesAmong kind span path (part :: before) parts, fun s hs t ht heq => ?_⟩
      have hpart := suffix_of_mem_nodesFrom _ part hs
      obtain ⟨before', behind, hle, hrest⟩ :=
        suffix_of_mem_nodesAmong kind span path (part :: before) parts ht
      rw [heq] at hpart
      -- One way would have two numbers of parts before it.
      have hsame : (⟨kind, span, before, parts⟩ : Level) :: path =
          ⟨kind, span, before', behind⟩ :: path :=
        (List.suffix_of_suffix_length_le hpart hrest (Nat.le_refl _)).eq_of_length rfl
      injection hsame with hlevel
      injection hlevel with _ _ hbefore
      rw [← hbefore] at hle
      exact Nat.not_succ_le_self _ hle

end

theorem nodup_nodes (tree : Tree) : (nodes tree).Nodup := nodup_nodesFrom [] tree

end Script

/-! ## Order -/

theorem Tree.start_le_stop {tree : Tree} (h : tree.isOrdered = true) :
    tree.span.start ≤ tree.span.stop := by
  obtain ⟨kind, span, parts⟩ := tree
  rw [Tree.isOrdered, Bool.and_eq_true] at h
  exact of_decide_eq_true h.1

theorem Tree.areOrdered_cons {start stop : Nat} {tree : Tree} {trees : List Tree} :
    Tree.areOrdered start stop (tree :: trees) = true ↔
      start ≤ tree.span.start ∧ tree.isOrdered = true ∧
        Tree.areOrdered tree.span.stop stop trees = true := by
  rw [Tree.areOrdered, Bool.and_eq_true, Bool.and_eq_true, decide_eq_true_iff, and_assoc]

theorem Tree.le_of_areOrdered {start stop : Nat} {trees : List Tree}
    (h : Tree.areOrdered start stop trees = true) : start ≤ stop := by
  induction trees generalizing start with
  | nil => exact of_decide_eq_true h
  | cons tree trees ih =>
      obtain ⟨hstart, htree, htrees⟩ := Tree.areOrdered_cons.mp h
      have hself := Tree.start_le_stop htree
      have hrest := ih htrees
      omega

namespace Script

mutual

/-- In an ordered tree a node stands in those around it. -/
theorem within_of_mem_nodesFrom {s : Site} (path : List Level) : (tree : Tree) →
    tree.isOrdered = true → s ∈ nodesFrom path tree →
    tree.span.start ≤ s.node.span.start ∧ s.node.span.start ≤ s.node.span.stop ∧
      s.node.span.stop ≤ tree.span.stop
  | .node kind span parts, hordered, hs => by
      have hself := Tree.start_le_stop hordered
      rw [nodesFrom] at hs
      rcases List.mem_cons.mp hs with rfl | hs
      · exact ⟨Nat.le_refl _, hself, Nat.le_refl _⟩
      · rw [Tree.isOrdered, Bool.and_eq_true] at hordered
        exact within_of_mem_nodesAmong kind span path [] parts hordered.2 hs

theorem within_of_mem_nodesAmong {s : Site} {start stop : Nat} (kind : Kind) (span : Span)
    (path : List Level) (before : List Tree) : (parts : List Tree) →
    Tree.areOrdered start stop parts = true → s ∈ nodesAmong kind span path before parts →
    start ≤ s.node.span.start ∧ s.node.span.start ≤ s.node.span.stop ∧ s.node.span.stop ≤ stop
  | [], _, hs => absurd hs List.not_mem_nil
  | part :: parts, hordered, hs => by
      obtain ⟨hstart, hpart, hparts⟩ := Tree.areOrdered_cons.mp hordered
      have hself := Tree.start_le_stop hpart
      have hle := Tree.le_of_areOrdered hparts
      rw [nodesAmong] at hs
      rcases List.mem_append.mp hs with hs | hs
      · have hwithin := within_of_mem_nodesFrom _ part hpart hs
        omega
      · have hwithin := within_of_mem_nodesAmong kind span path (part :: before) parts hparts hs
        omega

end

/-- Of two nodes the first is around the second or ends before it. -/
def Site.Leads (s t : Site) : Prop := s ∈ t.ancestors ∨ s.node.span.stop ≤ t.node.span.start

mutual

theorem pairwise_leads_nodesFrom (path : List Level) : (tree : Tree) →
    tree.isOrdered = true → (nodesFrom path tree).Pairwise Site.Leads
  | .node kind span parts, hordered => by
      rw [Tree.isOrdered, Bool.and_eq_true] at hordered
      refine List.pairwise_cons.mpr ⟨fun s hs => Or.inl ?_,
        pairwise_leads_nodesAmong kind span path [] parts hordered.2⟩
      exact mem_ancestors_of_mem_nodesAmong kind span path [] parts hs

theorem pairwise_leads_nodesAmong {start stop : Nat} (kind : Kind) (span : Span)
    (path : List Level) (before : List Tree) : (parts : List Tree) →
    Tree.areOrdered start stop parts = true →
    (nodesAmong kind span path before parts).Pairwise Site.Leads
  | [], _ => List.Pairwise.nil
  | part :: parts, hordered => by
      obtain ⟨hstart, hpart, hparts⟩ := Tree.areOrdered_cons.mp hordered
      refine List.pairwise_append.mpr ⟨pairwise_leads_nodesFrom _ part hpart,
        pairwise_leads_nodesAmong kind span path (part :: before) parts hparts,
        fun s hs t ht => Or.inr ?_⟩
      have hbefore := within_of_mem_nodesFrom _ part hpart hs
      have hbehind := within_of_mem_nodesAmong kind span path (part :: before) parts hparts ht
      omega

end

theorem pairwise_leads_nodes {tree : Tree} (h : tree.isOrdered = true) :
    (nodes tree).Pairwise Site.Leads :=
  pairwise_leads_nodesFrom [] tree h

end Script

end JsPrune
