import JsPrune.Proofs.Pruning.Deleting
/-!
# What the walk finds in a script that is read

The walk judges debugger statements and calls.  In a script that a parser reads an expression statement
has one node, its expression; so what the walk removes are the removals of the statements that go.
-/

namespace JsPrune

open Concrete

namespace Script

variable {policy : Policy} {source : String}

def SparesCalls (policy : Policy) (source : String) (around : Surrounding) (trees : List Tree) :
    Prop :=
  ∀ tree ∈ trees, tree.kind = .call → removal? policy source (around, tree) = none

theorem sparesCalls_below {around : Surrounding} {kind : Kind} {trees : List Tree}
    (h : kind ≠ .expressionStatement) :
    SparesCalls policy source (around.below kind) trees := by
  intro tree _ hkind
  cases hremoval : removal? policy source (around.below kind, tree) with
  | none => rfl
  | some r =>
      rcases cases_of_removal? hremoval with ⟨hdebugger, -, -⟩ | ⟨-, hlisted, -⟩
      · rw [hkind] at hdebugger
        exact absurd hdebugger (by decide)
      · exact absurd (isListedExpression_below hlisted).1 h

theorem removal?_eq_none {around : Surrounding} {tree : Tree}
    (hdebugger : tree.kind ≠ .debuggerStatement) (hcall : tree.kind ≠ .call) :
    removal? policy source (around, tree) = none := by
  cases hremoval : removal? policy source (around, tree) with
  | none => rfl
  | some r =>
      rcases cases_of_removal? hremoval with ⟨hkind, -, -⟩ | ⟨hkind, -, -⟩
      · exact absurd hkind hdebugger
      · exact absurd hkind hcall

theorem treesIn_of_regular (start : Nat) {parts : List Concrete}
    (h : Regular .expressionStatement parts) :
    ∃ k inner rest, parts = .node k inner :: rest ∧
      treesIn start parts = [tree start k inner] := by
  obtain ⟨k, inner, word, words, gaps, stop, rfl, -⟩ := h.expression rfl
  refine ⟨k, inner, _, rfl, ?_⟩
  rw [treesIn, treesIn_map_leaf, List.append_nil, trees_node]

theorem spares_of_stays {around : Surrounding} {start : Nat} {kind : Kind} {parts : List Concrete}
    (hregular : Regular kind parts)
    (hspares : SparesCalls policy source around [tree start kind parts])
    (hstays : statementRemoval? policy source around (tree start kind parts) = none) :
    removal? policy source (around, tree start kind parts) = none ∧
      SparesCalls policy source (around.below kind) (treesIn start parts) := by
  by_cases hexpression : kind = .expressionStatement
  · subst hexpression
    refine ⟨removal?_eq_none (by simp [tree, Tree.kind]) (by simp [tree, Tree.kind]), ?_⟩
    obtain ⟨k, inner, rest, hparts, htrees⟩ := treesIn_of_regular start hregular
    rw [tree, htrees] at hstays
    intro node hnode _
    rw [htrees, List.mem_singleton] at hnode
    rw [hnode]
    exact hstays
  · refine ⟨?_, sparesCalls_below hexpression⟩
    by_cases hdebugger : kind = .debuggerStatement
    · subst hdebugger
      exact hstays
    · by_cases hcall : kind = .call
      · exact hspares _ List.mem_cons_self hcall
      · exact removal?_eq_none hdebugger hcall

theorem mem_findings_of_goes {around : Surrounding} {start : Nat} {kind : Kind}
    {parts : List Concrete} {r found : Removal} (hregular : Regular kind parts)
    (hgoes : statementRemoval? policy source around (tree start kind parts) = some r) :
    Finding.removal found ∈ findings policy source around (tree start kind parts) ↔ r = found := by
  rcases (statement_of_removal? hgoes).1 with rfl | rfl
  · have hself : removal? policy source (around, tree start .debuggerStatement parts) = some r :=
      hgoes
    rw [tree] at hself ⊢
    rw [mem_findings_iff, hself]
    simp
  · obtain ⟨k, inner, rest, hparts, htrees⟩ := treesIn_of_regular start hregular
    have hnone : removal? policy source (around, tree start .expressionStatement parts) = none :=
      removal?_eq_none (by simp [tree, Tree.kind]) (by simp [tree, Tree.kind])
    rw [tree, htrees] at hgoes
    rw [tree] at hnone ⊢
    have hself : removal? policy source
        (around.below .expressionStatement, tree start k inner) = some r := hgoes
    rw [mem_findings_iff, hnone, htrees, findingsIn, findingsIn, List.append_nil, tree,
      mem_findings_iff, ← tree, hself]
    simp

mutual

/-- What the walk removes are the removals of the statements that go. -/
theorem mem_findings_iff_pieces {around : Surrounding} {start : Nat} {r : Removal} :
    (c : Concrete) → AllNodes Regular c → SparesCalls policy source around (c.trees start) →
    (Finding.removal r ∈ findingsIn policy source around (c.trees start) ↔
      ∃ p ∈ pieces policy source around start c, p.removal? = some r)
  | .leaf l, _, _ => by simp [trees, findingsIn, pieces, Piece.removal?]
  | .node kind parts, hall, hspares => by
      obtain ⟨hregular, hparts⟩ := hall
      rw [trees_node] at hspares ⊢
      rw [pieces, findingsIn, findingsIn, List.append_nil]
      cases hgoes : statementRemoval? policy source around (tree start kind parts) with
      | some r' =>
          rw [mem_findings_of_goes hregular hgoes]
          simp [Piece.removal?]
      | none =>
          obtain ⟨hnone, hspares'⟩ := spares_of_stays hregular hspares hgoes
          rw [tree] at hnone ⊢
          rw [mem_findings_iff, hnone]
          simpa using mem_findingsIn_iff_pieces parts hparts hspares'

theorem mem_findingsIn_iff_pieces {around : Surrounding} {start : Nat} {r : Removal} :
    (cs : List Concrete) → AllNodesIn Regular cs →
    SparesCalls policy source around (treesIn start cs) →
    (Finding.removal r ∈ findingsIn policy source around (treesIn start cs) ↔
      ∃ p ∈ piecesIn policy source around start cs, p.removal? = some r)
  | [], _, _ => by simp [treesIn, findingsIn, piecesIn]
  | c :: cs, hall, hspares => by
      rw [treesIn] at hspares ⊢
      have hfirst := mem_findings_iff_pieces (r := r) c hall.1
        fun tree hmem => hspares tree (List.mem_append_left _ hmem)
      have hrest := mem_findingsIn_iff_pieces (r := r) cs hall.2
        fun tree hmem => hspares tree (List.mem_append_right _ hmem)
      rw [findingsIn_append, List.mem_append, hfirst, hrest, piecesIn]
      simp only [List.mem_append, or_and_right, exists_or]

end

/-! ## The pieces of a script that is read -/

/-- A statement piece comes from a node that goes. -/
def Piece.Comes (policy : Policy) (source : String) : Piece → Prop
  | leaf _ _ => True
  | statement start kind parts r => Regular kind parts ∧ AllNodesIn Regular parts ∧
    ∃ around, statementRemoval? policy source around (tree start kind parts) = some r

mutual

theorem comes_of_mem_pieces {around : Surrounding} {start : Nat} {p : Piece} : (c : Concrete) →
    AllNodes Regular c → p ∈ pieces policy source around start c → p.Comes policy source
  | .leaf l, _, hp => by
      rw [List.mem_singleton.mp hp]
      exact trivial
  | .node kind parts, hall, hp => by
      obtain ⟨hregular, hparts⟩ := hall
      rw [pieces] at hp
      split at hp
      case h_1 r hgoes =>
        rw [List.mem_singleton.mp hp]
        exact ⟨hregular, hparts, around, hgoes⟩
      case h_2 => exact comes_of_mem_piecesIn parts hparts hp

theorem comes_of_mem_piecesIn {around : Surrounding} {start : Nat} {p : Piece} :
    (cs : List Concrete) → AllNodesIn Regular cs →
    p ∈ piecesIn policy source around start cs → p.Comes policy source
  | [], _, hp => absurd hp List.not_mem_nil
  | c :: cs, hall, hp => by
      rw [piecesIn] at hp
      rcases List.mem_append.mp hp with hp | hp
      · exact comes_of_mem_pieces c hall.1 hp
      · exact comes_of_mem_piecesIn cs hall.2 hp

end

def scriptPieces (policy : Policy) (source : String) (parts : List Concrete) : List Piece :=
  piecesIn policy source (Surrounding.root.below .script) 0 parts

theorem mem_removals_iff {span : Span} {parts : List Concrete} (hwell : WellFormed parts)
    {r : Removal} :
    r ∈ Finding.removals (findings policy source .root (.node .script span (treesIn 0 parts))) ↔
      ∃ p ∈ scriptPieces policy source parts, p.removal? = some r := by
  have hself : removal? policy source (.root, .node .script span (treesIn 0 parts)) = none := rfl
  rw [mem_removals, mem_findings_iff, hself, scriptPieces]
  rw [← mem_findingsIn_iff_pieces parts hwell.regular (sparesCalls_below (by decide))]
  simp

end Script

end JsPrune
