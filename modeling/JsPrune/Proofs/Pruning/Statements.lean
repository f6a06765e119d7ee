import JsPrune.Proofs.Session.Exactness
import JsPrune.Pruning
/-!
# The pass over statements

The walk over the syntax tree removes a node if it is a debugger statement in a list of statements, or
a console call that is a statement of such a list, and does not look into it.  From the script then
goes the text of these nodes with the semicolons that end them and spaces, and nothing else.
-/

namespace JsPrune

namespace Script

/-! ## The walk -/

mutual

/-- The nodes of a tree with what stands around them, parents before their parts. -/
def places (around : Surrounding) : Tree → List (Surrounding × Tree)
  | .node kind span parts => (around, .node kind span parts) :: placesIn (around.below kind) parts

def placesIn (around : Surrounding) : List Tree → List (Surrounding × Tree)
  | [] => []
  | tree :: trees => places around tree ++ placesIn around trees

end

/-- What is removed for a node, if its kind, its place and the policy say that it goes. -/
def removal? (policy : Policy) (source : String) (place : Surrounding × Tree) : Option Removal :=
  match place.2.kind with
  | .debuggerStatement =>
    if policy.debugger && place.1.inStatementList then
      some ⟨place.2.span, .statement, .statementList⟩
    else none
  | .call => do
    let (method, text) ← consoleCall? source place.2
    if policy.console.removes method text && place.1.isListedExpression then
      some ⟨place.2.span, .expression, .expressionStatement⟩
    else none
  | _ => none

variable {policy : Policy} {source : String}

theorem mem_removals {r : Removal} {found : List Finding} :
    r ∈ Finding.removals found ↔ Finding.removal r ∈ found := by
  rw [Finding.removals, List.mem_filterMap]
  constructor
  · rintro ⟨finding, hmem, heq⟩
    cases finding with
    | removal r' => rwa [← Option.some.inj heq]
    | query q => exact absurd heq (by simp)
  · exact fun h => ⟨_, h, rfl⟩

theorem inspect_spec (policy : Policy) (source : String) (around : Surrounding) (tree : Tree) :
    (inspect policy source around tree).2 = (removal? policy source (around, tree)).isSome ∧
      ∀ r, Finding.removal r ∈ (inspect policy source around tree).1 ↔
        removal? policy source (around, tree) = some r := by
  unfold inspect removal?
  cases tree.kind
  case debuggerStatement =>
    dsimp only
    split_ifs <;> simp [eq_comm]
  case call =>
    dsimp only
    cases consoleCall? source tree with
    | none => simp
    | some call =>
        dsimp only [Option.bind_eq_bind, Option.bind_some]
        split_ifs <;> simp [eq_comm]
  all_goals simp

/-- The walk removes a node that goes, and looks only into one that does not. -/
theorem mem_findings_iff {r : Removal} {around : Surrounding} {kind : Kind} {span : Span}
    {parts : List Tree} :
    Finding.removal r ∈ findings policy source around (.node kind span parts) ↔
      removal? policy source (around, .node kind span parts) = some r ∨
        removal? policy source (around, .node kind span parts) = none ∧
          Finding.removal r ∈ findingsIn policy source (around.below kind) parts := by
  obtain ⟨hremoved, hfound⟩ := inspect_spec policy source around (.node kind span parts)
  simp only [findings, hremoved]
  cases hself : removal? policy source (around, .node kind span parts) with
  | some found => simp [hfound, hself]
  | none => simp [hfound, hself]

mutual

theorem place_of_mem_findings {r : Removal} {around : Surrounding} : (tree : Tree) →
    Finding.removal r ∈ findings policy source around tree →
      ∃ place ∈ places around tree, removal? policy source place = some r
  | .node kind span parts, h => by
      rcases mem_findings_iff.mp h with hself | ⟨-, h⟩
      · exact ⟨_, List.mem_cons_self, hself⟩
      · obtain ⟨place, hplace, hr⟩ := place_of_mem_findingsIn parts h
        exact ⟨place, List.mem_cons_of_mem _ hplace, hr⟩

theorem place_of_mem_findingsIn {r : Removal} {around : Surrounding} : (trees : List Tree) →
    Finding.removal r ∈ findingsIn policy source around trees →
      ∃ place ∈ placesIn around trees, removal? policy source place = some r
  | [], h => by simp [findingsIn] at h
  | tree :: trees, h => by
      rw [findingsIn, List.mem_append] at h
      rcases h with h | h
      · obtain ⟨place, hplace, hr⟩ := place_of_mem_findings tree h
        exact ⟨place, List.mem_append_left _ hplace, hr⟩
      · obtain ⟨place, hplace, hr⟩ := place_of_mem_findingsIn trees h
        exact ⟨place, List.mem_append_right _ hplace, hr⟩

end

mutual

/-- A node that goes is removed, or stands in one that is. -/
theorem removed_of_place {place : Surrounding × Tree} {around : Surrounding}
    (hgoes : (removal? policy source place).isSome = true) : (tree : Tree) →
    place ∈ places around tree →
      ∃ outer ∈ places around tree, ∃ r, removal? policy source outer = some r ∧
        Finding.removal r ∈ findings policy source around tree ∧ place ∈ places outer.1 outer.2
  | .node kind span parts, h => by
      cases hself : removal? policy source (around, .node kind span parts) with
      | some r => exact ⟨_, List.mem_cons_self, r, hself, mem_findings_iff.mpr (Or.inl hself), h⟩
      | none =>
          rcases List.mem_cons.mp h with rfl | h
          · rw [hself] at hgoes
            exact absurd hgoes (by simp)
          · obtain ⟨outer, houter, r, hr, hmem, hinside⟩ := removed_of_placeIn hgoes parts h
            exact ⟨outer, List.mem_cons_of_mem _ houter, r, hr,
              mem_findings_iff.mpr (Or.inr ⟨hself, hmem⟩), hinside⟩

theorem removed_of_placeIn {place : Surrounding × Tree} {around : Surrounding}
    (hgoes : (removal? policy source place).isSome = true) : (trees : List Tree) →
    place ∈ placesIn around trees →
      ∃ outer ∈ placesIn around trees, ∃ r, removal? policy source outer = some r ∧
        Finding.removal r ∈ findingsIn policy source around trees ∧ place ∈ places outer.1 outer.2
  | [], h => by simp [placesIn] at h
  | tree :: trees, h => by
      rw [findingsIn]
      rcases List.mem_append.mp h with h | h
      · obtain ⟨outer, houter, r, hr, hmem, hinside⟩ := removed_of_place hgoes tree h
        exact ⟨outer, List.mem_append_left _ houter, r, hr, List.mem_append_left _ hmem, hinside⟩
      · obtain ⟨outer, houter, r, hr, hmem, hinside⟩ := removed_of_placeIn hgoes trees h
        exact ⟨outer, List.mem_append_right _ houter, r, hr, List.mem_append_right _ hmem, hinside⟩

end

def Removal.request (r : Removal) : Request :=
  .markConstruct r.span.start r.span.stop r.construct r.placement

def Removal.grant (r : Removal) : Grant := .construct r.span r.construct r.placement

end Script

namespace Session

open Text

theorem markRemovals_ok {session marked : Session} {removals : List Script.Removal}
    (h : session.markRemovals removals = .ok marked) :
    marked = session.after (removals.map Script.Removal.request) ∧
      session.grants (removals.map Script.Removal.request) = removals.map Script.Removal.grant := by
  induction removals generalizing session with
  | nil => exact ⟨(Except.ok.inj h).symm, rfl⟩
  | cons r removals ih =>
      rw [markRemovals] at h
      cases hnext : session.markConstruct r.span.start r.span.stop r.construct r.placement with
      | error error =>
          rw [hnext] at h
          exact absurd h (by simp [bind, Except.bind])
      | ok next =>
          rw [hnext] at h
          obtain ⟨hmarked, hgrants⟩ := ih h
          have hanswer : session.answer r.request = (.marked, next) := by
            rw [Script.Removal.request, answer, hnext]
          rw [List.map_cons, List.map_cons, after_cons, grants, granted, hanswer]
          exact ⟨hmarked, by rw [hgrants]; rfl⟩

end Session

namespace Pass

open Text

theorem runStatements_ok {parser : Parser} {policy : Policy} {source sourceName : String}
    {pruned : Pruned}
    (h : (runStatements parser policy source sourceName).result = .ok (some pruned)) :
    ∃ tree marked, parser.tree source = .ok tree ∧
      (Session.new source sourceName).markRemovals
        (Script.Finding.removals (Script.findings policy source .root tree)) = .ok marked ∧
      pruned.code = marked.code := by
  unfold runStatements at h
  split at h
  case isFalse => exact absurd h (by simp)
  unfold Policy.markStatements at h
  cases hparse : parser.tree source with
  | error error =>
      simp only [Session.new, hparse] at h
      exact absurd h (by simp [Except.map])
  | ok tree =>
      simp only [Session.new, hparse] at h
      rw [← Session.new] at h
      cases hmarked : (Session.new source sourceName).markRemovals
          (Script.Finding.removals (Script.findings policy source .root tree)) with
      | error error =>
          rw [hmarked] at h
          exact absurd h (by simp [Except.map])
      | ok marked =>
          rw [hmarked, Except.map, Except.ok.injEq, Session.finish] at h
          split at h
          · exact ⟨tree, marked, rfl, hmarked, by rw [← Option.some.inj h]⟩
          · exact absurd h (by simp)

end Pass

end JsPrune
