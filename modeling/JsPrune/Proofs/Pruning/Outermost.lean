import JsPrune.Proofs.Pruning.Nodes
/-!
# The outermost nodes that go

A walk looks at the nodes that do not stand in a removed one, each once and parents before their
parts.  It removes those among them that go, which are the outermost ones, and asks about the console
calls among them.
-/

namespace JsPrune.Script

namespace Site

/-- A policy lets a node go: a debugger statement in a list of statements, or a console call that it
accepts and that is the expression of an expression statement in such a list. -/
def Goes (policy : Policy) (source : String) (s : Site) : Prop :=
  (policy.debugger = true ∧ s.node.kind = .debuggerStatement ∧
    ∃ parent, s.parent? = some parent ∧ parent.node.kind.isStatementList = true) ∨
  ∃ method text, consoleCall? source s.node = some (method, text) ∧
    policy.console.removes method text = true ∧
    ∃ parent, s.parent? = some parent ∧ parent.node.kind = .expressionStatement ∧
      ∃ outer, parent.parent? = some outer ∧ outer.node.kind.isStatementList = true

def removal (s : Site) : Removal :=
  if s.node.kind = .debuggerStatement then ⟨s.node.span, .statement, .statementList⟩
  else ⟨s.node.span, .expression, .expressionStatement⟩

@[simp] theorem span_removal (s : Site) : s.removal.span = s.node.span := by
  unfold removal
  split <;> rfl

/-- What a policy asks about a node: about a console call, wherever it stands. -/
def questions (policy : Policy) (source : String) (s : Site) : List Query :=
  match consoleCall? source s.node with
  | none => []
  | some (method, text) => policy.console.query method text

end Site

/-! ## Nodes that are looked at -/

section

variable {policy : Policy} {source : String}

def goes (policy : Policy) (source : String) (s : Site) : Bool :=
  (removal? policy source (s.surrounding, s.node)).isSome

/-- Whether a walk comes to a node: it stands in no other node that goes. -/
def isMet (policy : Policy) (source : String) (s : Site) : Bool :=
  s.ancestors.all fun outer => !goes policy source outer

theorem isMet_part {level : Level} {part : Tree} {path : List Level}
    (hmet : isMet policy source ⟨level.around part, path⟩ = true)
    (hstays : goes policy source ⟨level.around part, path⟩ = false) :
    isMet policy source ⟨part, level :: path⟩ = true := by
  rw [isMet] at hmet
  rw [isMet, Site.ancestors_part, List.all_cons, hstays, hmet]
  rfl

mutual

theorem findings_eq (path : List Level) : (tree : Tree) →
    isMet policy source ⟨tree, path⟩ = true →
    findings policy source (Site.mk tree path).surrounding tree =
      ((nodesFrom path tree).filter (isMet policy source)).flatMap
        fun s => (inspect policy source s.surrounding s.node).1
  | .node kind span parts, hmet => by
      have hremoved := (inspect_spec policy source
        (Site.mk (.node kind span parts) path).surrounding (.node kind span parts)).1
      simp only [findings, nodesFrom, List.filter_cons, hmet, if_true, List.flatMap_cons]
      cases hgoes : goes policy source ⟨.node kind span parts, path⟩ with
      | true =>
          have hnone : (nodesAmong kind span path [] parts).filter (isMet policy source) = [] := by
            apply List.filter_eq_nil_iff.mpr
            intro s hs hmet
            have hself := mem_ancestors_of_mem_nodesAmong kind span path [] parts hs
            have hstays := List.all_eq_true.mp hmet _ hself
            rw [List.reverse_nil, List.nil_append, hgoes] at hstays
            exact absurd hstays (by decide)
          rw [if_pos (hremoved.trans hgoes), hnone, List.flatMap_nil, List.append_nil]
      | false =>
          have hparts := findingsIn_eq kind span path [] parts hmet hgoes
          rw [List.reverse_nil, List.nil_append] at hparts
          rw [if_neg (Bool.eq_false_iff.mp (hremoved.trans hgoes)), hparts]

theorem findingsIn_eq (kind : Kind) (span : Span) (path : List Level) (before : List Tree) :
    (parts : List Tree) →
    isMet policy source ⟨.node kind span (before.reverse ++ parts), path⟩ = true →
    goes policy source ⟨.node kind span (before.reverse ++ parts), path⟩ = false →
    findingsIn policy source
        ((Site.mk (.node kind span (before.reverse ++ parts)) path).surrounding.below kind) parts =
      ((nodesAmong kind span path before parts).filter (isMet policy source)).flatMap
        fun s => (inspect policy source s.surrounding s.node).1
  | [], _, _ => rfl
  | part :: parts, hmet, hstays => by
      have hpart := findings_eq (⟨kind, span, before, parts⟩ :: path) part
        (isMet_part hmet hstays)
      rw [← around_reverse] at hmet hstays
      have hrest := findingsIn_eq kind span path (part :: before) parts hmet hstays
      rw [around_reverse] at hrest
      rw [findingsIn, nodesAmong, List.filter_append, List.flatMap_append, ← hpart, ← hrest]
      rfl

end

/-! ## One node -/

theorem inStatementList_iff (s : Site) :
    s.surrounding.inStatementList = true ↔
      ∃ parent, s.parent? = some parent ∧ parent.node.kind.isStatementList = true := by
  rw [Surrounding.inStatementList, Site.surrounding, Option.any_map]
  cases s.parent? with
  | none => simp
  | some parent => simp

theorem isListedExpression_iff (s : Site) :
    s.surrounding.isListedExpression = true ↔
      ∃ parent, s.parent? = some parent ∧ parent.node.kind = .expressionStatement ∧
        ∃ outer, parent.parent? = some outer ∧ outer.node.kind.isStatementList = true := by
  rw [Surrounding.isListedExpression, Site.surrounding, Option.any_map]
  cases s.parent? with
  | none => simp
  | some parent => cases houter : parent.parent? <;> simp [houter]

theorem consoleCall?_eq_none {tree : Tree} (h : tree.kind ≠ .call) :
    consoleCall? source tree = none := by
  unfold consoleCall? consoleMethod?
  split
  · exact absurd rfl h
  · rfl

theorem goes_iff (s : Site) : goes policy source s = true ↔ s.Goes policy source := by
  have hnone : s.node.kind ≠ .call → consoleCall? source s.node = none := consoleCall?_eq_none
  rw [goes, removal?, Site.Goes, ← inStatementList_iff]
  simp only [← isListedExpression_iff]
  cases hkind : s.node.kind
  case call =>
    cases consoleCall? source s.node with
    | none => simp
    | some call =>
        obtain ⟨method, text⟩ := call
        simp
  all_goals simp [hnone, hkind]

theorem inspect_eq (s : Site) :
    (inspect policy source s.surrounding s.node).1 =
      (s.questions policy source).map .query ++
        if goes policy source s then [.removal s.removal] else [] := by
  have hnone : s.node.kind ≠ .call → consoleCall? source s.node = none := consoleCall?_eq_none
  rw [goes, Site.questions, Site.removal]
  unfold inspect removal?
  cases hkind : s.node.kind
  case call =>
    cases consoleCall? source s.node with
    | none => simp
    | some call =>
        dsimp only [Option.bind_eq_bind, Option.bind_some]
        split <;> simp
  case debuggerStatement =>
    rw [hnone (by simp [hkind])]
    dsimp only
    split <;> simp
  all_goals simp [hnone, hkind]

theorem removals_inspect (s : Site) :
    Finding.removals (inspect policy source s.surrounding s.node).1 =
      if goes policy source s then [s.removal] else [] := by
  rw [inspect_eq, Finding.removals, List.filterMap_append, List.filterMap_map]
  split <;> simp

theorem queries_inspect (s : Site) :
    Finding.queries (inspect policy source s.surrounding s.node).1 =
      s.questions policy source := by
  rw [inspect_eq, Finding.queries, List.filterMap_append, List.filterMap_map]
  split <;> simp

end

/-! ## What a walk returns -/

section

variable {policy : Policy} {source : String}

def visited (policy : Policy) (source : String) (tree : Tree) : List Site :=
  (nodes tree).filter (isMet policy source)

def outermost (policy : Policy) (source : String) (tree : Tree) : List Site :=
  (visited policy source tree).filter (goes policy source)

variable {tree : Tree} {s : Site}

theorem mem_outermost_iff :
    s ∈ outermost policy source tree ↔
      s ∈ nodes tree ∧ isMet policy source s = true ∧ goes policy source s = true := by
  rw [outermost, visited, List.mem_filter, List.mem_filter, and_assoc]

/-- A node that goes is an outermost one, or stands in one. -/
theorem exists_outermost (hs : s ∈ nodes tree) (hgoes : goes policy source s = true) :
    s ∈ outermost policy source tree ∨
      ∃ outer ∈ s.ancestors, outer ∈ outermost policy source tree := by
  -- By induction on the length of the way: the nodes around have shorter ones.
  induction hn : s.path.length using Nat.strongRecOn generalizing s with
  | ind n ih =>
      cases hmet : isMet policy source s with
      | true => exact Or.inl (mem_outermost_iff.mpr ⟨hs, hmet, hgoes⟩)
      | false =>
          obtain ⟨outer, houter, hnot⟩ := List.all_eq_false.mp hmet
          rw [Bool.not_eq_true, Bool.not_eq_false'] at hnot
          have hshorter := Site.length_path_of_mem_ancestors houter
          rw [hn] at hshorter
          rcases ih _ hshorter (mem_nodes_of_mem_ancestors hs houter) hnot rfl with h | ⟨o, ho, h⟩
          · exact Or.inr ⟨outer, houter, h⟩
          · exact Or.inr ⟨o, Site.ancestors_trans houter ho, h⟩

/-- A walk comes to a node exactly if the node stands in no outermost one. -/
theorem isMet_iff (hs : s ∈ nodes tree) :
    isMet policy source s = true ↔
      ∀ outer ∈ s.ancestors, outer ∉ outermost policy source tree := by
  rw [isMet, List.all_eq_true]
  constructor
  · intro hmet outer houter hmem
    have hstays := hmet outer houter
    rw [(mem_outermost_iff.mp hmem).2.2] at hstays
    exact absurd hstays (by decide)
  · intro hnone outer houter
    rw [Bool.not_eq_true']
    by_contra hgoes
    rw [Bool.not_eq_false] at hgoes
    rcases exists_outermost (mem_nodes_of_mem_ancestors hs houter) hgoes with h | ⟨o, ho, h⟩
    · exact hnone outer houter h
    · exact hnone o (Site.ancestors_trans houter ho) h

theorem findings_root (policy : Policy) (source : String) (tree : Tree) :
    findings policy source .root tree =
      (visited policy source tree).flatMap
        fun s => (inspect policy source s.surrounding s.node).1 :=
  findings_eq [] tree rfl

theorem removals_findings (policy : Policy) (source : String) (tree : Tree) :
    Finding.removals (findings policy source .root tree) =
      (outermost policy source tree).map Site.removal := by
  calc Finding.removals (findings policy source .root tree)
    _ = (visited policy source tree).flatMap fun s =>
        Finding.removals (inspect policy source s.surrounding s.node).1 := by
      rw [findings_root, Finding.removals, List.filterMap_flatMap]
      rfl
    _ = (visited policy source tree).flatMap fun s =>
        if goes policy source s then [s.removal] else [] := by
      simp only [removals_inspect]
    _ = (outermost policy source tree).map Site.removal := by
      rw [outermost]
      induction visited policy source tree with
      | nil => rfl
      | cons s rest ih =>
          rw [List.flatMap_cons, ih, List.filter_cons]
          split <;> rfl

theorem queries_findings (policy : Policy) (source : String) (tree : Tree) :
    Finding.queries (findings policy source .root tree) =
      (visited policy source tree).flatMap (Site.questions policy source) := by
  calc Finding.queries (findings policy source .root tree)
    _ = (visited policy source tree).flatMap fun s =>
        Finding.queries (inspect policy source s.surrounding s.node).1 := by
      rw [findings_root, Finding.queries, List.filterMap_flatMap]
      rfl
    _ = (visited policy source tree).flatMap (Site.questions policy source) := by
      simp only [queries_inspect]

/-- What a policy lets a walk over a tree find. -/
structure FindsOutermost (policy : Policy) (source : String) (tree : Tree) : Prop where
  /-- The walk ends, with the findings of the tree. -/
  ends : Walk.Reaches policy source (.visit (.root tree) [])
    (.done (findings policy source .root tree))
  /-- The nodes of the tree are listed parents before their parts, and each once.  In this order the
  walk comes to some of them, and returns some. -/
  nodup : (nodes tree).Nodup
  visited_sublist : (visited policy source tree).Sublist (nodes tree)
  outermost_sublist : (outermost policy source tree).Sublist (nodes tree)
  /-- A node that goes is returned if it stands in no other one that is returned. -/
  mem_outermost : ∀ s ∈ nodes tree, s ∈ outermost policy source tree ↔
    s.Goes policy source ∧ ∀ outer ∈ s.ancestors, outer ∉ outermost policy source tree
  mem_visited : ∀ s ∈ nodes tree, s ∈ visited policy source tree ↔
    ∀ outer ∈ s.ancestors, outer ∉ outermost policy source tree
  removals_eq : Finding.removals (findings policy source .root tree) =
    (outermost policy source tree).map Site.removal
  /-- What is returned is disjoint and ascends. -/
  ascending : (Finding.removals (findings policy source .root tree)).Pairwise fun r r' =>
    r.span.stop ≤ r'.span.start
  start_le_stop : ∀ r ∈ Finding.removals (findings policy source .root tree),
    r.span.start ≤ r.span.stop
  /-- The policy is asked about every console call in no returned node, wherever it stands. -/
  queries_eq : Finding.queries (findings policy source .root tree) =
    (visited policy source tree).flatMap (Site.questions policy source)

/-- A walk over an ordered tree ends, and has found the outermost nodes that go. -/
theorem walk_finds_outermost (policy : Policy) (source : String) {tree : Tree}
    (h : tree.isOrdered = true) : FindsOutermost policy source tree where
  ends := Walk.reaches_done policy source tree
  nodup := nodup_nodes tree
  visited_sublist := List.filter_sublist
  outermost_sublist := List.filter_sublist.trans List.filter_sublist
  mem_outermost s hs := by
    rw [mem_outermost_iff, isMet_iff hs, goes_iff, and_iff_right hs, and_comm]
  mem_visited s hs := by
    rw [visited, List.mem_filter, isMet_iff hs, and_iff_right hs]
  removals_eq := removals_findings policy source tree
  ascending := by
    have hleads := (pairwise_leads_nodes h).sublist
      (List.filter_sublist.trans List.filter_sublist :
        (outermost policy source tree).Sublist (nodes tree))
    rw [removals_findings, List.pairwise_map]
    apply hleads.imp_of_mem
    intro s t hs ht hst
    have hnone := (isMet_iff (mem_outermost_iff.mp ht).1).mp (mem_outermost_iff.mp ht).2.1
    rw [Site.span_removal, Site.span_removal]
    exact hst.resolve_left fun hinside => hnone s hinside hs
  start_le_stop r hr := by
    rw [removals_findings] at hr
    obtain ⟨s, hs, rfl⟩ := List.mem_map.mp hr
    rw [Site.span_removal]
    exact (within_of_mem_nodesFrom [] tree h (mem_outermost_iff.mp hs).1).2.1
  queries_eq := queries_findings policy source tree

def nestedCalls : Tree :=
  .node .script ⟨0, 36⟩ [
    .node .expressionStatement ⟨0, 28⟩ [
      .node .call ⟨0, 27⟩ [
        .node .member ⟨0, 11⟩ [.node .identifier ⟨0, 7⟩ [], .node .property ⟨8, 11⟩ []],
        .node .arguments ⟨11, 27⟩ [
          .node .call ⟨12, 26⟩ [
            .node .member ⟨12, 23⟩ [.node .identifier ⟨12, 19⟩ [], .node .property ⟨20, 23⟩ []],
            .node .arguments ⟨23, 26⟩ [.node .literal ⟨24, 25⟩ []]]]]],
    .node .expressionStatement ⟨29, 35⟩ [
      .node .call ⟨29, 34⟩ [.node .identifier ⟨29, 32⟩ [], .node .arguments ⟨32, 34⟩ []]]]

theorem walk_finds_outermost_nested :
    nestedCalls.isOrdered = true ∧
      FindsOutermost (Policy.ofPreset none) "console.log(console.log(1));\nrun();\n" nestedCalls :=
  ⟨by decide, walk_finds_outermost _ _ (by decide)⟩

-- A call inside another one goes with it, and is not asked about.
example : findings ⟨.all true, .all true, true, .filter fun _ _ => true, true⟩
      "console.log(console.log(1));\nrun();\n" .root nestedCalls =
    [.query (.call "log" "console.log(console.log(1))"),
      .removal ⟨⟨0, 27⟩, .expression, .expressionStatement⟩] := by
  decide +kernel

end

end JsPrune.Script
