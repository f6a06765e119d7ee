import JsPrune.Proofs.Concrete.Shedding
/-!
# A small language

The scripts of a part of the language: the statements `a;` and `debugger;`, with spaces and line feeds
between them.  Its parser has all that is relied on of one.
-/

namespace JsPrune.Sample

open Concrete

inductive Item where
  | blank
  | newline
  | name
  | debugger
  deriving DecidableEq

def Item.concrete : Item → Concrete
  | blank => .leaf (.space ' ')
  | newline => .leaf (.space '\n')
  | name => .node .expressionStatement
      [.node .identifier [.leaf (.token ['a'])], .leaf (.token [';'])]
  | debugger => .node .debuggerStatement
      [.leaf (.token "debugger".toList), .leaf (.token [';'])]

def parts (items : List Item) : List Concrete := items.map Item.concrete

def items? : List Char → Option (List Item)
  | [] => some []
  | ' ' :: cs => (items? cs).map (.blank :: ·)
  | '\n' :: cs => (items? cs).map (.newline :: ·)
  | 'a' :: ';' :: cs => (items? cs).map (.name :: ·)
  | 'd' :: 'e' :: 'b' :: 'u' :: 'g' :: 'g' :: 'e' :: 'r' :: ';' :: cs =>
    (items? cs).map (.debugger :: ·)
  | _ => none

def reading : Reading := ⟨fun source => (items? source.toList).map parts⟩

def parser : Parser :=
  ⟨fun source => (reading.read source).map fun parts =>
      .node .script ⟨0, source.utf8ByteSize⟩ (treesIn 0 parts),
    fun _ => false⟩

/-! ## Reading -/

theorem leavesIn_parts_cons (item : Item) (items : List Item) :
    leavesIn (parts (item :: items)) = item.concrete.leaves ++ leavesIn (parts items) := rfl

theorem bareIn_parts_cons (item : Item) (items : List Item) :
    bareIn (parts (item :: items)) = item.concrete.bare ++ bareIn (parts items) := rfl

@[simp] theorem parts_append (items items' : List Item) :
    parts (items ++ items') = parts items ++ parts items' :=
  List.map_append

theorem textOf_of_items? {cs : List Char} {items : List Item} (h : items? cs = some items) :
    Leaf.textOf (leavesIn (parts items)) = cs := by
  fun_induction items? cs generalizing items with
  | case1 => rw [← Option.some.inj h]; rfl
  | case2 cs ih | case3 cs ih | case4 cs ih | case5 cs ih =>
      obtain ⟨rest, hrest, rfl⟩ := Option.map_eq_some_iff.mp h
      rw [leavesIn_parts_cons, Leaf.textOf_append]
      exact congrArg _ (ih hrest)
  | case6 => exact absurd h (by simp)

theorem items?_textOf (items : List Item) :
    items? (Leaf.textOf (leavesIn (parts items))) = some items := by
  induction items with
  | nil => rfl
  | cons item items ih =>
      rw [leavesIn_parts_cons, Leaf.textOf_append]
      cases item with
      | blank => exact congrArg (Option.map (Item.blank :: ·)) ih
      | newline => exact congrArg (Option.map (Item.newline :: ·)) ih
      | name => exact congrArg (Option.map (Item.name :: ·)) ih
      | debugger => exact congrArg (Option.map (Item.debugger :: ·)) ih

theorem leaf_of_mem {items : List Item} {l : Leaf} (h : l ∈ leavesIn (parts items)) :
    IsTrim l ∧ (∀ text, l ≠ .lineComment text) ∧ l ≠ .inserted := by
  induction items with
  | nil => exact absurd h List.not_mem_nil
  | cons item items ih =>
      rw [leavesIn_parts_cons] at h
      rcases List.mem_append.mp h with h | h
      · cases item <;> simp only [Item.concrete, leaves, leavesIn, List.append_nil,
          List.singleton_append, List.mem_cons, List.not_mem_nil, or_false] at h
        case blank => subst h; exact ⟨trivial, by simp, by simp⟩
        case newline => subst h; exact ⟨trivial, by simp, by simp⟩
        case name => rcases h with rfl | rfl <;> exact ⟨⟨rfl, rfl⟩, by simp, by simp⟩
        case debugger => rcases h with rfl | rfl <;> exact ⟨⟨rfl, rfl⟩, by simp, by simp⟩
      · exact ih h

/-- What is read has the leaves and the nodes of some items. -/
theorem reads_iff {cs : List Concrete} :
    reading.Reads cs ↔
      ∃ items, leavesIn (parts items) = leavesIn cs ∧ bareIn (parts items) = bareIn cs := by
  have hparts (items : List Item) : Leaf.inserted ∉ leavesIn (parts items) :=
    fun hmem => (leaf_of_mem hmem).2.2 rfl
  constructor
  · rintro ⟨cs', hread, hleaves, hbare⟩
    obtain ⟨items, -, rfl⟩ := Option.map_eq_some_iff.mp hread
    have hcs : Leaf.inserted ∉ leavesIn cs := by
      intro hmem
      have hmem' : Leaf.inserted ∈ leavesIn (bareIn (parts items)) := by
        rw [hbare, leavesIn_bareIn]
        exact List.mem_filter.mpr ⟨hmem, rfl⟩
      rw [leavesIn_bareIn] at hmem'
      exact hparts items (List.mem_filter.mp hmem').1
    rw [Leaf.written_of_not_mem (hparts items), Leaf.written_of_not_mem hcs] at hleaves
    exact ⟨items, hleaves, hbare⟩
  · rintro ⟨items, hleaves, hbare⟩
    refine ⟨parts items, ?_, by rw [hleaves], hbare⟩
    dsimp only [reading]
    rw [← hleaves, String.toList_ofList, items?_textOf]
    rfl

/-! ## Where items start -/

theorem Item.space_or_statement (item : Item) :
    (∃ c, item.concrete = .leaf (.space c)) ∨
      ∃ k word inner, item.concrete.leaves = [.token word, .token [';']] ∧
        item.concrete.bare = [.node k inner] ∧
        leavesIn inner = [.token word, .token [';']] ∧
        k.isStatementList = false ∧ AllNodesIn (fun k _ => k.isStatementList = false) inner := by
  cases item with
  | blank => exact Or.inl ⟨_, rfl⟩
  | newline => exact Or.inl ⟨_, rfl⟩
  | name =>
      exact Or.inr ⟨_, _, _, rfl, rfl, rfl, rfl, ⟨rfl, trivial, trivial⟩, trivial, trivial⟩
  | debugger => exact Or.inr ⟨_, _, _, rfl, rfl, rfl, rfl, trivial, trivial, trivial⟩

theorem exists_of_space {items : List Item} {left right : List Leaf} {c : Char}
    (h : leavesIn (parts items) = left ++ .space c :: right) :
    ∃ before item after, items = before ++ item :: after ∧ item.concrete = .leaf (.space c) ∧
      leavesIn (parts before) = left ∧ leavesIn (parts after) = right := by
  induction items generalizing left with
  | nil => exact absurd h (by simp [parts, leavesIn])
  | cons item items ih =>
      rw [leavesIn_parts_cons] at h
      rcases item.space_or_statement with ⟨d, hspace⟩ | ⟨k, word, inner, hleaves, -⟩
      · rw [hspace, leaves, List.singleton_append] at h
        cases left with
        | nil =>
            obtain ⟨hc, hrest⟩ := List.cons.inj h
            exact ⟨[], item, items, rfl, by rw [hspace, hc], rfl, hrest⟩
        | cons l left =>
            obtain ⟨rfl, hrest⟩ := List.cons.inj h
            obtain ⟨before, x, after, rfl, hx, rfl, hafter⟩ := ih hrest
            exact ⟨item :: before, x, after, rfl, hx, by rw [leavesIn_parts_cons, hspace]; rfl, hafter⟩
      · rw [hleaves] at h
        rcases left with _ | ⟨l, _ | ⟨l', left⟩⟩
        · exact absurd (List.cons.inj h).1 (by simp)
        · exact absurd (List.cons.inj (List.cons.inj h).2).1 (by simp)
        · obtain ⟨rfl, htail⟩ := List.cons.inj h
          obtain ⟨rfl, hrest⟩ := List.cons.inj htail
          obtain ⟨before, x, after, rfl, hx, rfl, hafter⟩ := ih hrest
          exact ⟨item :: before, x, after, rfl, hx, by rw [leavesIn_parts_cons, hleaves]; rfl, hafter⟩

def tokens (leaves : List Leaf) : Nat := leaves.countP fun l => !l.isGap

theorem tokens_append (ls ls' : List Leaf) : tokens (ls ++ ls') = tokens ls + tokens ls' :=
  List.countP_append

theorem tokens_token (text : List Char) (ls : List Leaf) :
    tokens (.token text :: ls) = tokens ls + 1 :=
  List.countP_cons_of_pos rfl

/-- Every statement has two tokens, so behind an even number of them an item ends. -/
theorem exists_split {items : List Item} {left right : List Leaf}
    (h : leavesIn (parts items) = left ++ right) (heven : tokens left % 2 = 0) :
    ∃ before after, items = before ++ after ∧ leavesIn (parts before) = left ∧
      leavesIn (parts after) = right := by
  induction items generalizing left with
  | nil =>
      obtain ⟨rfl, rfl⟩ := List.append_eq_nil_iff.mp h.symm
      exact ⟨[], [], rfl, rfl, rfl⟩
  | cons item items ih =>
      cases left with
      | nil => exact ⟨[], item :: items, rfl, rfl, h⟩
      | cons l left =>
          rw [leavesIn_parts_cons] at h
          rcases item.space_or_statement with ⟨d, hspace⟩ | ⟨k, word, inner, hleaves, -⟩
          · rw [hspace, leaves, List.singleton_append] at h
            obtain ⟨rfl, hrest⟩ := List.cons.inj h
            obtain ⟨before, after, rfl, rfl, hafter⟩ := ih hrest heven
            exact ⟨item :: before, after, rfl, by rw [leavesIn_parts_cons, hspace]; rfl, hafter⟩
          · rw [hleaves] at h
            obtain ⟨rfl, htail⟩ := List.cons.inj h
            cases left with
            | nil => exact absurd heven (by rw [tokens_token]; decide)
            | cons l' left =>
                obtain ⟨rfl, hrest⟩ := List.cons.inj htail
                rw [tokens_token, tokens_token] at heven
                obtain ⟨before, after, rfl, rfl, hafter⟩ := ih hrest (by omega)
                exact ⟨item :: before, after, rfl, by rw [leavesIn_parts_cons, hleaves]; rfl, hafter⟩

theorem tokens_leavesIn_bareIn (cs : List Concrete) :
    tokens (leavesIn (bareIn cs)) = tokens (leavesIn cs) := by
  rw [leavesIn_bareIn, tokens, tokens, List.countP_filter]
  simp only [Bool.and_self]

theorem node_of_mem {items : List Item} {n : Concrete} (h : n ∈ bareIn (parts items)) :
    tokens n.leaves = 2 ∧ ∃ k inner, n = .node k inner ∧ k.isStatementList = false ∧
      AllNodesIn (fun k _ => k.isStatementList = false) inner := by
  induction items with
  | nil => exact absurd h (by simp [parts, bareIn])
  | cons item items ih =>
      rw [bareIn_parts_cons] at h
      rcases List.mem_append.mp h with h | h
      · rcases item.space_or_statement with ⟨c, hspace⟩ | ⟨k, word, inner, -, hbare, hleaves, hk, hall⟩
        · rw [hspace] at h
          exact absurd h (by simp [bare, Leaf.isGap])
        · rw [hbare, List.mem_singleton] at h
          rw [h, leaves, hleaves]
          exact ⟨rfl, k, inner, rfl, hk, hall⟩
      · exact ih h

theorem tokens_of_nodes {ns : List Concrete} (h : ∀ n ∈ ns, tokens n.leaves = 2) :
    tokens (leavesIn ns) = 2 * ns.length := by
  induction ns with
  | nil => rfl
  | cons n ns ih =>
      rw [leavesIn, tokens_append, h n List.mem_cons_self,
        ih fun n' hn' => h n' (List.mem_cons_of_mem _ hn'), List.length_cons]
      omega

/-! ## What is relied on -/

theorem flat_parts : (items : List Item) →
    AllNodesIn (fun k _ => k.isStatementList = false) (parts items)
  | [] => trivial
  | item :: items => by
      refine ⟨?_, flat_parts items⟩
      cases item <;> simp [Item.concrete, AllNodes, AllNodesIn, Kind.isStatementList]

theorem flat_of_bareIn {items : List Item} {cs : List Concrete}
    (h : bareIn (parts items) = bareIn cs) :
    AllNodesIn (fun k _ => k.isStatementList = false) cs := by
  rw [← allNodesIn_bareIn, ← h, allNodesIn_bareIn]
  exact flat_parts items

theorem reads_of_space {cs cs' : List Concrete} (hreads : reading.Reads cs) {l r : List Leaf}
    {c : Char} (hleaves : leavesIn cs = l ++ .space c :: r) (hleaves' : leavesIn cs' = l ++ r)
    (hbare : bareIn cs' = bareIn cs) : reading.Reads cs' := by
  obtain ⟨items, hl, hb⟩ := reads_iff.mp hreads
  rw [hleaves] at hl
  obtain ⟨before, item, after, rfl, hitem, rfl, rfl⟩ := exists_of_space hl
  refine reads_iff.mpr ⟨before ++ after, by rw [parts_append, leavesIn_append, hleaves'], ?_⟩
  rw [hbare, ← hb, parts_append, parts_append, bareIn_append, bareIn_append, bareIn_parts_cons,
    hitem]
  rfl

theorem tokens_parts (items : List Item) :
    tokens (leavesIn (parts items)) = 2 * (bareIn (parts items)).length := by
  rw [← tokens_leavesIn_bareIn]
  exact tokens_of_nodes fun n hn => (node_of_mem hn).1

theorem reads_of_statement {before inner after : List Concrete} {k : Kind}
    (hreads : reading.Reads (before ++ .node k inner :: after)) :
    reading.Reads (before ++ after) := by
  obtain ⟨items, hleaves, hbare⟩ := reads_iff.mp hreads
  rw [leavesIn_append, leavesIn] at hleaves
  rw [bareIn_append, bareIn, bare, List.singleton_append] at hbare
  have hnodes : ∀ n ∈ bareIn before ++ .node k (bareIn inner) :: bareIn after,
      tokens n.leaves = 2 := fun n hn => (node_of_mem (hbare ▸ hn)).1
  have hbefore : tokens (leavesIn before) = 2 * (bareIn before).length := by
    rw [← tokens_leavesIn_bareIn]
    exact tokens_of_nodes fun n hn => hnodes n (List.mem_append_left _ hn)
  have hinner : tokens (Concrete.node k inner).leaves = 2 := by
    rw [leaves, ← tokens_leavesIn_bareIn]
    exact hnodes (.node k (bareIn inner)) (by simp)
  -- The items in front of the statement, those with its leaves, and those behind it.
  obtain ⟨front, rest, rfl, hfront, hrest⟩ := exists_split hleaves (by omega)
  obtain ⟨middle, back, rfl, hmiddle, hback⟩ := exists_split hrest (by omega)
  simp only [parts_append, bareIn_append] at hbare
  have hcount := tokens_parts front
  have hcount' := tokens_parts middle
  rw [hfront, hbefore] at hcount
  rw [hmiddle, hinner] at hcount'
  obtain ⟨hfront', hbare⟩ := List.append_inj hbare (by omega)
  rw [← List.singleton_append] at hbare
  obtain ⟨-, hback'⟩ := List.append_inj hbare (by rw [List.length_singleton]; omega)
  refine reads_iff.mpr ⟨front ++ back, ?_, ?_⟩
  · rw [parts_append, leavesIn_append, leavesIn_append, hfront, hback]
  · rw [parts_append, bareIn_append, bareIn_append, hfront', hback']

theorem reads_of_sheds {cs cs' : List Concrete} (hreads : reading.Reads cs)
    (hsheds : Sheds .script [] [] cs cs') : reading.Reads cs' := by
  obtain ⟨items, -, hbare⟩ := reads_iff.mp hreads
  rcases cases_of_sheds hsheds (flat_of_bareIn hbare) with
    ⟨l, c, r, hleaves, hleaves', hbare'⟩ | ⟨-, before, k, inner, after, rfl, rfl⟩
  · exact reads_of_space hreads hleaves hleaves' hbare'
  · exact reads_of_statement hreads

theorem regular_parts : (items : List Item) → AllNodesIn Regular (parts items)
  | [] => trivial
  | item :: items => by
      refine ⟨?_, regular_parts items⟩
      cases item with
      | blank => exact trivial
      | newline => exact trivial
      | name =>
          refine ⟨⟨by simp, fun _ => ?_, by simp⟩, ⟨⟨by simp, by simp, by simp⟩, trivial, trivial⟩,
            trivial, trivial⟩
          exact ⟨_, _, ['a'], [], [], _, rfl, rfl, by simp, Or.inl rfl⟩
      | debugger =>
          refine ⟨⟨fun _ => ?_, by simp, by simp⟩, trivial, trivial, trivial⟩
          exact ⟨"debugger".toList, [], _, rfl, Or.inl rfl⟩

theorem wellFormed_parts (items : List Item) : WellFormed (parts items) where
  trim l hl := (leaf_of_mem hl).1
  lineComment := by
    intro before behind text h
    have hmem : .lineComment text ∈ leavesIn (parts items) := by rw [h]; simp
    exact absurd rfl ((leaf_of_mem hmem).2.1 text)
  inserted := by
    intro before behind blanks rest h
    have hmem : .inserted ∈ leavesIn (parts items) := by rw [h]; simp
    exact absurd rfl (leaf_of_mem hmem).2.2
  regular := regular_parts items

theorem tree_of_read {source : String} {cs : List Concrete} (h : reading.read source = some cs) :
    parser.tree source = .ok (.node .script ⟨0, source.utf8ByteSize⟩ (treesIn 0 cs)) := by
  simp [Parser.tree, parser, h]

theorem describes : reading.Describes parser where
  read_of_tree := by
    intro source tree h
    cases hread : reading.read source with
    | none => exact absurd h (by simp [Parser.tree, parser, hread])
    | some cs => exact ⟨cs, rfl⟩
  tree_of_read h := ⟨_, tree_of_read h⟩
  text_of_read h := by
    obtain ⟨items, hitems, rfl⟩ := Option.map_eq_some_iff.mp h
    exact textOf_of_items? hitems
  wellFormed h := by
    obtain ⟨items, -, rfl⟩ := Option.map_eq_some_iff.mp h
    exact wellFormed_parts items
  sheds := reads_of_sheds

end JsPrune.Sample
