import JsPrune.Proofs.Concrete.Basic
import JsPrune.Proofs.Text.Chars
import JsPrune.Script.Parser
import Mathlib.Logic.Relation
/-!
# What a script can lose

A statement that stands in a list of statements can go if what is left around it is read as before.
This is so if the text in front of it ends a statement, or starts a list of them.  Where no more than an
inserted semicolon ended the statement in front, a semicolon has to be inserted there again: what comes
next must not continue an expression, and must stand on another line.

What is relied on of a parser is stated for one space or one statement at a time.
-/

namespace JsPrune

namespace Leaf

def last? (leaves : List Leaf) : Option Leaf := (leaves.filter fun l => !l.isSlack).getLast?

def first? (leaves : List Leaf) : Option Leaf := leaves.find? fun l => !l.isSlack

def slack (before behind : List Leaf) : List Leaf :=
  before.reverse.takeWhile isSlack ++ behind.takeWhile isSlack

/-- Text that ends a statement as it stands, or starts a list of statements. -/
def settles (l : Leaf) : Bool :=
  l == token [';'] || l == token ['\x7b'] || l == token ['\x7d'] || l == token [':']

/-- Whether a semicolon might not be inserted in front of this. -/
def continues : Leaf → Bool
  | token text =>
    text.head?.all "\x60,:;*%><=[(?^|&/.+-!".toList.contains ||
      text == "in".toList || text == "instanceof".toList
  | _ => true

/-- A word that might take up the one on the next line. -/
def goesOn (l : Leaf) : Bool :=
  ["let", "async", "await", "yield", "using"].any fun word => l == token word.toList

/-- Whether a parser looks for a semicolon to insert past this: past ASCII spaces and past comments
that a slash starts. -/
def isPlain : Leaf → Bool
  | space c => Text.isSpaceChar c
  | lineComment text | blockComment text => text.head? == some '/'
  | token _ => false
  | inserted => true

/-- Whether a semicolon is inserted between leaves: at the end of a block or a script, and before a
new line that does not continue the old one. -/
def insertsBetween (before behind : List Leaf) : Bool :=
  (slack before behind).all isPlain &&
    match first? behind with
    | none => true
    | some next => next == token ['\x7d'] ||
        !(last? before).any goesOn && !next.continues && (slack before behind).contains (space '\n')

/-- Whether statements can go from between leaves. -/
def free (before behind : List Leaf) : Bool :=
  if (slack before behind).contains inserted then insertsBetween before behind
  else (last? before).all settles

-- Behind `a` on the line before, `b` can follow what goes, and a regular expression cannot.
example :
    free [token ['a'], inserted, space '\n'] [space '\n', token ['b']] = true ∧
      free [token ['a'], inserted, space '\n'] [space '\n', token "/b/".toList] = false := by
  decide

def isBlank : Leaf → Bool
  | space c => Scanner.isBlankChar c
  | _ => false

/-- Whether a comment reaches to the end of its line here. -/
def inComment (before : List Leaf) : Bool :=
  match (written before).getLast? with
  | some (lineComment _) => true
  | _ => false

end Leaf

open Text (isSpaceChar)

namespace Concrete

mutual

def AllNodes (p : Kind → List Concrete → Prop) : Concrete → Prop
  | .leaf _ => True
  | .node kind parts => p kind parts ∧ AllNodesIn p parts

def AllNodesIn (p : Kind → List Concrete → Prop) : List Concrete → Prop
  | [] => True
  | c :: cs => AllNodes p c ∧ AllNodesIn p cs

end

theorem allNodesIn_append {p : Kind → List Concrete → Prop} {cs ds : List Concrete} :
    AllNodesIn p (cs ++ ds) ↔ AllNodesIn p cs ∧ AllNodesIn p ds := by
  induction cs with
  | nil => simp [AllNodesIn]
  | cons c cs ih => rw [List.cons_append, AllNodesIn, AllNodesIn, ih, and_assoc]

mutual

theorem allNodesIn_bare {p : Kind → Prop} : (c : Concrete) →
    (AllNodesIn (fun k _ => p k) c.bare ↔ AllNodes (fun k _ => p k) c)
  | .leaf l => by
      rw [bare]
      split <;> simp [AllNodesIn, AllNodes]
  | .node kind parts => by
      rw [bare, AllNodesIn, AllNodesIn, and_true, AllNodes, AllNodes, allNodesIn_bareIn parts]

theorem allNodesIn_bareIn {p : Kind → Prop} : (cs : List Concrete) →
    (AllNodesIn (fun k _ => p k) (bareIn cs) ↔ AllNodesIn (fun k _ => p k) cs)
  | [] => Iff.rfl
  | c :: cs => by
      rw [bareIn, allNodesIn_append, AllNodesIn, allNodesIn_bare c, allNodesIn_bareIn cs]

end

/-- One space or one statement goes from a list of parts that stands between other leaves. -/
inductive Sheds : Kind → List Leaf → List Leaf → List Concrete → List Concrete → Prop
  | space {kind : Kind} {left right : List Leaf} {before after : List Concrete} {c : Char} :
      Leaf.free (left ++ leavesIn before) (leavesIn after ++ right) = true →
      Leaf.inComment (left ++ leavesIn before) = false →
      Sheds kind left right (before ++ .leaf (.space c) :: after) (before ++ after)
  | statement {kind k : Kind} {left right : List Leaf} {before parts after : List Concrete} :
      kind.isStatementList = true → k = .debuggerStatement ∨ k = .expressionStatement →
      Leaf.free (left ++ leavesIn before) (leavesIn after ++ right) = true →
      Leaf.inComment (left ++ leavesIn before) = false →
      Sheds kind left right (before ++ .node k parts :: after) (before ++ after)
  | inside {kind k : Kind} {left right : List Leaf} {before parts parts' after : List Concrete} :
      Sheds k (left ++ leavesIn before) (leavesIn after ++ right) parts parts' →
      Sheds kind left right (before ++ .node k parts :: after) (before ++ .node k parts' :: after)

/-- Where no list of statements is inside another one, a space goes, or a statement of the one list. -/
theorem cases_of_sheds {kind : Kind} {left right : List Leaf} {parts parts' : List Concrete}
    (h : Sheds kind left right parts parts')
    (hall : AllNodesIn (fun k _ => k.isStatementList = false) parts) :
    (∃ l c r, leavesIn parts = l ++ .space c :: r ∧ leavesIn parts' = l ++ r ∧
      bareIn parts' = bareIn parts) ∨
    kind.isStatementList = true ∧ ∃ before k inner after,
      parts = before ++ .node k inner :: after ∧ parts' = before ++ after := by
  induction h with
  | @space _ _ _ before after c _ _ =>
      refine Or.inl ⟨leavesIn before, c, leavesIn after, ?_, ?_, ?_⟩
      · rw [leavesIn_append, leavesIn, leaves, List.singleton_append]
      · rw [leavesIn_append]
      · rw [bareIn_append, bareIn_append, bareIn]
        rfl
  | statement hlist => exact Or.inr ⟨hlist, _, _, _, _, rfl, rfl⟩
  | @inside _ k _ _ before inner inner' after _ ih =>
      obtain ⟨-, ⟨hk, hinner⟩, -⟩ := allNodesIn_append.mp hall
      rcases ih hinner with ⟨l, c, r, hleaves, hleaves', hbare⟩ | ⟨hlist, -⟩
      · refine Or.inl ⟨leavesIn before ++ l, c, r ++ leavesIn after, ?_, ?_, ?_⟩
        · rw [leavesIn_append, leavesIn, leaves, hleaves]
          simp
        · rw [leavesIn_append, leavesIn, leaves, hleaves']
          simp
        · rw [bareIn_append, bareIn_append, bareIn, bareIn, bare, bare, hbare]
      · rw [hk] at hlist
        exact absurd hlist (by simp)

/-! ## What a parser reads -/

/-- A token and a block comment start and end with no space, and a line comment starts with none. -/
def IsTrim : Leaf → Prop
  | .space _ | .inserted => True
  | .lineComment text => text.head?.any (fun c => !isSpaceChar c) = true
  | .blockComment text | .token text =>
    text.head?.any (fun c => !isSpaceChar c) = true ∧
      text.getLast?.any (fun c => !isSpaceChar c) = true

/-- What a debugger statement, an expression statement and a call look like. -/
structure Regular (kind : Kind) (parts : List Concrete) : Prop where
  debugger : kind = .debuggerStatement → ∃ word words stop,
    parts = (Leaf.token word :: words ++ [stop]).map .leaf ∧
      (stop = .token [';'] ∨ stop = .inserted)
  expression : kind = .expressionStatement → ∃ k inner word words gaps stop,
    parts = .node k inner :: (gaps ++ [stop]).map .leaf ∧
      leavesIn inner = .token word :: words ∧ (∀ gap ∈ gaps, gap.isGap = true) ∧
      (stop = .token [';'] ∨ stop = .inserted)
  call : kind = .call → (Leaf.textOf (leavesIn parts)).getLast? ≠ some ';'

structure WellFormed (parts : List Concrete) : Prop where
  trim : ∀ l ∈ leavesIn parts, IsTrim l
  /-- A line comment reaches to the end of its line. -/
  lineComment : ∀ {before behind text}, leavesIn parts = before ++ .lineComment text :: behind →
    Leaf.written behind = [] ∨
      ∃ c rest, Leaf.written behind = .space c :: rest ∧ isLineTerminator c = true
  /-- No semicolon is inserted in front of one that is written on the same line. -/
  inserted : ∀ {before behind blanks rest}, leavesIn parts = before ++ .inserted :: behind →
    Leaf.textOf behind = blanks ++ ';' :: rest → ∃ c ∈ blanks, Scanner.isBlankChar c = false
  regular : AllNodesIn Regular parts

end Concrete

open Concrete

/-- What a parser makes of the scripts that it accepts: the parts of the script, down to the last
character. -/
structure Reading where
  read : String → Option (List Concrete)

namespace Reading

/-- Whether the text of some parts is read as these parts, up to where in the tree its spaces and
comments stand, and on which side of them a semicolon is inserted. -/
def Reads (reading : Reading) (parts : List Concrete) : Prop :=
  ∃ parts', reading.read (String.ofList (Leaf.textOf (leavesIn parts))) = some parts' ∧
    Leaf.written (leavesIn parts') = Leaf.written (leavesIn parts) ∧ bareIn parts' = bareIn parts

/-- What is relied on of a parser of the language. -/
structure Describes (reading : Reading) (parser : Parser) : Prop where
  /-- What the parser accepts is read. -/
  read_of_tree : ∀ {source tree}, parser.tree source = .ok tree →
    ∃ parts, reading.read source = some parts
  /-- What is read the parser gives the tree of. -/
  tree_of_read : ∀ {source parts}, reading.read source = some parts →
    ∃ span, parser.tree source = .ok (.node .script span (treesIn 0 parts))
  text_of_read : ∀ {source parts}, reading.read source = some parts →
    Leaf.textOf (leavesIn parts) = source.toList
  wellFormed : ∀ {source parts}, reading.read source = some parts → WellFormed parts
  /-- A script can lose a space or a statement from where statements can go. -/
  sheds : ∀ {parts parts'}, reading.Reads parts → Sheds .script [] [] parts parts' →
    reading.Reads parts'

variable {reading : Reading} {parser : Parser}

theorem reads_of_read (h : reading.Describes parser) {source : String} {parts : List Concrete}
    (hread : reading.read source = some parts) : reading.Reads parts := by
  refine ⟨parts, ?_, rfl, rfl⟩
  rw [h.text_of_read hread, String.ofList_toList]
  exact hread

theorem reads_of_sheds (h : reading.Describes parser) {parts parts' : List Concrete}
    (hreads : reading.Reads parts)
    (hsheds : Relation.ReflTransGen (Sheds .script [] []) parts parts') :
    reading.Reads parts' := by
  induction hsheds with
  | refl => exact hreads
  | tail _ hstep ih => exact h.sheds ih hstep

theorem exists_tree_of_reads (h : reading.Describes parser) {parts : List Concrete}
    (hreads : reading.Reads parts) :
    ∃ span trees, parser.tree (String.ofList (Leaf.textOf (leavesIn parts))) =
        .ok (.node .script span trees) ∧
      Tree.unplacedIn trees = Tree.unplacedIn (treesIn 0 parts) := by
  obtain ⟨parts', hread, -, hbare⟩ := hreads
  obtain ⟨span, htree⟩ := h.tree_of_read hread
  refine ⟨span, _, htree, ?_⟩
  rw [← unplacedIn_treesIn_bareIn 0 0 parts', hbare, unplacedIn_treesIn_bareIn 0 0 parts]

end Reading

end JsPrune
