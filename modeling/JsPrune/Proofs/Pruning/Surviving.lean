import JsPrune.Proofs.Pruning.Footprint
import Mathlib.Data.List.Induction
/-!
# What survives of a script

What is taken out for the statements that go is these statements and spaces: every other leaf of the
script stays as a whole.  A span that is taken out starts behind blanks in front of a statement that
goes, so it cannot start in a leaf that ends with no space, and it does not reach back over the end of a
line comment.
-/

namespace JsPrune

open Concrete Text
open String (utf8Len)

namespace Script

variable {policy : Policy} {source : String}

/-! ## Where the pieces stand -/

def Piece.PlacedAt : Nat → List Piece → Prop
  | _, [] => True
  | offset, p :: ps => p.start = offset ∧ PlacedAt (offset + utf8Len (Leaf.textOf p.leaves)) ps

theorem Piece.placedAt_append {offset : Nat} {ps qs : List Piece} :
    PlacedAt offset (ps ++ qs) ↔
      PlacedAt offset ps ∧ PlacedAt (offset + utf8Len (Leaf.textOf (leavesOf ps))) qs := by
  induction ps generalizing offset with
  | nil => simp [PlacedAt, leavesOf]
  | cons p ps ih =>
      have hleaves : leavesOf (p :: ps) = p.leaves ++ leavesOf ps := rfl
      rw [List.cons_append, PlacedAt, PlacedAt, ih, hleaves, Leaf.textOf_append,
        String.utf8Len_append, Nat.add_assoc, and_assoc]

mutual

theorem placedAt_pieces (around : Surrounding) (start : Nat) : (c : Concrete) →
    Piece.PlacedAt start (pieces policy source around start c)
  | .leaf l => ⟨rfl, trivial⟩
  | .node kind parts => by
      rw [pieces]
      split
      · exact ⟨rfl, trivial⟩
      · exact placedAt_piecesIn (around.below kind) start parts

theorem placedAt_piecesIn (around : Surrounding) (start : Nat) : (cs : List Concrete) →
    Piece.PlacedAt start (piecesIn policy source around start cs)
  | [] => trivial
  | c :: cs => by
      rw [piecesIn, Piece.placedAt_append, leavesOf_pieces]
      exact ⟨placedAt_pieces around start c, placedAt_piecesIn around (start + c.size) cs⟩

end

def Piece.isInserted : Piece → Bool
  | leaf _ .inserted => true
  | _ => false

theorem Piece.textOf_inserted {ps : List Piece} (h : ∀ p ∈ ps, p.isInserted = true) :
    Leaf.textOf (leavesOf ps) = [] := by
  induction ps with
  | nil => rfl
  | cons p ps ih =>
      have hp := h p List.mem_cons_self
      rw [leavesOf_cons, Leaf.textOf_append, ih fun q hq => h q (List.mem_cons_of_mem _ hq)]
      unfold isInserted at hp
      split at hp
      · rfl
      · exact absurd hp (by simp)

/-! ## What is taken out -/

/-- The pieces of a script, what is removed of it, and what is taken out for that. -/
structure Cutting (source : String) (parts : List Concrete) (ps : List Piece)
    (removals : List Removal) (removed : List Span) : Prop where
  wellFormed : WellFormed parts
  text_eq : Leaf.textOf (leavesIn parts) = source.toList
  leaves_eq : Piece.leavesOf ps = leavesIn parts
  placed : Piece.PlacedAt 0 ps
  footprint : ∀ p ∈ ps, ∀ start kind parts r, p = .statement start kind parts r →
    Piece.Footprint start (leavesIn parts) r
  removals_eq : ∀ r ∈ removals, ∃ start kind parts, Piece.statement start kind parts r ∈ ps
  mem_removals : ∀ start kind parts r, Piece.statement start kind parts r ∈ ps → r ∈ removals
  takes : Takes source removals removed

namespace Cutting

variable {parts : List Concrete} {ps before behind : List Piece} {removals : List Removal}
  {removed : List Span} {p : Piece}

theorem start_eq (h : Cutting source parts ps removals removed) (hps : ps = before ++ p :: behind) :
    p.start = utf8Len (Leaf.textOf (Piece.leavesOf before)) := by
  have hplaced := h.placed
  rw [hps, Piece.placedAt_append, Piece.PlacedAt, Nat.zero_add] at hplaced
  exact hplaced.2.1

theorem holds (h : Cutting source parts ps removals removed) {start : Nat} {kind : Kind}
    {inner : List Concrete} {r : Removal}
    (hps : ps = before ++ .statement start kind inner r :: behind) :
    Holds source start (start + utf8Len (Leaf.textOf (leavesIn inner))) r.grant ∧
      r.span.start = start := by
  have hstart : start = utf8Len (Leaf.textOf (Piece.leavesOf before)) := h.start_eq hps
  have hfootprint := h.footprint _ (by rw [hps]; simp) start kind inner r rfl
  have hspan : r.span.start = start := by
    obtain ⟨⟨word, words, rest, -, hspan, -⟩, -⟩ := hfootprint
    rw [hspan]
  refine ⟨?_, hspan⟩
  have hsplit : leavesIn parts =
      Piece.leavesOf before ++ leavesIn inner ++ Piece.leavesOf behind := by
    rw [← h.leaves_eq, hps]
    simp [Piece.leaves]
  rw [hstart] at hfootprint ⊢
  exact holds_of_footprint h.wellFormed h.text_eq hsplit hfootprint

theorem covers_statement (h : Cutting source parts ps removals removed) {start : Nat} {kind : Kind}
    {inner : List Concrete} {r : Removal}
    (hps : ps = before ++ .statement start kind inner r :: behind) {i : Nat} (hle : start ≤ i)
    (hlt : i < start + utf8Len (Leaf.textOf (leavesIn inner))) :
    Span.covers removed i = true := by
  obtain ⟨hholds, -⟩ := h.holds hps
  obtain ⟨last, hlast, hstop⟩ := hholds.last
  have hr := h.mem_removals start kind inner r (by rw [hps]; simp)
  exact h.takes.between r hr start i last hholds.first hlast hle (by omega)

theorem split_cases {x y : Piece} {before' behind' : List Piece}
    (h : before ++ x :: behind = before' ++ y :: behind') :
    (∃ mid, before' = before ++ x :: mid) ∨ (before = before' ∧ x = y) ∨
      ∃ mid, before = before' ++ y :: mid := by
  rcases List.append_eq_append_iff.mp h with ⟨mid, hbefore, hrest⟩ | ⟨mid, hbefore, hrest⟩
  · cases mid with
    | nil => exact Or.inr (Or.inl ⟨by rw [hbefore, List.append_nil], (List.cons.inj hrest).1⟩)
    | cons z mid =>
        obtain ⟨rfl, -⟩ := List.cons.inj hrest
        exact Or.inl ⟨mid, hbefore⟩
  · cases mid with
    | nil =>
        exact Or.inr (Or.inl ⟨by rw [hbefore, List.append_nil], (List.cons.inj hrest).1.symm⟩)
    | cons z mid =>
        obtain ⟨rfl, -⟩ := List.cons.inj hrest
        exact Or.inr (Or.inr ⟨mid, hbefore⟩)

theorem apart_of_mem (h : Cutting source parts ps removals removed) {o : Nat} {l : Leaf}
    (hps : ps = before ++ .leaf o l :: behind) {start : Nat} {kind : Kind}
    {inner : List Concrete} {r : Removal} (hmem : Piece.statement start kind inner r ∈ ps) :
    start + utf8Len (Leaf.textOf (leavesIn inner)) ≤ o ∨ o + utf8Len l.chars ≤ start := by
  obtain ⟨before', behind', hps'⟩ := List.append_of_mem hmem
  have ho : o = utf8Len (Leaf.textOf (Piece.leavesOf before)) := h.start_eq hps
  have hstart : start = utf8Len (Leaf.textOf (Piece.leavesOf before')) := h.start_eq hps'
  rcases split_cases (hps.symm.trans hps') with ⟨mid, rfl⟩ | ⟨-, heq⟩ | ⟨mid, rfl⟩
  · right
    rw [hstart, ho]
    simp only [Piece.leavesOf, List.flatMap_append, List.flatMap_cons, Piece.leaves,
      Leaf.textOf_append, Leaf.textOf_cons, Leaf.textOf_nil, String.utf8Len_append,
      List.append_nil]
    omega
  · exact absurd heq (by simp)
  · left
    rw [hstart, ho]
    simp only [Piece.leavesOf, List.flatMap_append, List.flatMap_cons, Piece.leaves,
      Leaf.textOf_append, String.utf8Len_append]
    omega

theorem covers_leaf_eq_false (h : Cutting source parts ps removals removed) {o : Nat} {l : Leaf}
    (hps : ps = before ++ .leaf o l :: behind) {i : Nat} (hle : o ≤ i)
    (hlt : i < o + utf8Len l.chars) (hi : (byte? source i).any Text.isSpace = false) :
    Span.covers removed i = false := by
  rw [h.takes.named i hi, List.any_eq_false]
  intro r hr hnames
  obtain ⟨start, kind, inner, hmem⟩ := h.removals_eq r hr
  obtain ⟨before', behind', hps'⟩ := List.append_of_mem hmem
  have hin := (h.holds hps').1.within i hnames
  rcases h.apart_of_mem hps hmem with hapart | hapart <;> omega

/-- In front of a covered offset in a leaf, or at it, the leaf starts, or else nothing but blanks
stands from there to where the leaf ends and on to a statement that goes. -/
theorem blankRun_of_covers (h : Cutting source parts ps removals removed) {o : Nat} {l : Leaf}
    (hps : ps = before ++ .leaf o l :: behind) (ho : Span.covers removed o = false) {i : Nat}
    (hle : o ≤ i) (hi : Span.covers removed i = true) :
    ∃ start kind inner r, Piece.statement start kind inner r ∈ ps ∧
      o + utf8Len l.chars ≤ start ∧ BlankRun source i start := by
  obtain ⟨s, hs, hstart, hstop⟩ := Span.covers_iff.mp hi
  obtain ⟨r, hr, hfirst, hlast, hrun⟩ := h.takes.starts s hs
  obtain ⟨start, kind, inner, hmem⟩ := h.removals_eq r hr
  obtain ⟨before', behind', hps'⟩ := List.append_of_mem hmem
  obtain ⟨hholds, hrstart⟩ := h.holds hps'
  have hso : o < s.start := by
    by_contra hge
    rw [Span.covers_of_mem hs (by omega) (by omega)] at ho
    exact absurd ho (by simp)
  refine ⟨start, kind, inner, r, hmem, ?_, fun k hk hks => hrun k (by omega) (by omega)⟩
  rcases h.apart_of_mem hps hmem with hapart | hapart
  · have hwithin := hholds.within start hholds.first
    omega
  · exact hapart

theorem leavesOf_split (hps : ps = before ++ p :: behind) :
    Piece.leavesOf ps = Piece.leavesOf before ++ p.leaves ++ Piece.leavesOf behind := by
  rw [hps]
  simp [Piece.leavesOf]

theorem toList_eq (h : Cutting source parts ps removals removed) {o : Nat} {l : Leaf}
    (hps : ps = before ++ .leaf o l :: behind) :
    source.toList = Leaf.textOf (Piece.leavesOf before) ++ l.chars ++
      Leaf.textOf (Piece.leavesOf behind) := by
  rw [← h.text_eq, ← h.leaves_eq, leavesOf_split hps]
  simp [Piece.leaves]

theorem lt_of_statement (h : Cutting source parts ps removals removed) {start : Nat} {kind : Kind}
    {inner : List Concrete} {r : Removal} (hmem : Piece.statement start kind inner r ∈ ps) :
    0 < utf8Len (Leaf.textOf (leavesIn inner)) := by
  obtain ⟨before, behind, hps⟩ := List.append_of_mem hmem
  obtain ⟨hholds, -⟩ := h.holds hps
  have hwithin := hholds.within start hholds.first
  omega

theorem exists_of_written (h : Cutting source parts ps removals removed)
    (hps : ps = before ++ behind) {c : Char} {rest : List Leaf}
    (hleaves : Leaf.written (Piece.leavesOf behind) = .space c :: rest) :
    ∃ stops o behind', behind = stops ++ .leaf o (.space c) :: behind' ∧
      ∀ q ∈ stops, q.isInserted = true := by
  induction behind generalizing before with
  | nil => exact absurd hleaves (by simp [Leaf.written])
  | cons q behind ih =>
      cases q with
      | statement start kind inner r =>
          have hfootprint := h.footprint _ (by rw [hps]; simp) start kind inner r rfl
          obtain ⟨⟨word, words, more, heq, -⟩, -⟩ := hfootprint
          rw [Piece.leavesOf_cons, Piece.leaves, heq, List.cons_append, List.cons_append,
            Leaf.written_cons (by simp)] at hleaves
          exact absurd (List.cons.inj hleaves).1 (by simp)
      | leaf o l =>
          rw [Piece.leavesOf_cons, Piece.leaves, List.singleton_append] at hleaves
          by_cases hl : l = .inserted
          · subst hl
            have hps' : ps = before ++ [.leaf o .inserted] ++ behind := by rw [hps]; simp
            obtain ⟨stops, o', behind', rfl, hstops⟩ := ih hps' hleaves
            exact ⟨.leaf o .inserted :: stops, o', behind', rfl,
              List.forall_mem_cons.mpr ⟨rfl, hstops⟩⟩
          · rw [Leaf.written_cons hl] at hleaves
            exact ⟨[], o, behind, by rw [(List.cons.inj hleaves).1]; rfl, by simp⟩

theorem behind_lineComment (h : Cutting source parts ps removals removed) {o : Nat}
    {text : List Char} (hps : ps = before ++ .leaf o (.lineComment text) :: behind) :
    Leaf.written (Piece.leavesOf behind) = [] ∨ ∃ stops c behind',
      behind = stops ++ .leaf (o + utf8Len text) (.space c) :: behind' ∧
        isLineTerminator c = true ∧ ∀ q ∈ stops, q.isInserted = true := by
  have hleaves := leavesOf_split hps
  rw [h.leaves_eq, Piece.leaves, List.append_assoc, List.singleton_append] at hleaves
  rcases h.wellFormed.lineComment hleaves with hnil | ⟨c, rest, hspace, hbreak⟩
  · exact Or.inl hnil
  · have hps' : ps = before ++ [.leaf o (.lineComment text)] ++ behind := by rw [hps]; simp
    obtain ⟨stops, o', behind', rfl, hstops⟩ := h.exists_of_written hps' hspace
    have ho : o = utf8Len (Leaf.textOf (Piece.leavesOf before)) := h.start_eq hps
    have ho' : o' = o + utf8Len text := by
      rw [← List.append_assoc] at hps'
      have hstart := h.start_eq hps'
      simpa [Piece.start, Piece.leaves, Leaf.chars, Piece.textOf_inserted hstops, ← ho] using hstart
    exact Or.inr ⟨stops, c, behind', by rw [ho'], hbreak, hstops⟩

/-- From the end of a line comment on, a statement that goes does not follow behind blanks. -/
theorem not_blankRun_of_lineComment (h : Cutting source parts ps removals removed) {o : Nat}
    {text : List Char} (hps : ps = before ++ .leaf o (.lineComment text) :: behind)
    {start : Nat} {kind : Kind} {inner : List Concrete} {r : Removal}
    (hmem : Piece.statement start kind inner r ∈ ps) (hle : o + utf8Len text ≤ start) :
    ¬ BlankRun source (o + utf8Len text) start := by
  intro hrun
  have ho : o = utf8Len (Leaf.textOf (Piece.leavesOf before)) := h.start_eq hps
  have hpos := h.lt_of_statement hmem
  have htext := h.toList_eq hps
  rcases h.behind_lineComment hps with hnil | ⟨stops, c, behind', rfl, hbreak, -⟩
  · -- The script ends with the comment, so no statement can follow.
    obtain ⟨before', behind', hps'⟩ := List.append_of_mem hmem
    have hstart : start = utf8Len (Leaf.textOf (Piece.leavesOf before')) := h.start_eq hps'
    have htext' : source.toList = Leaf.textOf (Piece.leavesOf ps) := by
      rw [← h.text_eq, h.leaves_eq]
    have hlen := congrArg utf8Len (htext.symm.trans htext')
    rw [← Leaf.textOf_written (Piece.leavesOf behind), hnil, leavesOf_split hps'] at hlen
    simp only [Leaf.chars, Leaf.textOf_nil, List.append_nil, Leaf.textOf_append,
      String.utf8Len_append, Piece.leaves] at hlen
    omega
  · have hps' : ps = (before ++ .leaf o (.lineComment text) :: stops) ++
        .leaf (o + utf8Len text) (.space c) :: behind' := by rw [hps]; simp
    have hc := c.utf8Size_pos
    rcases h.apart_of_mem hps' hmem with hapart | hapart
    · omega
    · simp only [Leaf.chars, String.utf8Len_cons, String.utf8Len_nil, Nat.zero_add] at hapart
      have ho' := h.start_eq hps'
      have hs := h.toList_eq hps'
      rw [Leaf.chars, List.append_assoc, List.singleton_append] at hs
      rw [Piece.start] at ho'
      have hbyte := hrun (o + utf8Len text) (by omega) (by omega)
      have hblank := isBlankChar_of_byte? hs (by omega) (by omega) hbyte
      rw [Scanner.isLineTerminator_of_blank hblank] at hbreak
      exact absurd hbreak (by simp)

theorem covers_first_eq_false (h : Cutting source parts ps removals removed) {o : Nat} {l : Leaf}
    (hps : ps = before ++ .leaf o l :: behind)
    (hfirst : l.chars.head?.any (fun c => !isSpaceChar c) = true) :
    Span.covers removed o = false := by
  have ho : o = utf8Len (Leaf.textOf (Piece.leavesOf before)) := h.start_eq hps
  obtain ⟨c, hc, hspace⟩ := (Option.any_eq_true _ _).mp hfirst
  obtain ⟨cs, hcs⟩ := List.head?_eq_some_iff.mp hc
  have hs := h.toList_eq hps
  have hpos := c.utf8Size_pos
  rw [hcs, List.append_assoc, List.cons_append] at hs
  refine h.covers_leaf_eq_false hps (Nat.le_refl _) ?_ ?_
  · rw [hcs, String.utf8Len_cons]
    omega
  · by_contra hbyte
    rw [Bool.not_eq_false] at hbyte
    rw [isSpaceChar_of_byte? hs (by omega) (by omega) hbyte] at hspace
    exact absurd hspace (by simp)

theorem not_blankRun_of_last (h : Cutting source parts ps removals removed) {o : Nat} {l : Leaf}
    (hps : ps = before ++ .leaf o l :: behind)
    (hlast : l.chars.getLast?.any (fun c => !isSpaceChar c) = true) {i start : Nat}
    (hlt : i < o + utf8Len l.chars) (hle : o + utf8Len l.chars ≤ start) :
    ¬ BlankRun source i start := by
  intro hrun
  have ho : o = utf8Len (Leaf.textOf (Piece.leavesOf before)) := h.start_eq hps
  obtain ⟨c, hc, hspace⟩ := (Option.any_eq_true _ _).mp hlast
  obtain ⟨cs, hcs⟩ := List.getLast?_eq_some_iff.mp hc
  have hs := h.toList_eq hps
  have hpos := c.utf8Size_pos
  have hlen : utf8Len l.chars = utf8Len cs + c.utf8Size := by rw [hcs]; simp
  have hs' : source.toList = (Leaf.textOf (Piece.leavesOf before) ++ cs) ++
      c :: Leaf.textOf (Piece.leavesOf behind) := by
    rw [hs, hcs]
    simp
  have hstart : utf8Len (Leaf.textOf (Piece.leavesOf before) ++ cs) = o + utf8Len cs := by
    rw [String.utf8Len_append, ← ho]
  have hbyte := hrun (max i (o + utf8Len cs)) (by omega) (by omega)
  have hblank := isBlankChar_of_byte? hs' (by omega) (by omega) hbyte
  rw [isSpaceChar, hblank] at hspace
  exact absurd hspace (by simp)

/-- A leaf that is no space stays as a whole, unless it stands in a statement that goes. -/
theorem covers_kept_eq_false (h : Cutting source parts ps removals removed) {o : Nat} {l : Leaf}
    (hps : ps = before ++ .leaf o l :: behind) (hl : ∀ c, l ≠ .space c) {i : Nat} (hle : o ≤ i)
    (hlt : i < o + utf8Len l.chars) : Span.covers removed i = false := by
  have htrim : IsTrim l := h.wellFormed.trim l (by
    rw [← h.leaves_eq, leavesOf_split hps]
    simp [Piece.leaves])
  by_contra hcovers
  rw [Bool.not_eq_false] at hcovers
  cases l with
  | space c => exact hl c rfl
  | inserted =>
      rw [Leaf.chars, String.utf8Len_nil] at hlt
      omega
  | lineComment text =>
      have hfirst := h.covers_first_eq_false hps htrim
      obtain ⟨start, kind, inner, r, hmem, hstart, hrun⟩ :=
        h.blankRun_of_covers hps hfirst hle hcovers
      refine h.not_blankRun_of_lineComment hps hmem hstart fun k hk hks => hrun k ?_ hks
      rw [Leaf.chars] at hlt
      omega
  | blockComment text =>
      have hfirst := h.covers_first_eq_false hps htrim.1
      obtain ⟨start, kind, inner, r, hmem, hstart, hrun⟩ :=
        h.blankRun_of_covers hps hfirst hle hcovers
      exact h.not_blankRun_of_last hps htrim.2 hlt hstart hrun
  | token text =>
      have hfirst := h.covers_first_eq_false hps htrim.1
      obtain ⟨start, kind, inner, r, hmem, hstart, hrun⟩ :=
        h.blankRun_of_covers hps hfirst hle hcovers
      exact h.not_blankRun_of_last hps htrim.2 hlt hstart hrun

/-! ## The text that is left -/

/-- A piece stays as a whole or goes as a whole. -/
theorem keep_piece (h : Cutting source parts ps removals removed)
    (hps : ps = before ++ p :: behind) :
    keep removed p.start (Leaf.textOf p.leaves) =
      if p.stays removed then Leaf.textOf p.leaves else [] := by
  cases p with
  | statement start kind inner r =>
      exact keep_eq_nil fun i hle hlt => h.covers_statement hps hle hlt
  | leaf o l =>
      have htext : Leaf.textOf (Piece.leaf o l).leaves = l.chars := List.append_nil _
      rw [htext]
      by_cases hspace : ∃ c, l = .space c
      · obtain ⟨c, rfl⟩ := hspace
        rw [Leaf.chars, keep, keep, Piece.stays, Piece.start]
        cases Span.covers removed o <;> rfl
      · have hl : ∀ c, l ≠ .space c := fun c hc => hspace ⟨c, hc⟩
        have hstays : (Piece.leaf o l).stays removed = true := by
          unfold Piece.stays
          split
          case h_1 heq => exact absurd (Piece.leaf.inj heq).2 (hl _)
          case h_2 => rfl
          case h_3 heq => exact absurd heq (by simp)
        rw [hstays, if_pos rfl]
        exact keep_eq_self fun i hle hlt => h.covers_kept_eq_false hps hl hle hlt

theorem keep_pieces {offset : Nat} {qs : List Piece} (hplaced : Piece.PlacedAt offset qs)
    (hkeep : ∀ q ∈ qs, keep removed q.start (Leaf.textOf q.leaves) =
      if q.stays removed then Leaf.textOf q.leaves else []) :
    keep removed offset (Leaf.textOf (Piece.leavesOf qs)) =
      Leaf.textOf (Piece.leftOf removed qs) := by
  induction qs generalizing offset with
  | nil => rfl
  | cons q qs ih =>
      obtain ⟨rfl, hrest⟩ := hplaced
      rw [Piece.leavesOf_cons, Leaf.textOf_append, keep_append, hkeep q List.mem_cons_self,
        ih hrest fun q' hq' => hkeep q' (List.mem_cons_of_mem _ hq'), Piece.leftOf,
        Piece.leftOf, List.filter_cons]
      split
      · rw [Piece.leavesOf_cons, Leaf.textOf_append]
      · rfl

theorem toList_cut (h : Cutting source parts ps removals removed) (hcut : Cuttable source removed) :
    (cut source removed).toList = Leaf.textOf (Piece.leftOf removed ps) := by
  rw [Text.toList_cut hcut, ← h.text_eq, ← h.leaves_eq]
  apply keep_pieces h.placed
  intro p hp
  obtain ⟨before, behind, hps⟩ := List.append_of_mem hp
  exact h.keep_piece hps

/-! ## Comments in front of what goes -/

theorem covers_behind_lineComment (h : Cutting source parts ps removals removed) {o : Nat}
    {text : List Char} (hps : ps = before ++ .leaf o (.lineComment text) :: behind) :
    Span.covers removed (o + utf8Len text) = false := by
  have htrim : IsTrim (.lineComment text) := h.wellFormed.trim _ (by
    rw [← h.leaves_eq, leavesOf_split hps]
    simp [Piece.leaves])
  have hpos := utf8Len_pos_of_head? htrim
  refine Bool.eq_false_iff.mpr fun hcovers => ?_
  obtain ⟨s, hs, hstart, hlt⟩ := Span.covers_iff.mp hcovers
  obtain ⟨r, hr, hle, -, hrun⟩ := h.takes.starts s hs
  obtain ⟨start, kind, inner, hmem⟩ := h.removals_eq r hr
  obtain ⟨before', behind', hps'⟩ := List.append_of_mem hmem
  obtain ⟨-, hrstart⟩ := h.holds hps'
  -- What is taken out starts behind the comment, since all of the comment stays.
  have hbehind : o + utf8Len text ≤ s.start := by
    by_contra hlt'
    have hcomment : Span.covers removed (max o s.start) = true :=
      Span.covers_of_mem hs (by omega) (by omega)
    rw [h.covers_kept_eq_false hps (by simp) (by omega) (by rw [Leaf.chars]; omega)] at hcomment
    exact absurd hcomment (by simp)
  refine h.not_blankRun_of_lineComment hps hmem (by omega) fun k hk hks => ?_
  exact hrun k (by omega) (by omega)

theorem written_ne_nil_of_goes (h : Cutting source parts ps removals removed) (hmem : p ∈ ps)
    (hp : p.stays removed = false) : Leaf.written p.leaves ≠ [] := by
  cases p with
  | statement start kind inner r =>
      obtain ⟨⟨word, words, rest, hleaves, -⟩, -⟩ := h.footprint _ hmem start kind inner r rfl
      rw [Piece.leaves, hleaves, List.cons_append, Leaf.written_cons (by simp)]
      exact List.cons_ne_nil _ _
  | leaf o l =>
      rw [Piece.leaves, Leaf.written_cons (fun hl => by simp [hl, Piece.stays] at hp)]
      exact List.cons_ne_nil _ _

end Cutting

namespace Piece

variable {removed : List Span}

theorem stays_of_isInserted {p : Piece} (h : p.isInserted = true) : p.stays removed = true := by
  unfold isInserted at h
  split at h
  · rfl
  · exact absurd h (by simp)

/-- The last leaf that is left and has characters is a piece, and behind it only inserted semicolons
are left. -/
theorem exists_of_getLast? {l : Leaf} (ps : List Piece)
    (h : (Leaf.written (leftOf removed ps)).getLast? = some l) :
    ∃ before o behind, ps = before ++ .leaf o l :: behind ∧
      ∀ q ∈ behind, q.stays removed = true → q.isInserted = true := by
  induction ps using List.reverseRecOn with
  | nil => exact absurd h (by simp [leftOf, leavesOf, Leaf.written])
  | append_singleton ps p ih =>
      -- Where the last piece leaves no characters, it is one more behind those that `ih` gives.
      have hmore (hwritten : Leaf.written (leftOf removed (ps ++ [p])) =
          Leaf.written (leftOf removed ps)) (hp : p.stays removed = true → p.isInserted = true) :
          ∃ before o behind, ps ++ [p] = before ++ .leaf o l :: behind ∧
            ∀ q ∈ behind, q.stays removed = true → q.isInserted = true := by
        rw [hwritten] at h
        obtain ⟨before, o, behind, rfl, hbehind⟩ := ih h
        refine ⟨before, o, behind ++ [p], by simp, fun q hq => ?_⟩
        rcases List.mem_append.mp hq with hq | hq
        · exact hbehind q hq
        · rw [List.mem_singleton.mp hq]
          exact hp
      cases hstays : p.stays removed with
      | false => exact hmore (by simp [leftOf, hstays]) (by simp [hstays])
      | true =>
          cases p with
          | statement start kind inner r => exact absurd hstays (by simp [stays])
          | leaf o l' =>
              have hleft : leftOf removed (ps ++ [.leaf o l']) = leftOf removed ps ++ [l'] := by
                simp [leftOf, leavesOf, hstays, leaves]
              by_cases hl : l' = .inserted
              · subst hl
                exact hmore (by rw [hleft]; simp) fun _ => rfl
              · rw [hleft, Leaf.written_append, Leaf.written_cons hl, Leaf.written_nil,
                  List.getLast?_concat, Option.some.injEq] at h
                exact ⟨ps, o, [], by rw [h], by simp⟩

/-- If no more than inserted semicolons stands in front of a piece that stays, and nothing else that
stays in front of another piece, then the other one is no piece that goes. -/
theorem stays_of_split {gone stops behind rest : List Piece} {p x : Piece}
    (h : gone ++ p :: behind = stops ++ x :: rest)
    (hgone : ∀ q ∈ gone, q.stays removed = true → q.isInserted = true)
    (hstops : ∀ q ∈ stops, q.isInserted = true) (hx : x.stays removed = true)
    (hspace : x.isInserted = false) : p.stays removed = true := by
  induction stops generalizing gone with
  | nil =>
      cases gone with
      | nil => rwa [(List.cons.inj h).1]
      | cons q gone =>
          rw [← (List.cons.inj h).1] at hx hspace
          rw [hgone q List.mem_cons_self hx] at hspace
          exact absurd hspace (by simp)
  | cons s stops ih =>
      cases gone with
      | nil =>
          rw [(List.cons.inj h).1]
          exact stays_of_isInserted (hstops s List.mem_cons_self)
      | cons q gone =>
          exact ih (List.cons.inj h).2 (fun q' hq' => hgone q' (List.mem_cons_of_mem _ hq'))
            fun s' hs' => hstops s' (List.mem_cons_of_mem _ hs')

end Piece

/-- Nothing is taken out directly behind a line comment. -/
theorem Cutting.inComment_eq_false {parts : List Concrete} {ps before behind : List Piece}
    {removals : List Removal} {removed : List Span} {p : Piece}
    (h : Cutting source parts ps removals removed) (hps : ps = before ++ p :: behind)
    (hp : p.stays removed = false) : Leaf.inComment (Piece.leftOf removed before) = false := by
  unfold Leaf.inComment
  split
  case h_2 => rfl
  case h_1 text hlast =>
    obtain ⟨front, o, gone, rfl, hgone⟩ := Piece.exists_of_getLast? before hlast
    have hmem : p ∈ ps := by rw [hps]; simp
    rw [List.append_assoc, List.cons_append] at hps
    rcases h.behind_lineComment hps with hnil | ⟨stops, c, rest, heq, -, hstops⟩
    · rw [Piece.leavesOf_append, Piece.leavesOf_cons, Leaf.written_append, Leaf.written_append,
        List.append_eq_nil_iff, List.append_eq_nil_iff] at hnil
      exact absurd hnil.2.1 (h.written_ne_nil_of_goes hmem hp)
    · have hspace : (Piece.leaf (o + utf8Len text) (.space c)).stays removed = true := by
        rw [Piece.stays, h.covers_behind_lineComment hps]
        rfl
      rw [Piece.stays_of_split heq hgone hstops hspace rfl] at hp
      exact absurd hp (by simp)

end Script

end JsPrune
