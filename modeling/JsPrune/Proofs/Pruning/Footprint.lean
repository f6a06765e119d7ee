import JsPrune.Proofs.Padding.Comments
import JsPrune.Proofs.Pruning.Deleting
/-!
# Where a removal reaches

A removal names the text of a node and the semicolon behind it on the same line.  Of a statement that
goes these are the first and the last byte, whichever way it ends: with a semicolon of its own text, with
one behind blanks, or with one that is not written.
-/

namespace JsPrune

open Concrete Text
open String (utf8Len)
open Scanner (isBlankChar)

namespace Grant

variable {source : String} {span : Span} {front behind : List Char}

/-! ## The semicolon behind a statement -/

theorem endsStatement_eq_false_of_written (hs : source.toList = front ++ ';' :: behind)
    (hstop : span.stop = utf8Len front + 1) (i : Nat) : endsStatement source span i = false := by
  refine Bool.eq_false_iff.mpr fun h => (endsStatement_iff.mp h).1 ?_
  rw [hstop, Nat.add_sub_cancel, byte?_of_toNat_lt hs (by decide)]
  rfl

theorem endsStatement_eq_false_of_inserted (hs : source.toList = front ++ behind)
    (hstop : span.stop = utf8Len front)
    (hnone : ∀ blanks rest, behind = blanks ++ ';' :: rest → ∃ c ∈ blanks, isBlankChar c = false)
    (i : Nat) : endsStatement source span i = false := by
  refine Bool.eq_false_iff.mpr fun h => ?_
  obtain ⟨-, hbyte, hi⟩ := endsStatement_iff.mp h
  have hrun := blankRun_blankStop source span.stop
  have hle := le_blankStop source span.stop
  rw [← hi, hstop] at hrun hle
  obtain ⟨before, c, after, hs', hbefore, hc⟩ := exists_char_of_byte?_lt hbyte (by decide)
  have hc : c = ';' := by rw [← Char.ofNat_toNat c, hc]; rfl
  obtain ⟨part, rfl, hbehind⟩ := exists_append_of_utf8Len_le (hs.symm.trans hs') (by omega)
  rw [hc] at hbehind
  obtain ⟨d, hd, hblank⟩ := hnone part after hbehind
  rw [← hbefore, String.utf8Len_append] at hrun
  rw [blank_of_mem_run (by rw [hs, hbehind]) hrun hd] at hblank
  exact absurd hblank (by simp)

/-- A semicolon behind blanks ends the statement. -/
theorem endsStatement_iff_of_blanks {blanks : List Char}
    (hs : source.toList = front ++ (blanks ++ ';' :: behind)) (hstop : span.stop = utf8Len front)
    (hne : front ≠ []) (hlast : front.getLast? ≠ some ';')
    (hblanks : ∀ c ∈ blanks, isBlankChar c = true) (i : Nat) :
    endsStatement source span i = true ↔ i = utf8Len front + utf8Len blanks := by
  have hs' : source.toList = front ++ blanks ++ ';' :: behind := by rw [hs, List.append_assoc]
  have hbyte : byte? source (utf8Len front + utf8Len blanks) = some 0x3B := by
    have hsemicolon := byte?_of_toNat_lt hs' (by decide)
    rwa [String.utf8Len_append] at hsemicolon
  have hrun := blankRun_of_chars hs' hblanks
  have hstops : blankStop source (utf8Len front) = utf8Len front + utf8Len blanks :=
    blankStop_eq (Nat.le_add_right ..) hrun (by rw [hbyte]; rfl)
  have hown : byte? source (utf8Len front - 1) ≠ some 0x3B := by
    intro hb
    obtain ⟨before, d, rfl⟩ := (List.eq_nil_or_concat' front).resolve_left hne
    have hlen : utf8Len (before ++ [d]) = utf8Len before + d.utf8Size := by simp
    have hpos := d.utf8Size_pos
    have hs' : source.toList = before ++ d :: (blanks ++ ';' :: behind) := by rw [hs]; simp
    have hd := eq_ofNat_of_byte? hs' (i := utf8Len (before ++ [d]) - 1) (by omega) (by omega) hb
      (by decide)
    rw [List.getLast?_concat, hd] at hlast
    exact hlast rfl
  rw [endsStatement_iff, hstop, hstops]
  constructor
  · exact fun h => h.2.2
  · rintro rfl
    exact ⟨hown, hbyte, rfl⟩

end Grant

namespace Script

variable {policy : Policy} {source : String}

/-! ## The shape of a statement that goes -/

namespace Piece

/-- Behind a call that goes its statement ends at once, or with a written semicolon and nothing but
blanks in front of it. -/
def endsOnLine : Piece → Bool
  | statement _ .expressionStatement (_ :: rest) _ =>
    leavesIn rest == [.inserted] || (leavesIn rest).all fun l => l.isBlank || l == .token [';']
  | _ => true

/-- How a statement ends, of which the text of some leaves is removed. -/
inductive Ending (body : List Leaf) : List Leaf → Prop
  | own (front : List Leaf) : body = front ++ [.token [';']] → Ending body []
  | ownInserted (front : List Leaf) : body = front ++ [.inserted] → Ending body []
  | inserted : Ending body [.inserted]
  | behind (gaps : List Leaf) : (∀ gap ∈ gaps, gap.isBlank = true) →
      (Leaf.textOf body).getLast? ≠ some ';' → Ending body (gaps ++ [.token [';']])

/-- A statement that goes: a text that is removed, and what ends the statement. -/
structure Footprint (start : Nat) (leaves : List Leaf) (r : Removal) : Prop where
  split : ∃ word words rest, leaves = .token word :: words ++ rest ∧
    r.span = ⟨start, start + utf8Len (Leaf.textOf (.token word :: words))⟩ ∧
    Ending (.token word :: words) rest
  full : Padding.isFullStatement r.construct r.placement = true

end Piece

theorem footprint_of_removal {around : Surrounding} {start : Nat} {kind : Kind}
    {parts : List Concrete} {r : Removal} (hregular : Regular kind parts)
    (hall : AllNodesIn Regular parts)
    (hline : (Piece.statement start kind parts r).endsOnLine = true)
    (hgoes : statementRemoval? policy source around (tree start kind parts) = some r) :
    Piece.Footprint start (leavesIn parts) r := by
  rcases (statement_of_removal? hgoes).1 with rfl | rfl
  · obtain ⟨word, words, stop, hparts, hstop⟩ := hregular.debugger rfl
    have hself : removal? policy source (around, tree start .debuggerStatement parts) = some r :=
      hgoes
    have hleaves : leavesIn parts = .token word :: (words ++ [stop]) := by
      rw [hparts, leavesIn_map_leaf]
      rfl
    rcases cases_of_removal? hself with ⟨-, -, rfl⟩ | ⟨hkind, -, -⟩
    · refine ⟨⟨word, words ++ [stop], [], by rw [hleaves, List.append_nil], ?_, ?_⟩, rfl⟩
      · rw [← hleaves]
        rfl
      · rcases hstop with rfl | rfl
        · exact .own (.token word :: words) rfl
        · exact .ownInserted (.token word :: words) rfl
    · exact absurd hkind (by simp [tree, Tree.kind])
  · obtain ⟨k, inner, word, words, gaps, stop, rfl, hinner, hgaps, hstop⟩ :=
      hregular.expression rfl
    have hself : removal? policy source
        (around.below .expressionStatement, tree start k inner) = some r := hgoes
    have hleaves : leavesIn (.node k inner :: (gaps ++ [stop]).map .leaf) =
        .token word :: words ++ (gaps ++ [stop]) := by
      rw [leavesIn, leavesIn_map_leaf, leaves, hinner]
    rcases cases_of_removal? hself with ⟨-, hlist, -⟩ | ⟨hkind, -, rfl⟩
    · exact absurd hlist (by simp [Surrounding.inStatementList, Surrounding.below,
        Kind.isStatementList])
    · have hlast := hall.1.1.call hkind
      rw [hinner] at hlast
      refine ⟨⟨word, words, gaps ++ [stop], hleaves, ?_, ?_⟩, rfl⟩
      · rw [← hinner]
        rfl
      · rw [Piece.endsOnLine, leavesIn_map_leaf, Bool.or_eq_true, beq_iff_eq,
          List.all_eq_true] at hline
        rcases hline with hstops | hblank
        · rw [hstops]
          exact .inserted
        · rcases hstop with rfl | rfl
          · refine .behind gaps (fun gap hgap => ?_) hlast
            have hgap' := hblank gap (List.mem_append_left _ hgap)
            rw [Bool.or_eq_true, beq_iff_eq] at hgap'
            refine hgap'.resolve_right fun htoken => ?_
            exact absurd (hgaps gap hgap) (by rw [htoken]; simp [Leaf.isGap])
          · exact absurd (hblank .inserted (by simp)) (by simp [Leaf.isBlank])

/-! ## What is named -/

/-- Of a statement that goes its removal names the first and the last byte, and nothing beside it. -/
structure Holds (source : String) (start stop : Nat) (grant : Grant) : Prop where
  within : ∀ i, grant.names source i = true → start ≤ i ∧ i < stop
  first : grant.names source start = true
  last : ∃ i, grant.names source i = true ∧ stop = i + 1

theorem names_grant_iff {r : Removal} (hfull : Padding.isFullStatement r.construct r.placement = true)
    (i : Nat) : r.grant.names source i = true ↔
      r.span.start ≤ i ∧ i < r.span.stop ∨ Grant.endsStatement source r.span i = true := by
  rw [Removal.grant, Grant.names, hfull, Bool.true_and, Bool.or_eq_true, Bool.and_eq_true,
    decide_eq_true_eq, decide_eq_true_eq]

theorem utf8Len_pos_of_head? {text : List Char} {p : Char → Bool} (h : text.head?.any p = true) :
    0 < utf8Len text := by
  cases text with
  | nil => exact absurd h (by simp)
  | cons c cs =>
      have hpos := c.utf8Size_pos
      rw [String.utf8Len_cons]
      omega

theorem blank_of_mem_textOf {gaps : List Leaf} (h : ∀ gap ∈ gaps, gap.isBlank = true) :
    ∀ c ∈ Leaf.textOf gaps, isBlankChar c = true := by
  intro c hc
  obtain ⟨gap, hgap, hmem⟩ := List.mem_flatMap.mp hc
  have hblank := h gap hgap
  cases gap with
  | space d => rwa [List.mem_singleton.mp hmem]
  | lineComment text => exact absurd hblank (by simp [Leaf.isBlank])
  | blockComment text => exact absurd hblank (by simp [Leaf.isBlank])
  | token text => exact absurd hblank (by simp [Leaf.isBlank])
  | inserted => exact absurd hblank (by simp [Leaf.isBlank])

theorem holds_of_endsStatement_eq_false {r : Removal}
    (hfull : Padding.isFullStatement r.construct r.placement = true)
    (hlt : r.span.start < r.span.stop)
    (hnone : ∀ i, Grant.endsStatement source r.span i = false) :
    Holds source r.span.start r.span.stop r.grant where
  within i hi := by
    rw [names_grant_iff hfull, hnone] at hi
    exact hi.resolve_right Bool.false_ne_true
  first := (names_grant_iff hfull _).mpr (Or.inl ⟨Nat.le_refl _, hlt⟩)
  last := ⟨r.span.stop - 1, (names_grant_iff hfull _).mpr (Or.inl ⟨by omega, by omega⟩), by omega⟩

theorem holds_of_inserted {parts : List Concrete} {before behind : List Leaf} {r : Removal}
    (hwell : WellFormed parts) (hs : Leaf.textOf (leavesIn parts) = source.toList)
    (hsplit : leavesIn parts = before ++ .inserted :: behind)
    (hfull : Padding.isFullStatement r.construct r.placement = true)
    (hlt : r.span.start < r.span.stop) (hstop : r.span.stop = utf8Len (Leaf.textOf before)) :
    Holds source r.span.start r.span.stop r.grant := by
  have hs' : source.toList = Leaf.textOf before ++ Leaf.textOf behind := by
    rw [← hs, hsplit]
    simp [Leaf.chars]
  apply holds_of_endsStatement_eq_false hfull hlt
  exact Grant.endsStatement_eq_false_of_inserted hs' hstop fun _ _ => hwell.inserted hsplit

theorem holds_of_endsStatement_iff {r : Removal} {last : Nat}
    (hfull : Padding.isFullStatement r.construct r.placement = true)
    (hlt : r.span.start < r.span.stop) (hle : r.span.stop ≤ last)
    (hends : ∀ i, Grant.endsStatement source r.span i = true ↔ i = last) :
    Holds source r.span.start (last + 1) r.grant where
  within i hi := by
    rw [names_grant_iff hfull, hends] at hi
    omega
  first := (names_grant_iff hfull _).mpr (Or.inl ⟨Nat.le_refl _, hlt⟩)
  last := ⟨last, (names_grant_iff hfull _).mpr (Or.inr ((hends _).mpr rfl)), rfl⟩

theorem holds_of_footprint {parts : List Concrete} {left leaves right : List Leaf} {r : Removal}
    (hwell : WellFormed parts) (hs : Leaf.textOf (leavesIn parts) = source.toList)
    (hleaves : leavesIn parts = left ++ leaves ++ right)
    (h : Piece.Footprint (utf8Len (Leaf.textOf left)) leaves r) :
    Holds source (utf8Len (Leaf.textOf left))
      (utf8Len (Leaf.textOf left) + utf8Len (Leaf.textOf leaves)) r.grant := by
  obtain ⟨⟨word, words, rest, rfl, hspan, hending⟩, hfull⟩ := h
  generalize hbody : Leaf.token word :: words = body at *
  have hpos : 0 < utf8Len (Leaf.textOf body) := by
    have htrim : IsTrim (.token word) := hwell.trim _ (by rw [hleaves, ← hbody]; simp)
    have hword := utf8Len_pos_of_head? htrim.1
    rw [← hbody, Leaf.textOf_cons, String.utf8Len_append]
    exact Nat.lt_of_lt_of_le hword (Nat.le_add_right ..)
  have hstart : r.span.start = utf8Len (Leaf.textOf left) := by rw [hspan]
  have hstop : r.span.stop = utf8Len (Leaf.textOf left) + utf8Len (Leaf.textOf body) := by
    rw [hspan]
  have hlt : r.span.start < r.span.stop := by omega
  cases hending with
  | own front hown =>
      have hs' : source.toList = Leaf.textOf (left ++ front) ++ ';' :: Leaf.textOf right := by
        rw [← hs, hleaves, hown]
        simp [Leaf.chars]
      have hstop' : r.span.stop = utf8Len (Leaf.textOf (left ++ front)) + 1 := by
        rw [hstop, hown]
        simp [Leaf.chars]
        rfl
      have hholds := holds_of_endsStatement_eq_false hfull hlt
        (Grant.endsStatement_eq_false_of_written hs' hstop')
      rwa [hstart, hstop, ← List.append_nil body] at hholds
  | ownInserted front hown =>
      have hsplit : leavesIn parts = left ++ front ++ .inserted :: right := by
        rw [hleaves, hown]
        simp
      have hholds := holds_of_inserted hwell hs hsplit hfull hlt (by
        rw [hstop, hown]
        simp [Leaf.chars])
      rwa [hstart, hstop, ← List.append_nil body] at hholds
  | inserted =>
      have hsplit : leavesIn parts = left ++ body ++ .inserted :: right := by
        rw [hleaves]
        simp
      have hholds := holds_of_inserted hwell hs hsplit hfull hlt (by rw [hstop]; simp)
      have htext : Leaf.textOf (body ++ [.inserted]) = Leaf.textOf body := by simp [Leaf.chars]
      rwa [hstart, hstop, ← htext] at hholds
  | behind gaps hgaps hlast =>
      have hne : Leaf.textOf body ≠ [] := by
        intro hnil
        rw [hnil, String.utf8Len_nil] at hpos
        exact Nat.lt_irrefl 0 hpos
      have hs' : source.toList = Leaf.textOf (left ++ body) ++
          (Leaf.textOf gaps ++ ';' :: Leaf.textOf right) := by
        rw [← hs, hleaves]
        simp [Leaf.chars]
      have hstop' : r.span.stop = utf8Len (Leaf.textOf (left ++ body)) := by
        rw [hstop]
        simp
      have hlast' : (Leaf.textOf (left ++ body)).getLast? ≠ some ';' := by
        rwa [Leaf.textOf_append, List.getLast?_append_of_ne_nil _ hne]
      have hends := Grant.endsStatement_iff_of_blanks hs' hstop' (by simp [hne]) hlast'
        (blank_of_mem_textOf hgaps)
      have hholds := holds_of_endsStatement_iff hfull hlt (by omega) hends
      have hlen : utf8Len (Leaf.textOf left) +
          utf8Len (Leaf.textOf (body ++ (gaps ++ [.token [';']]))) =
            utf8Len (Leaf.textOf (left ++ body)) + utf8Len (Leaf.textOf gaps) + 1 := by
        have hsemicolon : utf8Len [';'] = 1 := rfl
        simp only [Leaf.textOf_append, Leaf.textOf_cons, Leaf.textOf_nil, Leaf.chars,
          List.append_nil, String.utf8Len_append, hsemicolon]
        omega
      rwa [hlen, ← hstart]

end Script

/-! ## Where what is removed starts -/

namespace Padding

variable {source : String}

theorem blankRun_of_start {start wide : Nat} (h : wide = start ∨ wide = blankStart source start) :
    wide ≤ start ∧ BlankRun source wide start := by
  rcases h with rfl | rfl
  · exact ⟨Nat.le_refl _, fun i hle hlt => absurd hlt (by omega)⟩
  · exact ⟨blankStart_le source start, blankRun_blankStart source start⟩

theorem start_of_construct (source : String) (span : Span) (kind : Construct) (placement : Placement) :
    (construct source span kind placement).start = span.start ∨
      (construct source span kind placement).start = blankStart source span.start := by
  have hstart : (withSemicolon source span).start = span.start := by
    rcases Grant.withSemicolon_cases source span with ⟨heq, -⟩ | ⟨i, -, heq⟩ <;> rw [heq]
  unfold construct line
  rw [← hstart]
  dsimp only
  split
  · split
    · exact Or.inr rfl
    · exact Or.inr rfl
    · exact Or.inl rfl
  · exact Or.inl hstart.symm

/-- What is removed holds a mark, and only blanks in front of the first one. -/
theorem exists_mark_of_mem_removed {marks : List Mark} {r : Span}
    (hr : r ∈ Mark.removed source marks) :
    ∃ mark ∈ marks, r.start ≤ mark.span.start ∧ mark.span.start < mark.span.stop ∧
      mark.span.stop ≤ r.stop ∧ BlankRun source r.start mark.span.start := by
  have hne := (Span.canonical_union _).nonempty r hr
  obtain ⟨x, hx, hxne, hstart⟩ := Span.start_of_mem_union hr
  have hxr := Span.contains_of_mem_union hr hx (i := x.start) (by omega) (by omega)
  obtain ⟨y, hy, rfl⟩ := List.mem_map.mp hx
  have hyne := (Span.canonical_union _).nonempty y hy
  have hwidens := widens_stranded source y
  have hystop := hwidens.le_stop
  obtain ⟨hle, hrun⟩ := blankRun_of_start (start_of_stranded source y)
  obtain ⟨z, hz, hzne, hystart⟩ := Span.start_of_mem_union hy
  have hzy := Span.contains_of_mem_union hy hz (i := z.start) (by omega) (by omega)
  obtain ⟨mark, hmark, rfl⟩ := List.mem_map.mp hz
  rw [← hstart, hystart] at hrun hle
  exact ⟨mark, hmark, hle, hzne, by omega, hrun⟩

end Padding

namespace Script

/-- What is taken out of a script for removals: off spaces what they name, and between two named
bytes of one of them everything.  In front of the first removal in a span stand only blanks. -/
structure Takes (source : String) (removals : List Removal) (removed : List Span) : Prop where
  named : ∀ i, (byte? source i).any Text.isSpace = false →
    Span.covers removed i = removals.any fun r => r.grant.names source i
  between : ∀ r ∈ removals, ∀ i j k, r.grant.names source i = true →
    r.grant.names source k = true → i ≤ j → j ≤ k → Span.covers removed j = true
  starts : ∀ s ∈ removed, ∃ r ∈ removals, s.start ≤ r.span.start ∧ r.span.start < s.stop ∧
    BlankRun source s.start r.span.start

theorem takes_of_grants {source sourceName : String} {removals : List Removal}
    (h : (Session.new source sourceName).grants (removals.map Removal.request) =
      removals.map Removal.grant) :
    Takes source removals
      ((Session.new source sourceName).after (removals.map Removal.request)).removed := by
  have hsound := Session.sound_grants_new source sourceName (removals.map Removal.request)
  have hmarks := Session.marks_after_new source sourceName (removals.map Removal.request)
  have hcovering := Session.covering_after_new source sourceName (removals.map Removal.request)
  rw [h] at hsound hmarks hcovering
  constructor
  · intro i hi
    rw [Session.covers_removed_eq_names source sourceName _ hi, h, List.any_map]
    rfl
  · intro r hr i j k hi hk hij hjk
    have hmem : r.grant ∈ removals.map Removal.grant := List.mem_map_of_mem hr
    obtain ⟨wide, hwide, hfits⟩ := Grant.exists_fits (hsound _ hmem)
    have hfirst := hfits.holds i hi
    have hlast := hfits.holds k hk
    exact hcovering.covers j (Span.covers_of_mem (List.mem_filterMap.mpr ⟨_, hmem, hwide⟩)
      (by omega) (by omega))
  · intro s hs
    rw [Session.removed_eq, Session.source_after_new] at hs
    obtain ⟨mark, hmark, hle, hlt, hstop, hrun⟩ := Padding.exists_mark_of_mem_removed hs
    have hspan := List.mem_map_of_mem (f := Mark.span) hmark
    rw [hmarks, List.filterMap_map] at hspan
    obtain ⟨r, hr, hconstruct⟩ := List.mem_filterMap.mp hspan
    have hmem : r.grant ∈ removals.map Removal.grant := List.mem_map_of_mem hr
    have hvalid := Span.bounds_of_ofBounds (hsound _ hmem)
    obtain ⟨wide, hwide, hfits⟩ := Grant.exists_fits (hsound _ hmem)
    have hin := hfits.holds r.span.start (by simp [Removal.grant, Grant.names, hvalid.1])
    obtain rfl : wide = mark.span := Option.some.inj (hwide.symm.trans hconstruct)
    obtain ⟨hle', hrun'⟩ := Padding.blankRun_of_start
      (Padding.start_of_construct source r.span r.construct r.placement)
    rw [Option.some.inj hwide] at hle' hrun'
    refine ⟨r, hr, by omega, by omega, fun i hi hlt => ?_⟩
    rcases Nat.lt_or_ge i mark.span.start with hbefore | hbehind
    · exact hrun i hi hbefore
    · exact hrun' i hbehind hlt

end Script

end JsPrune
