import JsPrune.Proofs.Session.Exactness
import JsPrune.Proofs.SourceMap.Anchors
import JsPrune.Proofs.Text.Position
/-!
# Where characters come from

The source map of a cut leads every character of the output back to its position in the source: the
last mapping before the character on its line says where the source goes on, and the columns between
are the same on both sides.
-/

namespace JsPrune

open String (utf8Len)
open Text

namespace SourceMap

/-- The last mapping on the line of a position that does not come after it. -/
def mappingAt (map : SourceMap) (p : Position) : Option Mapping :=
  (map.mappings.filter fun mapping => mapping.generated.line == p.line &&
    decide (mapping.generated.column ≤ p.column)).getLast?

/-! ## Sorted mappings -/

theorem sort_eq_self {mappings : List Mapping}
    (h : mappings.Pairwise fun a b => a.generated.le b.generated = true) :
    sort mappings = mappings := by
  induction mappings with
  | nil => rfl
  | cons mapping rest ih =>
      obtain ⟨hhead, htail⟩ := List.pairwise_cons.mp h
      have hsort : sort (mapping :: rest) = insert mapping (sort rest) := rfl
      rw [hsort, ih htail]
      cases rest with
      | nil => rfl
      | cons other rest => rw [insert, if_pos (hhead other List.mem_cons_self)]

theorem getLast?_filter {α : Type} {f : α → Nat} {xs : List α} {p : α → Bool} {a : α}
    (hxs : xs.Pairwise fun x y => f x < f y) (ha : a ∈ xs) (hpa : p a = true)
    (hlast : ∀ b ∈ xs, f a < f b → p b = false) : (xs.filter p).getLast? = some a := by
  induction xs with
  | nil => exact absurd ha (by simp)
  | cons x xs ih =>
      obtain ⟨hhead, htail⟩ := List.pairwise_cons.mp hxs
      rcases List.mem_cons.mp ha with rfl | ha
      · have hnil : xs.filter p = [] := List.filter_eq_nil_iff.mpr fun b hb => by
          rw [hlast b (List.mem_cons_of_mem _ hb) (hhead b hb)]
          simp
        rw [List.filter_cons_of_pos hpa, hnil]
        rfl
      · have hrest := ih htail ha fun b hb => hlast b (List.mem_cons_of_mem _ hb)
        rw [List.filter_cons]
        split
        · rw [List.getLast?_cons, hrest]
          rfl
        · exact hrest

/-! ## The mappings of a cut -/

def mappingOf (source : String) (removed : List Span) (anchor : Nat × Nat) : Mapping :=
  ⟨.behind (fitting anchor.1 (cut source removed).toList),
    .behind (fitting anchor.2 source.toList)⟩

section

variable {source : String} {removed : List Span}

theorem mappings_ofCut (h : Cuttable source removed) (sourceName : String) :
    (ofCut source (cut source removed) sourceName removed).mappings =
      (anchorsOfCut source removed).map (mappingOf source removed) := by
  have hzip : (ofCut source (cut source removed) sourceName removed).mappings =
      sort ((anchorsOfCut source removed).map (mappingOf source removed)) := by
    unfold ofCut
    dsimp only
    rw [Position.ofOffsets_eq, Position.ofOffsets_eq, List.map_map, List.map_map,
      List.zipWith_map_left, List.zipWith_map_right, List.zipWith_self]
    rfl
  rw [hzip]
  refine sort_eq_self (List.pairwise_map.mpr ((pairwise_anchorsOfCut h).imp fun hab => ?_))
  obtain ⟨ds, hds⟩ := exists_fitting_append (Nat.le_of_lt hab) (cut source removed).toList
  unfold mappingOf
  dsimp only
  rw [hds]
  exact Position.le_behind_append _ ds

end

/-! ## Line ends, by characters and by bytes -/

theorem endsReturn_of_byte? {text : String} {front rest : List Char} {k : Nat}
    (hs : text.toList = front ++ rest) (hk : k + 1 = utf8Len front)
    (hbyte : byte? text k = some 0x0D) : Position.endsReturn front = true := by
  obtain ⟨before, c, after, hs', hbefore, hc⟩ := exists_char_of_byte?_lt hbyte (by decide)
  have hreturn : c = '\r' := Char.ext (UInt32.toNat_inj.mp hc)
  have hlen : utf8Len (before ++ [c]) = utf8Len front := by
    rw [String.utf8Len_append, String.utf8Len_cons, hreturn, hbefore, ← hk]
    rfl
  have hsplit : text.toList = before ++ [c] ++ after := by rw [hs', List.append_assoc]; rfl
  have hfront := eq_of_utf8Len_eq hs hsplit hlen.symm
  rw [hfront, Position.endsReturn_snoc, hreturn]
  rfl

theorem eq_newline_of_byte? {text : String} {front rest : List Char} {c : Char}
    (hs : text.toList = front ++ c :: rest) (hbyte : byte? text (utf8Len front) = some 0x0A) :
    c = '\n' := by
  have hpos := c.utf8Size_pos
  have hmem := mem_utf8EncodeChar_of_byte? hs (Nat.le_refl _) (by omega) hbyte
  exact Char.ext (UInt32.toNat_inj.mp (toNat_eq_of_mem_utf8EncodeChar hmem (by decide)))

theorem not_isLineEnd_of_bytes {text : String} {before part after : List Char}
    (hs : text.toList = before ++ part ++ after)
    (h : ∀ i, utf8Len before ≤ i → i < utf8Len before + utf8Len part →
      (byte? text i).any isLineBreak = false) : ∀ c ∈ part, Position.isLineEnd c = false := by
  intro c hc
  refine Bool.eq_false_iff.mpr fun hend => ?_
  obtain ⟨front, behind, rfl⟩ := List.append_of_mem hc
  have hpos := c.utf8Size_pos
  have hs' : text.toList = before ++ front ++ c :: (behind ++ after) := by
    rw [hs]
    simp
  have hno := h (utf8Len (before ++ front)) (by simp) (by simp; omega)
  simp only [Position.isLineEnd, Bool.or_eq_true, beq_iff_eq] at hend
  rcases hend with rfl | rfl <;> rw [byte?_of_toNat_lt hs' (by decide)] at hno <;>
    exact absurd hno (by decide)

/-! ## Characters of the output -/

section

variable {source : String} {removed : List Span}

theorem exists_split_of_anchor (h : Cuttable source removed) {anchor : Nat × Nat}
    (ha : anchor ∈ anchorsOfCut source removed) :
    ∃ before after, source.toList = before ++ after ∧ utf8Len before = anchor.2 ∧
      utf8Len (keep removed 0 before) = anchor.1 ∧
      mappingOf source removed anchor = ⟨.behind (keep removed 0 before), .behind before⟩ := by
  obtain ⟨-, -, hrank, hboundary⟩ := anchor_spec h ha
  obtain ⟨before, after, hs, hbefore⟩ := isBoundary_iff.mp hboundary
  have hlen : utf8Len (keep removed 0 before) = anchor.1 := by
    rw [utf8Len_keep hs h, hrank, hbefore]
    rfl
  refine ⟨before, after, hs, hbefore, hlen, ?_⟩
  unfold mappingOf
  rw [toList_cut_append h hs, ← hlen, ← hbefore, hs, fitting_utf8Len, fitting_utf8Len]

theorem not_le_of_later (h : Cuttable source removed) {front rest : List Char} {c : Char}
    (hcode : (cut source removed).toList = front ++ c :: rest)
    (hpair : (c == '\n' && Position.endsReturn front) = false) {anchor : Nat × Nat}
    (ha : anchor ∈ anchorsOfCut source removed) (hlater : utf8Len front < anchor.1) :
    (mappingOf source removed anchor).generated.le (.behind front) = false := by
  obtain ⟨before, after, hs, -, hlen, hmapping⟩ := exists_split_of_anchor h ha
  have hsplit := toList_cut_append h hs
  have hboundary := isBoundary_utf8Len hsplit
  rw [hlen] at hboundary
  obtain ⟨part, behind, hpart, hpartlen⟩ := exists_split hcode hboundary (Nat.le_of_lt hlater)
  rw [hpart, ← List.append_assoc] at hcode
  have hfront := eq_of_utf8Len_eq hsplit hcode (by rw [hlen, String.utf8Len_append, hpartlen])
  cases part with
  | nil =>
      rw [String.utf8Len_nil] at hpartlen
      omega
  | cons d part =>
      obtain ⟨rfl, -⟩ := List.cons.inj hpart
      rw [hmapping, hfront]
      exact Position.behind_append_not_le hpair

theorem mappingAt_of_last (h : Cuttable source removed) {front rest : List Char} {c : Char}
    (hcode : (cut source removed).toList = front ++ c :: rest)
    (hpair : (c == '\n' && Position.endsReturn front) = false) {anchor : Nat × Nat}
    (ha : anchor ∈ anchorsOfCut source removed)
    (hline : (mappingOf source removed anchor).generated.line = (Position.behind front).line)
    (hcolumn : (mappingOf source removed anchor).generated.column ≤
      (Position.behind front).column)
    (hlast : ∀ b ∈ anchorsOfCut source removed, b.1 ≤ utf8Len front → b.1 ≤ anchor.1)
    (sourceName : String) :
    (ofCut source (cut source removed) sourceName removed).mappingAt (.behind front) =
      some (mappingOf source removed anchor) := by
  rw [mappingAt, mappings_ofCut h, List.filter_map, List.getLast?_map,
    getLast?_filter (pairwise_anchorsOfCut h) ha]
  · rfl
  · simpa using ⟨hline, hcolumn⟩
  · intro b hb hlater
    have hbehind := not_le_of_later h hcode hpair hb (by
      by_contra hbefore
      have := hlast b hb (by omega)
      omega)
    refine Bool.eq_false_iff.mpr fun hon => ?_
    simp only [Function.comp_apply, Bool.and_eq_true, beq_iff_eq, decide_eq_true_eq] at hon
    rw [Position.le_iff.mpr (Or.inr hon)] at hbehind
    exact absurd hbehind (by simp)

/-- The map of a cut leads each character of the output to its place in the source. -/
theorem mappingAt_ofCut (h : Cuttable source removed) (hjoin : ¬ JoinsLineEnd source removed)
    {front rest : List Char} {c : Char}
    (hcode : (cut source removed).toList = front ++ c :: rest)
    (hpair : (c == '\n' && Position.endsReturn front) = false) (sourceName : String) :
    ∃ before after mapping, source.toList = before ++ c :: after ∧
      (origins source removed)[utf8Len front]? = some (utf8Len before) ∧
      (ofCut source (cut source removed) sourceName removed).mappingAt (.behind front) =
        some mapping ∧
      (⟨mapping.original.line, mapping.original.column +
        ((Position.behind front).column - mapping.generated.column)⟩ : Position) =
          .behind before := by
  have hkeep := hcode
  rw [toList_cut h] at hkeep
  obtain ⟨before, after, hs, hfront, hkept⟩ := exists_of_keep_eq hkeep
  rw [Nat.zero_add] at hkept
  have hlt : utf8Len before < source.utf8ByteSize := by
    have hpos := c.utf8Size_pos
    rw [← String.utf8Len_toList, hs, String.utf8Len_append, String.utf8Len_cons]
    omega
  have hrank : Segment.rank removed (utf8Len before) = utf8Len front := by
    rw [← hfront]
    exact (utf8Len_keep hs h).symm
  obtain ⟨anchor, ha, segment, hsegment, hexact, hstart, hle, hstop, hlast⟩ :=
    exists_last_anchor h hlt hkept
  obtain ⟨-, -, harank, -⟩ := anchor_spec h ha
  have hpairbytes : ∀ k, k + 1 = Segment.rank removed (utf8Len before) →
      byte? (cut source removed) k = some 0x0D →
      byte? (cut source removed) (k + 1) ≠ some 0x0A := by
    intro k hk hreturn hnewline
    rw [hrank] at hk
    rw [hk] at hnewline
    rw [eq_newline_of_byte? hcode hnewline, endsReturn_of_byte? hcode hk hreturn] at hpair
    exact absurd hpair (by decide)
  have hno := fun j => no_line_end_after_anchor h hjoin hsegment hexact harank hstart hstop hlast
    hpairbytes (j := j)
  rw [hrank] at hlast
  -- The character stands behind the anchor and some characters that end no line.
  obtain ⟨abefore, aafter, has, habefore, halen, hmapping⟩ := exists_split_of_anchor h ha
  obtain ⟨part, behind, hpart, hpartlen⟩ := exists_split has (isBoundary_utf8Len hs) (by omega)
  rw [hpart, ← List.append_assoc] at has
  have hbefore := eq_of_utf8Len_eq hs has (by rw [String.utf8Len_append, hpartlen])
  have hkeeppart : keep removed (utf8Len abefore) part = part := by
    refine keep_eq_self fun i hi hlt => hexact.kept i ?_ ?_ <;> omega
  rw [hbefore, keep_append, Nat.zero_add, hkeeppart] at hfront
  have hplain : ∀ d ∈ part, Position.isLineEnd d = false :=
    not_isLineEnd_of_bytes has fun i hi hlt => hno i (by omega) (by omega)
  have hgenerated := Position.behind_append_of_plain (keep removed 0 abefore) hplain
  have horiginal := Position.behind_append_of_plain abefore hplain
  rw [hfront] at hgenerated
  rw [← hbefore] at horiginal
  refine ⟨before, after, mappingOf source removed anchor, hs, ?_, ?_, ?_⟩
  · rw [← hrank]
    exact Segment.origins_rank hlt hkept
  · refine mappingAt_of_last h hcode hpair ha ?_ ?_ hlast sourceName
    · rw [hmapping, hgenerated]
    · rw [hmapping, hgenerated]
      exact Nat.le_add_right ..
  · rw [hmapping, hgenerated, horiginal]
    dsimp only
    rw [Nat.add_sub_cancel_left]

end

end SourceMap

namespace Session

/-- Whatever was asked of a session before, its source map is exact, provided that the cut makes no
line end of two characters that were apart.  Take a character of the output, other than the line feed
of a pair, that stands behind `front`, and the last mapping on its line up to there.  Counted on from
this mapping, the column is that of the character in the source, and the line is the same. -/
theorem sourceMap_exact {source sourceName : String} {requests : List Request}
    {front rest : List Char} {c : Char}
    (hjoin : ¬ JoinsLineEnd source ((new source sourceName).after requests).removed)
    (hcode : ((new source sourceName).after requests).code.toList = front ++ c :: rest)
    (hpair : (c == '\n' && Position.endsReturn front) = false) :
    ∃ before after mapping, source.toList = before ++ c :: after ∧
      (origins source ((new source sourceName).after requests).removed)[utf8Len front]? =
        some (utf8Len before) ∧
      ((new source sourceName).after requests).sourceMap.mappingAt (.behind front) =
        some mapping ∧
      (⟨mapping.original.line, mapping.original.column +
        ((Position.behind front).column - mapping.generated.column)⟩ : Position) =
          .behind before := by
  have hcut := cuttable_after_new source sourceName requests
  have hsource := source_after_new source sourceName requests
  rw [code_eq, hsource] at hcode
  rw [sourceMap, code_eq, hsource]
  exact SourceMap.mappingAt_ofCut hcut hjoin hcode hpair _

theorem sourceMap_exact_after_statement :
    let session := (new "x;\r\ny;あ🙂z" "x.js").after
      [.markConstruct 4 6 .statement .statementList]
    ∃ before after mapping, "x;\r\ny;あ🙂z".toList = before ++ 'z' :: after ∧
      (origins "x;\r\ny;あ🙂z" session.removed)[utf8Len "x;\r\nあ🙂".toList]? =
        some (utf8Len before) ∧
      session.sourceMap.mappingAt (.behind "x;\r\nあ🙂".toList) = some mapping ∧
      (⟨mapping.original.line, mapping.original.column +
        ((Position.behind "x;\r\nあ🙂".toList).column - mapping.generated.column)⟩ : Position) =
          .behind before := by
  have hcode : ((new "x;\r\ny;あ🙂z" "x.js").after
      [.markConstruct 4 6 .statement .statementList]).code.toList =
        "x;\r\nあ🙂".toList ++ 'z' :: [] := by decide +kernel
  exact sourceMap_exact (by decide +kernel) hcode (by decide +kernel)

end Session

end JsPrune
