import JsPrune.Proofs.Comment.Lexeme
import JsPrune.Proofs.Text.Blanks
/-!
# Where comments stand

The comments of a script ascend, and each stands in the script where its span says.  From the shapes
of comments follows which bytes can stand at their ends: a slash at the start, and at the end a slash,
the end of a line or the end of the script.
-/

namespace JsPrune

open String (utf8Len utf8EncodeChar)
open Text

namespace Comment

/-- A comment stands in a text where its span says, and has one of the shapes. -/
def StandsIn (source : String) (c : Comment) : Prop :=
  ∃ before after, source.toList = before ++ c.text.toList ++ after ∧
    c.span.start = utf8Len before ∧ c.span.stop = utf8Len before + utf8Len c.text.toList ∧
    Scanner.Shape c.kind c.terminated c.text.toList after

end Comment

namespace Scanner

theorem scanFrom_cons (n offset : Nat) (st : State) (c : Char) (cs : List Char) :
    scanFrom (n + 1) offset st (c :: cs) =
      ((step st c cs).comment.map fun k => (⟨⟨offset, offset + utf8Len (step st c cs).taken⟩, k.1,
        String.ofList (step st c cs).taken, k.2⟩ : Comment)).toList ++
      scanFrom n (offset + utf8Len (step st c cs).taken) (step st c cs).next (step st c cs).rest := by
  rw [scanFrom, byteLength_eq_utf8Len]
  cases (step st c cs).comment <;> rfl

/-- The comments of a scan stand where they should, at or behind its start, and ascend. -/
theorem scanFrom_placed {source : String} (n : Nat) (st : State) {before cs : List Char}
    (hs : source.toList = before ++ cs) :
    (∀ c ∈ scanFrom n (utf8Len before) st cs,
      c.StandsIn source ∧ utf8Len before ≤ c.span.start) ∧
    (scanFrom n (utf8Len before) st cs).Pairwise fun c d => c.span.stop ≤ d.span.start := by
  induction n generalizing before st cs with
  | zero => simp [scanFrom]
  | succ n ih =>
      cases cs with
      | nil => simp [scanFrom]
      | cons ch cs =>
          have hchars := chars_step st ch cs
          have hshape := shaped_step st ch cs
          rw [scanFrom_cons]
          generalize step st ch cs = move at hchars hshape ⊢
          have hs' : source.toList = before ++ move.taken ++ move.rest := by
            rw [hs, ← hchars, Move.chars, List.append_assoc]
          have hlen : utf8Len (before ++ move.taken) = utf8Len before + utf8Len move.taken :=
            String.utf8Len_append ..
          obtain ⟨hlater, hascend⟩ := ih move.next hs'
          rw [hlen] at hlater hascend
          cases hcomment : move.comment with
          | none =>
              rw [Option.map_none, Option.toList_none, List.nil_append]
              refine ⟨fun c hc => ⟨(hlater c hc).1, ?_⟩, hascend⟩
              have := (hlater c hc).2
              omega
          | some k =>
              rw [Option.map_some, Option.toList_some, List.singleton_append]
              constructor
              · intro c hc
                rcases List.mem_cons.mp hc with rfl | hc
                · refine ⟨⟨before, move.rest, ?_, rfl, ?_, ?_⟩, Nat.le_refl _⟩ <;>
                    rw [String.toList_ofList]
                  · exact hs'
                  · exact hshape k.1 k.2 hcomment
                · refine ⟨(hlater c hc).1, ?_⟩
                  have := (hlater c hc).2
                  omega
              · exact List.pairwise_cons.mpr ⟨fun d hd => (hlater d hd).2, hascend⟩

theorem splitHashbang_append (cs : List Char) :
    (splitHashbang cs).1 ++ (splitHashbang cs).2 = cs := by
  unfold splitHashbang
  split
  · exact push_append (splitWhile_append _ _) rfl
  · rfl

end Scanner

namespace Comment

theorem all_placed (source : String) :
    (∀ c ∈ all source, c.StandsIn source) ∧
    (all source).Pairwise fun c d => c.span.stop ≤ d.span.start := by
  have hs := (Scanner.splitHashbang_append source.toList).symm
  have hall : all source = Scanner.scanFrom (Scanner.splitHashbang source.toList).2.length
      (utf8Len (Scanner.splitHashbang source.toList).1) .initial
      (Scanner.splitHashbang source.toList).2 := by
    rw [← Scanner.byteLength_eq_utf8Len]
    rfl
  rw [hall]
  obtain ⟨hplaced, hascend⟩ := Scanner.scanFrom_placed
    (Scanner.splitHashbang source.toList).2.length .initial hs
  exact ⟨fun c hc => (hplaced c hc).1, hascend⟩

theorem standsIn_of_mem {source : String} {c : Comment} (hc : c ∈ all source) :
    c.StandsIn source :=
  (all_placed source).1 c hc

theorem eq_or_apart {source : String} {c d : Comment} (hc : c ∈ all source) (hd : d ∈ all source) :
    c = d ∨ c.span.stop ≤ d.span.start ∨ d.span.stop ≤ c.span.start := by
  have hascend := List.pairwise_iff_getElem.mp (all_placed source).2
  obtain ⟨i, hi, rfl⟩ := List.mem_iff_getElem.mp hc
  obtain ⟨j, hj, rfl⟩ := List.mem_iff_getElem.mp hd
  rcases Nat.lt_trichotomy i j with hlt | rfl | hgt
  · exact Or.inr (Or.inl (hascend i j hi hj hlt))
  · exact Or.inl rfl
  · exact Or.inr (Or.inr (hascend j i hj hi hgt))

/-! ## The bytes of a comment -/

theorem exists_terminator_of_break {source : String} {i : Nat}
    (h : (byte? source i).any isLineBreak = true) :
    ∃ front t behind, source.toList = front ++ t :: behind ∧ utf8Len front = i ∧
      isLineTerminator t = true := by
  obtain ⟨b, hb, hbreak⟩ := (Option.any_eq_true _ _).mp h
  obtain ⟨front, t, behind, hs, hfront, ht⟩ :=
    exists_char_of_byte?_lt hb (toNat_lt_of_isLineBreak hbreak)
  refine ⟨front, t, behind, hs, hfront, ?_⟩
  simp only [isLineBreak, Bool.or_eq_true, beq_iff_eq] at hbreak
  have hchar : t = '\n' ∨ t = '\r' := by
    rcases hbreak with rfl | rfl
    · exact Or.inl (Char.ext (UInt32.toNat_inj.mp ht))
    · exact Or.inr (Char.ext (UInt32.toNat_inj.mp ht))
  rcases hchar with rfl | rfl <;> rfl

namespace StandsIn

variable {source : String} {c : Comment}

theorem boundary (h : c.StandsIn source) :
    isBoundary source c.span.start = true ∧ isBoundary source c.span.stop = true := by
  obtain ⟨before, after, hs, hstart, hstop, -⟩ := h
  rw [hstart, hstop, ← String.utf8Len_append]
  exact ⟨isBoundary_utf8Len (hs.trans (List.append_assoc ..)), isBoundary_utf8Len hs⟩

theorem start_add_two_le (h : c.StandsIn source) : c.span.start + 2 ≤ c.span.stop := by
  obtain ⟨before, after, -, hstart, hstop, hshape⟩ := h
  obtain ⟨d, body, htext⟩ := hshape.eq_cons
  have hslash : ('/' : Char).utf8Size = 1 := rfl
  have hpos := d.utf8Size_pos
  rw [htext, String.utf8Len_cons, String.utf8Len_cons] at hstop
  omega

theorem byte?_start (h : c.StandsIn source) : byte? source c.span.start = some 0x2F := by
  have htwo := h.start_add_two_le
  obtain ⟨before, after, hs, hstart, hstop, hshape⟩ := h
  obtain ⟨d, body, htext⟩ := hshape.eq_cons
  have hbyte := byte?_add hs (k := 0) (by omega)
  rw [Nat.add_zero, ← hstart, htext] at hbyte
  exact hbyte

/-- A comment that ends before the script does ends with a slash, or it holds no line terminator and
the character behind it is one. -/
theorem byte?_stop (h : c.StandsIn source) (hlt : c.span.stop < source.utf8ByteSize) :
    byte? source (c.span.stop - 1) = some 0x2F ∨
      c.isMultiline = false ∧
        ∀ b, byte? source c.span.stop = some b → b.toNat < 0x80 → isLineBreak b = true := by
  obtain ⟨before, after, hs, hstart, hstop, hshape⟩ := h
  rcases hshape.ends with ⟨body, htext⟩ | hnil | ⟨hnone, hafter⟩
  · left
    have hslash : utf8Len ['/'] = 1 := rfl
    rw [htext, ← List.append_assoc] at hs
    rw [htext, String.utf8Len_append] at hstop
    have hbyte := byte?_add hs (k := 0) (by omega)
    rw [String.utf8Len_append] at hbyte
    rw [show c.span.stop - 1 = utf8Len before + utf8Len body + 0 by omega, hbyte]
    rfl
  · rw [hnil, List.append_nil] at hs
    rw [← String.utf8Len_toList, hs, String.utf8Len_append] at hlt
    omega
  · refine Or.inr ⟨hnone, fun b hb hascii => ?_⟩
    rw [hstop, ← String.utf8Len_append] at hb
    cases after with
    | nil =>
        have := lt_size_of_byte? hb
        rw [← String.utf8Len_toList, hs, List.append_nil] at this
        omega
    | cons t after =>
        have hpos := t.utf8Size_pos
        have hmem := mem_utf8EncodeChar_of_byte? hs (Nat.le_refl _) (by omega) hb
        have ht := toNat_eq_of_mem_utf8EncodeChar hmem hascii
        simp only [List.head?_cons, Option.all_some, isLineTerminator, Bool.or_eq_true,
          beq_iff_eq] at hafter
        rcases hafter with ((rfl | rfl) | rfl) | rfl
        · rw [UInt8.toNat_inj.mp (show b.toNat = (0x0A : UInt8).toNat from ht.symm)]
          rfl
        · rw [UInt8.toNat_inj.mp (show b.toNat = (0x0D : UInt8).toNat from ht.symm)]
          rfl
        · exact absurd (ht.trans_lt hascii) (by decide)
        · exact absurd (ht.trans_lt hascii) (by decide)

/-- Blanks before a slash do not reach back into a comment. -/
theorem stop_le_of_run (h : c.StandsIn source) {i j : Nat} (hj : c.span.stop ≤ j)
    (hslash : byte? source j = some 0x2F) (hrun : BlankRun source i j) : c.span.stop ≤ i := by
  by_contra hlt
  have hsize := lt_size_of_byte? hslash
  have htwo := h.start_add_two_le
  rcases h.byte?_stop (by omega) with hlast | ⟨-, hbreak⟩
  · have hblank := hrun (c.span.stop - 1) (by omega) (by omega)
    rw [hlast] at hblank
    exact absurd hblank (by decide)
  · rcases Nat.eq_or_lt_of_le hj with rfl | hbefore
    · exact absurd (hbreak _ hslash (by decide)) (by decide)
    · have hblank := hrun c.span.stop (by omega) hbefore
      obtain ⟨b, hb, hblank⟩ := (Option.any_eq_true _ _).mp hblank
      have hnone := hbreak b hb (toNat_lt_of_isBlank hblank)
      rw [isLineBreak_of_isBlank hblank] at hnone
      exact absurd hnone (by simp)

theorem isMultiline_of_mem (h : c.StandsIn source) {front behind : List Char} {t : Char}
    (hs : source.toList = front ++ t :: behind) (hle : c.span.start ≤ utf8Len front)
    (hlt : utf8Len front < c.span.stop) (ht : isLineTerminator t = true) :
    c.isMultiline = true := by
  obtain ⟨before, after, hs', hstart, hstop, -⟩ := h
  have hmem := mem_of_offset (hs'.symm.trans hs) (by omega) (by omega)
  exact List.any_eq_true.mpr ⟨t, hmem, ht⟩

theorem isMultiline_of_break (h : c.StandsIn source) {i : Nat} (hle : c.span.start ≤ i)
    (hlt : i < c.span.stop) (hbreak : (byte? source i).any isLineBreak = true) :
    c.isMultiline = true := by
  obtain ⟨front, t, behind, hs, rfl, ht⟩ := exists_terminator_of_break hbreak
  exact h.isMultiline_of_mem hs hle hlt ht

theorem not_break_last (h : c.StandsIn source) (hlt : c.span.stop < source.utf8ByteSize) :
    ¬ (byte? source (c.span.stop - 1)).any isLineBreak = true := by
  intro hbreak
  have htwo := h.start_add_two_le
  rcases h.byte?_stop hlt with hslash | ⟨hone, -⟩
  · rw [hslash] at hbreak
    exact absurd hbreak (by decide)
  · rw [h.isMultiline_of_break (by omega) (by omega) hbreak] at hone
    exact absurd hone (by simp)

end StandsIn

end Comment

end JsPrune
