import JsPrune.Proofs.Text.Position
import JsPrune.Proofs.Text.Utf8
import Mathlib.Data.List.Induction
/-!
# Positions of offsets

The position of an offset can be said without a cursor: it is the position behind the text up to the
last boundary that is not beyond the offset.  One cursor that is asked for many offsets, in whatever
order, gives exactly these positions.
-/

namespace JsPrune

open String (utf8Len)
open Text

/-! ## The last boundary before an offset -/

/-- The last boundary of a text that is not beyond an offset. -/
def Text.roundDown (s : String) : Nat → Nat
  | 0 => 0
  | i + 1 => if isBoundary s (i + 1) then i + 1 else roundDown s i

namespace Text

theorem roundDown_le (s : String) (i : Nat) : roundDown s i ≤ i := by
  induction i with
  | zero => exact Nat.le_refl 0
  | succ i ih =>
      rw [roundDown]
      split
      · exact Nat.le_refl _
      · exact Nat.le_succ_of_le ih

theorem isBoundary_roundDown (s : String) (i : Nat) : isBoundary s (roundDown s i) = true := by
  induction i with
  | zero => exact isBoundary_zero s
  | succ i ih =>
      rw [roundDown]
      split
      · assumption
      · exact ih

theorem le_roundDown {s : String} {b i : Nat} (hb : isBoundary s b = true) (hle : b ≤ i) :
    b ≤ roundDown s i := by
  induction i with
  | zero => exact hle
  | succ i ih =>
      rw [roundDown]
      split
      · exact hle
      · rename_i hnot
        have hne : b ≠ i + 1 := by
          rintro rfl
          exact hnot hb
        exact ih (by omega)

theorem roundDown_mono (s : String) {i j : Nat} (hij : i ≤ j) : roundDown s i ≤ roundDown s j :=
  le_roundDown (isBoundary_roundDown s i) ((roundDown_le s i).trans hij)

theorem roundDown_min (s : String) (i : Nat) : roundDown s (min i s.utf8ByteSize) = roundDown s i := by
  have hsize := le_size_of_isBoundary (isBoundary_roundDown s i)
  apply Nat.le_antisymm
  · exact roundDown_mono s (Nat.min_le_left ..)
  · exact le_roundDown (isBoundary_roundDown s i) (Nat.le_min.mpr ⟨roundDown_le s i, hsize⟩)

theorem utf8Len_fitting_le (n : Nat) (cs : List Char) : utf8Len (fitting n cs) ≤ n := by
  induction cs generalizing n with
  | nil => exact Nat.zero_le n
  | cons c cs ih =>
      rw [fitting]
      split
      · have hrest := ih (n - c.utf8Size)
        rw [String.utf8Len_cons]
        omega
      · exact Nat.zero_le n

theorem isBoundary_fitting (s : String) (i : Nat) :
    isBoundary s (utf8Len (fitting i s.toList)) = true :=
  isBoundary_utf8Len (Cursor.at_moveTo (Cursor.at_ofString s) i).text_eq

theorem toList_slice_roundDown (s : String) (i : Nat) :
    (slice s 0 (roundDown s i)).toList = fitting i s.toList := by
  obtain ⟨front, rest, hs, hfront⟩ := isBoundary_iff.mp (isBoundary_roundDown s i)
  have hfits : fitting (roundDown s i) s.toList = front := by
    rw [hs, ← hfront, fitting_utf8Len]
  have hslice : slice s 0 (roundDown s i) = String.ofList front := by
    have hsplit : s.toList = [] ++ front ++ rest := hs
    rw [← hfront, ← Nat.zero_add (utf8Len front)]
    exact slice_eq hsplit
  -- No character more fits, since it would end at a later boundary.
  obtain ⟨more, hmore⟩ := exists_fitting_append (roundDown_le s i) s.toList
  have hlast := le_roundDown (isBoundary_fitting s i) (utf8Len_fitting_le i s.toList)
  rw [hfits] at hmore
  rw [hmore, String.utf8Len_append, hfront] at hlast
  obtain rfl : more = [] := String.utf8Len_eq_zero.mp (by omega)
  rw [hslice, String.toList_ofList, hmore, List.append_nil]

end Text

/-! ## Positions -/

namespace Position

/-- The position of an offset: an offset beyond the end counts as the end, and one inside a character
as the start of the character. -/
def ofOffset (text : String) (i : Nat) : Position :=
  behind (slice text 0 (roundDown text (min i text.utf8ByteSize))).toList

theorem ofOffset_eq (text : String) (i : Nat) :
    ofOffset text i = behind (fitting i text.toList) := by
  rw [ofOffset, roundDown_min, toList_slice_roundDown]

theorem ofOffset_mono (text : String) {i j : Nat} (hij : i ≤ j) :
    (ofOffset text i).le (ofOffset text j) = true := by
  obtain ⟨more, hmore⟩ := exists_fitting_append hij text.toList
  rw [ofOffset_eq, ofOffset_eq, hmore]
  exact le_behind_append _ more

theorem units_le_utf8Size (c : Char) : units c ≤ c.utf8Size := by
  have hpos := c.utf8Size_pos
  unfold units
  split
  · exact hpos
  · rename_i hlarge
    by_contra hsmall
    have hascii : c.val.toNat ≤ 127 := Char.utf8Size_eq_one_iff.mp (by omega)
    exact hlarge (Nat.lt_of_le_of_lt hascii (by decide))

/-- A character adds at most its bytes to line and column. -/
theorem advance_le (p : Position) (afterReturn : Bool) (c : Char) :
    (p.advance afterReturn c).line + (p.advance afterReturn c).column ≤
      p.line + p.column + c.utf8Size := by
  have hunits := units_le_utf8Size c
  have hpos := c.utf8Size_pos
  unfold advance
  split
  · omega
  · split <;> dsimp only <;> omega

theorem behind_le_utf8Len (cs : List Char) :
    (behind cs).line + (behind cs).column ≤ utf8Len cs := by
  induction cs using List.reverseRecOn with
  | nil => exact Nat.le_refl 0
  | append_singleton cs c ih =>
      have hstep := advance_le (behind cs) (endsReturn cs) c
      rw [behind_snoc, String.utf8Len_append, String.utf8Len_cons, String.utf8Len_nil]
      omega

theorem ofOffset_le_size (text : String) (i : Nat) :
    (ofOffset text i).line + (ofOffset text i).column ≤ text.utf8ByteSize := by
  have hlen := behind_le_utf8Len (fitting i text.toList)
  rw [ofOffset_eq]
  exact hlen.trans (le_size_of_isBoundary (isBoundary_fitting text i))

/-- A cursor gives for each offset of a series its own position, whatever offsets come before it.  The
positions ascend with the offsets, and neither their lines nor their columns exceed the size of the
text in bytes. -/
theorem ofOffsets_eq_map_ofOffset (text : String) (offsets : List Nat) :
    ofOffsets text offsets = offsets.map (ofOffset text) ∧
      (∀ i j, i ≤ j → (ofOffset text i).le (ofOffset text j) = true) ∧
      ∀ i, (ofOffset text i).line + (ofOffset text i).column ≤ text.utf8ByteSize := by
  refine ⟨?_, fun i j => ofOffset_mono text, ofOffset_le_size text⟩
  rw [ofOffsets_eq]
  exact List.map_congr_left fun i _ => (ofOffset_eq text i).symm

-- Beyond the end, back, between the two bytes that end a line, and inside a character.
theorem ofOffsets_eq_map_ofOffset_rewinding :
    ofOffsets "あ\r\nb" [99, 4, 5, 1, 3] = [⟨1, 1⟩, ⟨1, 0⟩, ⟨1, 0⟩, ⟨0, 0⟩, ⟨0, 1⟩] ∧
      (ofOffset "あ\r\nb" 1).le (ofOffset "あ\r\nb" 4) = true := by
  have h := ofOffsets_eq_map_ofOffset "あ\r\nb" [99, 4, 5, 1, 3]
  refine ⟨h.1.trans ?_, h.2.1 1 4 (by decide)⟩
  decide

end Position

end JsPrune
