import JsPrune.Proofs.Comment.Locality
import JsPrune.Proofs.Text.Blanks
/-!
# Characters and their bytes

Spaces are ASCII, so a byte that is a space is a character that is one, and the other way round.
-/

namespace JsPrune.Text

open String (utf8Len)
open Scanner (isBlankChar)

def isSpaceChar (c : Char) : Bool := isBlankChar c || c == '\n' || c == '\r'

variable {source : String} {before part after : List Char} {c : Char} {i : Nat}

/-- An ASCII byte is the character that holds its offset. -/
theorem eq_ofNat_of_byte? {b : UInt8} (hs : source.toList = before ++ c :: after)
    (hle : utf8Len before ≤ i) (hlt : i < utf8Len before + c.utf8Size)
    (hb : byte? source i = some b) (hascii : b.toNat < 0x80) : c = Char.ofNat b.toNat := by
  have hc := toNat_eq_of_mem_utf8EncodeChar (mem_utf8EncodeChar_of_byte? hs hle hlt hb) hascii
  rw [← hc, Char.ofNat_toNat]

theorem isBlankChar_of_byte? (hs : source.toList = before ++ c :: after)
    (hle : utf8Len before ≤ i) (hlt : i < utf8Len before + c.utf8Size)
    (h : (byte? source i).any isBlank = true) : isBlankChar c = true := by
  obtain ⟨b, hb, hblank⟩ := (Option.any_eq_true _ _).mp h
  rw [eq_ofNat_of_byte? hs hle hlt hb (toNat_lt_of_isBlank hblank)]
  simp only [isBlank, Bool.or_eq_true, beq_iff_eq] at hblank
  rcases hblank with ((rfl | rfl) | rfl) | rfl <;> decide

theorem isSpaceChar_of_byte? (hs : source.toList = before ++ c :: after)
    (hle : utf8Len before ≤ i) (hlt : i < utf8Len before + c.utf8Size)
    (h : (byte? source i).any isSpace = true) : isSpaceChar c = true := by
  obtain ⟨b, hb, hspace⟩ := (Option.any_eq_true _ _).mp h
  rw [isSpace, Bool.or_eq_true] at hspace
  rcases hspace with hblank | hbreak
  · rw [isSpaceChar, isBlankChar_of_byte? hs hle hlt (by rw [hb]; exact hblank)]
    rfl
  · rw [eq_ofNat_of_byte? hs hle hlt hb (toNat_lt_of_isLineBreak hbreak)]
    simp only [isLineBreak, Bool.or_eq_true, beq_iff_eq] at hbreak
    rcases hbreak with rfl | rfl <;> decide

theorem any_isBlank_of_char (hs : source.toList = before ++ c :: after)
    (hc : isBlankChar c = true) : (byte? source (utf8Len before)).any isBlank = true := by
  simp only [isBlankChar, Bool.or_eq_true, beq_iff_eq] at hc
  rcases hc with ((rfl | rfl) | rfl) | rfl <;> rw [byte?_of_toNat_lt hs (by decide)] <;> rfl

theorem utf8Size_of_blank (hc : isBlankChar c = true) : c.utf8Size = 1 := by
  simp only [isBlankChar, Bool.or_eq_true, beq_iff_eq] at hc
  rcases hc with ((rfl | rfl) | rfl) | rfl <;> rfl

theorem blankRun_of_chars (hs : source.toList = before ++ part ++ after)
    (hpart : ∀ c ∈ part, isBlankChar c = true) :
    BlankRun source (utf8Len before) (utf8Len before + utf8Len part) := by
  induction part generalizing before with
  | nil =>
      intro i hle hlt
      rw [String.utf8Len_nil] at hlt
      omega
  | cons c part ih =>
      have hc := hpart c List.mem_cons_self
      have hsize := utf8Size_of_blank hc
      have hlen : utf8Len (before ++ [c]) = utf8Len before + 1 := by simp [hsize]
      have hs' : source.toList = before ++ c :: (part ++ after) := by rw [hs]; simp
      have hs'' : source.toList = (before ++ [c]) ++ part ++ after := by rw [hs]; simp
      have hrest := ih hs'' fun d hd => hpart d (List.mem_cons_of_mem _ hd)
      rw [hlen] at hrest
      intro i hle hlt
      rw [String.utf8Len_cons] at hlt
      rcases Nat.eq_or_lt_of_le hle with rfl | hgt
      · exact any_isBlank_of_char hs' hc
      · exact hrest i hgt (by omega)

theorem blank_of_mem_run (hs : source.toList = before ++ (part ++ after))
    (hrun : BlankRun source (utf8Len before) (utf8Len before + utf8Len part)) (hc : c ∈ part) :
    isBlankChar c = true := by
  obtain ⟨front, behind, rfl⟩ := List.append_of_mem hc
  have hpos := c.utf8Size_pos
  have hlen : utf8Len (before ++ front) = utf8Len before + utf8Len front :=
    String.utf8Len_append ..
  have hs' : source.toList = (before ++ front) ++ c :: (behind ++ after) := by rw [hs]; simp
  rw [String.utf8Len_append, String.utf8Len_cons] at hrun
  exact isBlankChar_of_byte? hs' (Nat.le_refl _) (by omega) (hrun _ (by omega) (by omega))

end JsPrune.Text
