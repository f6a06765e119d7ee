import JsPrune.Text.Bytes
import Mathlib.Data.String.Basic
import Mathlib.Tactic.ByContra
/-!
# Bytes and characters

The bytes of a text are those of its characters, one after the other.  An offset is a boundary
exactly when it is the length of some first characters, and the bytes below 0x80 are the characters
of that number.
-/

namespace JsPrune.Text

open String (utf8Len utf8EncodeChar)

def encode (cs : List Char) : List UInt8 := cs.flatMap utf8EncodeChar

def bytes (s : String) : List UInt8 := encode s.toList

@[simp] theorem encode_nil : encode [] = [] := rfl

@[simp] theorem encode_cons (c : Char) (cs : List Char) :
    encode (c :: cs) = utf8EncodeChar c ++ encode cs := rfl

@[simp] theorem encode_append (cs ds : List Char) : encode (cs ++ ds) = encode cs ++ encode ds :=
  List.flatMap_append

@[simp] theorem length_encode (cs : List Char) : (encode cs).length = utf8Len cs := by
  induction cs with
  | nil => rfl
  | cons c cs ih =>
      rw [encode_cons, List.length_append, String.length_utf8EncodeChar, ih, String.utf8Len_cons]
      omega

@[simp] theorem length_bytes (s : String) : (bytes s).length = s.utf8ByteSize := by
  rw [bytes, length_encode, String.utf8Len_toList]

theorem bytes_eq_data (s : String) : bytes s = s.toByteArray.data.toList := by
  rw [← String.utf8Encode_toList, List.utf8Encode, List.data_toByteArray, bytes, encode]

theorem byte?_eq (s : String) (i : Nat) : byte? s i = (bytes s)[i]? := by
  unfold byte?
  split
  · rename_i h
    rw [List.getElem?_eq_getElem (by simpa using h), Option.some_inj]
    simp only [bytes_eq_data]
    rfl
  · rename_i h
    exact (List.getElem?_eq_none (by simpa using h)).symm

theorem byte?_eq_none_iff {s : String} {i : Nat} : byte? s i = none ↔ s.utf8ByteSize ≤ i := by
  rw [byte?_eq, List.getElem?_eq_none_iff, length_bytes]

theorem lt_size_of_byte? {s : String} {i : Nat} {b : UInt8} (h : byte? s i = some b) :
    i < s.utf8ByteSize := by
  by_contra hge
  rw [byte?_eq_none_iff.mpr (by omega)] at h
  exact absurd h (by simp)

theorem byte?_add {s : String} {before part after : List Char}
    (hs : s.toList = before ++ part ++ after) {k : Nat} (hk : k < utf8Len part) :
    byte? s (utf8Len before + k) = (encode part)[k]? := by
  rw [byte?_eq, bytes, hs, List.append_assoc, encode_append, encode_append,
    List.getElem?_append_right (by simp), length_encode, Nat.add_sub_cancel_left,
    List.getElem?_append_left (by simpa using hk)]

/-! ## ASCII -/

/-- A byte below 0x80 is a character of its own. -/
theorem toNat_eq_of_mem_utf8EncodeChar {c : Char} {b : UInt8} (hb : b ∈ utf8EncodeChar c)
    (hlt : b.toNat < 0x80) : c.toNat = b.toNat := by
  change c.val.toNat = b.toNat
  unfold String.utf8EncodeChar at hb
  dsimp only at hb
  generalize c.val.toNat = v at hb ⊢
  -- Every byte of a longer form is at least 0x80.
  split_ifs at hb <;> simp only [List.mem_cons, List.not_mem_nil, or_false] at hb <;>
    rcases hb with rfl | rfl | rfl | rfl <;> simp only [UInt8.toNat_ofNat'] at hlt ⊢ <;> omega

theorem utf8EncodeChar_of_lt {c : Char} (h : c.toNat < 0x80) :
    utf8EncodeChar c = [UInt8.ofNat c.toNat] := by
  unfold String.utf8EncodeChar
  rw [if_pos (by have hc : c.toNat = c.val.toNat := rfl; omega)]
  rfl

/-! ## Boundaries -/

theorem isBoundary_iff {s : String} {i : Nat} :
    isBoundary s i = true ↔ ∃ before after, s.toList = before ++ after ∧ utf8Len before = i := by
  unfold isBoundary
  rw [String.Pos.Raw.isValid_eq_true_iff, String.Pos.Raw.isValid_iff_exists_append]
  constructor
  · rintro ⟨s₁, s₂, rfl, hi⟩
    refine ⟨s₁.toList, s₂.toList, String.toList_append, ?_⟩
    rw [String.utf8Len_toList]
    exact (congrArg String.Pos.Raw.byteIdx hi).symm
  · rintro ⟨before, after, hs, rfl⟩
    refine ⟨String.ofList before, String.ofList after, ?_, ?_⟩
    · rw [← String.ofList_append, ← hs, String.ofList_toList]
    · rw [String.rawEndPos_ofList]

theorem isBoundary_utf8Len {s : String} {before after : List Char}
    (hs : s.toList = before ++ after) : isBoundary s (utf8Len before) = true :=
  isBoundary_iff.mpr ⟨before, after, hs, rfl⟩

theorem isBoundary_zero (s : String) : isBoundary s 0 = true :=
  isBoundary_iff.mpr ⟨[], s.toList, rfl, rfl⟩

theorem le_size_of_isBoundary {s : String} {i : Nat} (h : isBoundary s i = true) :
    i ≤ s.utf8ByteSize := by
  obtain ⟨before, after, hs, rfl⟩ := isBoundary_iff.mp h
  rw [← String.utf8Len_toList, hs, String.utf8Len_append]
  omega

theorem exists_char_of_lt {s : String} {i : Nat} (hi : i < s.utf8ByteSize) :
    ∃ before c after, s.toList = before ++ c :: after ∧
      utf8Len before ≤ i ∧ i < utf8Len before + c.utf8Size := by
  rw [← String.utf8Len_toList] at hi
  generalize s.toList = cs at hi ⊢
  induction cs generalizing i with
  | nil => simp at hi
  | cons c cs ih =>
      rw [String.utf8Len_cons] at hi
      by_cases hlt : i < c.utf8Size
      · exact ⟨[], c, cs, rfl, Nat.zero_le _, by simpa using hlt⟩
      · obtain ⟨before, d, after, hcs, hle, hgt⟩ := ih (i := i - c.utf8Size) (by omega)
        refine ⟨c :: before, d, after, by rw [hcs, List.cons_append], ?_, ?_⟩ <;>
          rw [String.utf8Len_cons] <;> omega

theorem mem_utf8EncodeChar_of_byte? {s : String} {before after : List Char} {c : Char} {i : Nat}
    {b : UInt8} (hs : s.toList = before ++ c :: after) (hle : utf8Len before ≤ i)
    (hlt : i < utf8Len before + c.utf8Size) (hb : byte? s i = some b) : b ∈ utf8EncodeChar c := by
  have hpart : s.toList = before ++ [c] ++ after := by rw [hs, List.append_assoc]; rfl
  have hbyte := byte?_add hpart (k := i - utf8Len before) (by simp; omega)
  rw [Nat.add_sub_cancel' hle, hb] at hbyte
  have hmem := List.mem_of_getElem? hbyte.symm
  simpa using hmem

theorem byte?_of_toNat_lt {s : String} {before after : List Char} {c : Char}
    (hs : s.toList = before ++ c :: after) (hc : c.toNat < 0x80) :
    byte? s (utf8Len before) = some (UInt8.ofNat c.toNat) := by
  have hpos := c.utf8Size_pos
  have hpart : s.toList = before ++ [c] ++ after := by rw [hs, List.append_assoc]; rfl
  have hbyte := byte?_add hpart (k := 0) (by simpa using hpos)
  rw [Nat.add_zero, encode_cons, utf8EncodeChar_of_lt hc] at hbyte
  exact hbyte

theorem utf8Size_of_toNat_lt {c : Char} (h : c.toNat < 0x80) : c.utf8Size = 1 := by
  rw [← String.length_utf8EncodeChar, utf8EncodeChar_of_lt h, List.length_singleton]

theorem exists_char_of_byte?_lt {s : String} {i : Nat} {b : UInt8} (hb : byte? s i = some b)
    (hlt : b.toNat < 0x80) :
    ∃ before c after, s.toList = before ++ c :: after ∧ utf8Len before = i ∧
      c.toNat = b.toNat := by
  obtain ⟨before, c, after, hs, hle, hgt⟩ := exists_char_of_lt (lt_size_of_byte? hb)
  have hc := toNat_eq_of_mem_utf8EncodeChar (mem_utf8EncodeChar_of_byte? hs hle hgt hb) hlt
  have hsize := utf8Size_of_toNat_lt (c := c) (by omega)
  exact ⟨before, c, after, hs, by omega, hc⟩

theorem isBoundary_of_byte?_lt {s : String} {i : Nat} {b : UInt8} (hb : byte? s i = some b)
    (hlt : b.toNat < 0x80) : isBoundary s i = true := by
  obtain ⟨before, c, after, hs, rfl, -⟩ := exists_char_of_byte?_lt hb hlt
  exact isBoundary_utf8Len hs

theorem isBoundary_succ_of_byte?_lt {s : String} {i : Nat} {b : UInt8} (hb : byte? s i = some b)
    (hlt : b.toNat < 0x80) : isBoundary s (i + 1) = true := by
  obtain ⟨before, c, after, hs, rfl, hc⟩ := exists_char_of_byte?_lt hb hlt
  have hsize := utf8Size_of_toNat_lt (c := c) (by omega)
  refine isBoundary_iff.mpr ⟨before ++ [c], after, by rw [hs, List.append_assoc]; rfl, ?_⟩
  rw [String.utf8Len_append, String.utf8Len_cons, hsize]
  simp

/-- Of two first parts of some characters the shorter one is the first part of the longer one. -/
theorem exists_append_of_utf8Len_le {front before rest after : List Char}
    (h : front ++ rest = before ++ after) (hle : utf8Len front ≤ utf8Len before) :
    ∃ part, before = front ++ part ∧ rest = part ++ after := by
  rcases List.append_eq_append_iff.mp h with ⟨part, hbefore, hrest⟩ | ⟨part, hfront, hafter⟩
  · exact ⟨part, hbefore, hrest⟩
  · -- The first one can only be the longer one where the two are the same.
    rw [hfront, String.utf8Len_append] at hle
    obtain rfl : part = [] := String.utf8Len_eq_zero.mp (by omega)
    exact ⟨[], by rw [hfront, List.append_nil, List.append_nil], hafter.symm⟩

theorem exists_split {s : String} {before rest : List Char} {i : Nat}
    (hs : s.toList = before ++ rest) (hi : isBoundary s i = true) (hle : utf8Len before ≤ i) :
    ∃ part after, rest = part ++ after ∧ utf8Len before + utf8Len part = i := by
  obtain ⟨front, after, hs', rfl⟩ := isBoundary_iff.mp hi
  obtain ⟨part, rfl, hrest⟩ := exists_append_of_utf8Len_le (hs.symm.trans hs') hle
  exact ⟨part, after, hrest, by rw [String.utf8Len_append]⟩

theorem mem_of_offset {before part after front behind : List Char} {c : Char}
    (hs : before ++ part ++ after = front ++ c :: behind) (hle : utf8Len before ≤ utf8Len front)
    (hlt : utf8Len front < utf8Len before + utf8Len part) : c ∈ part := by
  induction before generalizing front with
  | nil =>
      rw [List.nil_append] at hs
      rw [String.utf8Len_nil, Nat.zero_add] at hlt
      rcases List.append_eq_append_iff.mp hs with ⟨more, hfront, -⟩ | ⟨more, hpart, hrest⟩
      · rw [hfront, String.utf8Len_append] at hlt
        omega
      · cases more with
        | nil =>
            rw [hpart, List.append_nil] at hlt
            omega
        | cons d more =>
            rw [hpart, (List.cons.inj hrest).1]
            simp
  | cons d before ih =>
      have hpos := d.utf8Size_pos
      rw [String.utf8Len_cons] at hle hlt
      cases front with
      | nil =>
          rw [String.utf8Len_nil] at hle
          omega
      | cons e front =>
          obtain ⟨rfl, htail⟩ := List.cons.inj hs
          rw [String.utf8Len_cons] at hle hlt
          exact ih htail (by omega) (by omega)

theorem slice_eq {s : String} {before part after : List Char}
    (hs : s.toList = before ++ part ++ after) :
    slice s (utf8Len before) (utf8Len before + utf8Len part) = String.ofList part := by
  unfold slice
  rw [← String.ofList_toList (s := s), hs]
  exact String.extract_of_valid before part after

theorem isBoundary_size (s : String) : isBoundary s s.utf8ByteSize = true :=
  isBoundary_iff.mpr ⟨s.toList, [], by simp, String.utf8Len_toList s⟩

theorem size_slice {s : String} {start stop : Nat} (hstart : isBoundary s start = true)
    (hstop : isBoundary s stop = true) (hle : start ≤ stop) :
    start + (slice s start stop).utf8ByteSize = stop := by
  obtain ⟨before, rest, hs, rfl⟩ := isBoundary_iff.mp hstart
  obtain ⟨part, after, rfl, rfl⟩ := exists_split hs hstop hle
  rw [← List.append_assoc] at hs
  rw [slice_eq hs, ← String.utf8Len_toList, String.toList_ofList]

end JsPrune.Text
