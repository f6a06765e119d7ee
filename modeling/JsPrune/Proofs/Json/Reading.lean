import JsPrune.Json.Quoted
import JsPrune.Json.Reader
import Mathlib.Tactic.SplitIfs
/-!
# Reading what was written

A character is written as itself or behind a backslash, and either way the reader takes it back in one
step.  So a string between its quotes is read back whatever characters it holds and whatever comes
after it, and objects are read member by member.
-/

namespace JsPrune.Json

open Quoted (escape hexDigit)

namespace Reader

/-! ## One character -/

theorem hexValue?_hexDigit : ∀ d, d < 16 → hexValue? (hexDigit d) = some d := by
  decide

theorem codeUnit_digits {a b c d : Nat} (ha : a < 16) (hb : b < 16) (hc : c < 16) (hd : d < 16)
    (cs : List Char) :
    codeUnit (hexDigit a :: hexDigit b :: hexDigit c :: hexDigit d :: cs) =
      .ok (((a * 16 + b) * 16 + c) * 16 + d, cs) := by
  rw [codeUnit, hexValue?_hexDigit a ha, hexValue?_hexDigit b hb, hexValue?_hexDigit c hc,
    hexValue?_hexDigit d hd]

theorem escaped_control {c : Char} (hc : c.toNat < 0x20) (cs : List Char) :
    escaped ('u' :: '0' :: '0' :: hexDigit (c.toNat / 16) :: hexDigit (c.toNat % 16) :: cs) =
      .ok (c, cs) := by
  have hzero : '0' = hexDigit 0 := rfl
  have hunit := codeUnit_digits (a := 0) (b := 0) (c := c.toNat / 16) (d := c.toNat % 16)
    (by decide) (by decide) (by omega) (by omega) cs
  have hnumber : ((0 * 16 + 0) * 16 + c.toNat / 16) * 16 + c.toNat % 16 = c.toNat := by omega
  rw [hnumber] at hunit
  have hread : escaped ('u' :: '0' :: '0' :: hexDigit (c.toNat / 16) ::
      hexDigit (c.toNat % 16) :: cs) = escapedUnits (hexDigit 0 :: hexDigit 0 ::
        hexDigit (c.toNat / 16) :: hexDigit (c.toNat % 16) :: cs) := rfl
  rw [hread, escapedUnits, hunit]
  dsimp only [bind, Except.bind]
  rw [if_neg (by omega), if_neg (by omega), Char.ofNat_toNat]

/-- A character is written as itself, or so that the reader takes it back behind the backslash. -/
theorem escape_cases (c : Char) :
    (escape c = [c] ∧ c ≠ '"' ∧ c ≠ '\\' ∧ ¬ c.toNat < 0x20) ∨
      ∃ code, escape c = '\\' :: code ∧ ∀ cs, escaped (code ++ cs) = .ok (c, cs) := by
  unfold escape
  simp only [beq_iff_eq]
  split_ifs with hquote hbackslash hb ht hn hf hr hcontrol
  · exact Or.inr ⟨_, rfl, fun cs => by rw [hquote]; rfl⟩
  · exact Or.inr ⟨_, rfl, fun cs => by rw [hbackslash]; rfl⟩
  · exact Or.inr ⟨_, rfl, fun cs => by rw [hb]; rfl⟩
  · exact Or.inr ⟨_, rfl, fun cs => by rw [ht]; rfl⟩
  · exact Or.inr ⟨_, rfl, fun cs => by rw [hn]; rfl⟩
  · exact Or.inr ⟨_, rfl, fun cs => by rw [hf]; rfl⟩
  · exact Or.inr ⟨_, rfl, fun cs => by rw [hr]; rfl⟩
  · exact Or.inr ⟨_, rfl, escaped_control hcontrol⟩
  · exact Or.inl ⟨rfl, hquote, hbackslash, hcontrol⟩

theorem characters_escape (n : Nat) (c : Char) (cs : List Char) :
    characters (n + 1) (escape c ++ cs) =
      (characters n cs).map fun (later, rest) => (c :: later, rest) := by
  rcases escape_cases c with ⟨hself, hquote, hbackslash, hcontrol⟩ | ⟨code, hcode, hread⟩
  · rw [hself, List.singleton_append, characters, if_neg (by simpa using hquote), if_neg hcontrol,
      if_neg (by simpa using hbackslash)]
    cases hlater : characters n cs <;> simp [bind, Except.bind, hlater, Except.map]
  · rw [hcode, List.cons_append, characters, if_neg (by decide), if_neg (by decide),
      if_pos (by decide), hread]
    cases hlater : characters n cs <;> simp [bind, Except.bind, hlater, Except.map]

/-! ## Strings -/

theorem characters_quoted {n : Nat} {chars : List Char} (hn : chars.length < n)
    (rest : List Char) :
    characters n (chars.flatMap escape ++ '"' :: rest) = .ok (chars, rest) := by
  induction chars generalizing n with
  | nil =>
      obtain ⟨n, rfl⟩ := Nat.exists_eq_add_of_lt hn
      rfl
  | cons c chars ih =>
      rw [List.length_cons] at hn
      obtain ⟨n, rfl⟩ : ∃ m, n = m + 1 := ⟨n - 1, by omega⟩
      rw [List.flatMap_cons, List.append_assoc, characters_escape, ih (by omega)]
      rfl

theorem escape_ne_nil (c : Char) : escape c ≠ [] := by
  rcases escape_cases c with ⟨hself, -⟩ | ⟨code, hcode, -⟩
  · rw [hself]
    exact List.cons_ne_nil c []
  · rw [hcode]
    exact List.cons_ne_nil _ code

theorem length_le_length_escape (chars : List Char) :
    chars.length ≤ (chars.flatMap escape).length := by
  induction chars with
  | nil => exact Nat.le_refl 0
  | cons c chars ih =>
      have hpos := List.length_pos_iff.mpr (escape_ne_nil c)
      rw [List.flatMap_cons, List.length_append, List.length_cons]
      omega

theorem string_quoted (s : String) (rest : List Char) :
    string (s.toList.flatMap escape ++ '"' :: rest) = .ok (s, rest) := by
  have hlength := length_le_length_escape s.toList
  rw [string, characters_quoted (by rw [List.length_append]; omega)]
  simp [Except.map]

end Reader

def quoted (s : String) (rest : List Char) : List Char :=
  '"' :: (s.toList.flatMap escape ++ '"' :: rest)

theorem toList_encode_append (s : String) (rest : List Char) :
    (Quoted.encode s).toList ++ rest = quoted s rest := by
  simp [Quoted.encode, quoted]

namespace Reader

@[simp] theorem skipSpace_quoted (s : String) (rest : List Char) :
    skipSpace (quoted s rest) = quoted s rest := rfl

theorem valueOver_quoted (inner : Option (Reader Json)) (s : String) (rest : List Char) :
    valueOver inner (quoted s rest) = .ok (.string s, rest) := by
  have hstring : valueOver inner (quoted s rest) =
      (string (s.toList.flatMap escape ++ '"' :: rest)).map
        fun taken => (.string taken.1, taken.2) := rfl
  rw [hstring, string_quoted]
  rfl

/-! ## Arrays and objects -/

section

variable {value : Reader Json} {content : Json} {name : String} {text rest : List Char}

theorem array_quoted {s : String}
    (h : value (quoted s (']' :: rest)) = .ok (content, ']' :: rest)) :
    array value (quoted s (']' :: rest)) = .ok (.array [content], rest) := by
  have harray : array value (quoted s (']' :: rest)) =
      (value (quoted s (']' :: rest))).bind fun first =>
        (furtherItems value (first.2.length + 1) first.2).bind fun later =>
          .ok (.array (first.1 :: later.1), later.2) := rfl
  rw [harray, h]
  rfl

theorem member_quoted (h : value (skipSpace text) = .ok (content, rest)) :
    member value (quoted name (':' :: text)) = .ok ((name, content), rest) := by
  have hcolon : skipSpace (':' :: text) = ':' :: text := rfl
  rw [quoted, member, string_quoted]
  simp only [bind, Except.bind, hcolon, h]

theorem furtherMembers_quoted {n : Nat} {members : List (String × Json)}
    (h : value (skipSpace text) = .ok (content, rest)) :
    furtherMembers value (n + 1) members (',' :: quoted name (':' :: text)) =
      furtherMembers value n (setMember name content members) rest := by
  have hcomma : skipSpace (',' :: quoted name (':' :: text)) = ',' :: quoted name (':' :: text) :=
    rfl
  rw [furtherMembers, hcomma]
  simp only [bind, Except.bind, skipSpace_quoted, member_quoted h]

theorem object_quoted {members : List (String × Json)} {left : List Char}
    (h : value (skipSpace text) = .ok (content, rest))
    (hrest : furtherMembers value (rest.length + 1) [(name, content)] rest = .ok (members, left)) :
    object value (quoted name (':' :: text)) = .ok (.object members, left) := by
  have hobject : object value (quoted name (':' :: text)) =
      (member value (quoted name (':' :: text))).bind fun first =>
        (furtherMembers value (first.2.length + 1) [first.1] first.2).bind fun all =>
          .ok (.object all.1, all.2) := rfl
  rw [hobject, member_quoted h]
  dsimp only [Except.bind]
  rw [hrest]

end

end Reader

end JsPrune.Json
