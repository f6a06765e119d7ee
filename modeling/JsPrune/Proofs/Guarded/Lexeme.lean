import JsPrune.Proofs.Comment.Lexeme
import JsPrune.Proofs.Text.Utf8
import JsPrune.Padding
/-!
# Lexemes by their bytes

How many bytes a lexeme has can be told from the bytes that are left, without a look at characters.
Behind a backslash such a count goes on inside a character; but no byte of a longer character ends
anything, so the count stops where the split of the characters does.
-/

namespace JsPrune.Guarded

open Text
open String (utf8Len utf8EncodeChar)
open Scanner (splitWhile splitLine splitString splitTemplate splitRegex push isWordPart)

def ascii (c : Char) : UInt8 := UInt8.ofNat c.toNat

/-! ## Counts -/

def lineLength : List UInt8 → Nat
  | [] => 0
  | b :: bs =>
    if isLineBreak b ||
        (b == 0xE2 && bs[0]? == some 0x80 && (bs[1]? == some 0xA8 || bs[1]? == some 0xA9)) then 0
    else 1 + lineLength bs

def wordLength (bs : List UInt8) : Nat := (bs.takeWhile Padding.isIdentifierByte).length

def stringLength (quote : UInt8) : List UInt8 → Nat
  | [] => 0
  | 0x5C :: 0x0D :: 0x0A :: bs => 3 + stringLength quote bs
  | 0x5C :: _ :: bs => 2 + stringLength quote bs
  | b :: bs =>
    if isLineBreak b then 0
    else if b == quote then 1
    else 1 + stringLength quote bs

def templateLength : List UInt8 → Nat × Bool
  | [] => (0, false)
  | 0x5C :: _ :: bs => (2 + (templateLength bs).1, (templateLength bs).2)
  | 0x60 :: _ => (1, false)
  | 0x24 :: 0x7B :: _ => (2, true)
  | _ :: bs => (1 + (templateLength bs).1, (templateLength bs).2)

def regexLength (inClass : Bool) : List UInt8 → Nat
  | [] => 0
  | 0x5C :: _ :: bs => 2 + regexLength inClass bs
  | b :: bs =>
    if isLineBreak b then 0
    else if b == ascii '[' then 1 + regexLength true bs
    else if b == ascii ']' then 1 + regexLength false bs
    else if b == ascii '/' && !inClass then 1 + wordLength bs
    else 1 + regexLength inClass bs

/-! ## The bytes of a character -/

def isHigh (b : UInt8) : Bool := decide (0x80 ≤ b.toNat)

theorem ne_of_isHigh {b d : UInt8} (hb : isHigh b = true) (hd : d.toNat < 0x80) : b ≠ d := by
  rintro rfl
  have := of_decide_eq_true hb
  omega

theorem isHigh_of_mem {c : Char} (hc : 0x80 ≤ c.toNat) {b : UInt8} (hb : b ∈ utf8EncodeChar c) :
    isHigh b = true := by
  by_contra hlow
  have := toNat_eq_of_mem_utf8EncodeChar hb (by simpa [isHigh] using hlow)
  simp only [isHigh, decide_eq_true_eq] at hlow
  omega

/-- A character is one byte, or a byte beyond ASCII and more of them. -/
theorem encode_cons_cases (c : Char) (cs : List Char) :
    (c.toNat < 0x80 ∧ c.utf8Size = 1 ∧ encode (c :: cs) = ascii c :: encode cs) ∨
    (0x80 ≤ c.toNat ∧ ∃ lead more, encode (c :: cs) = lead :: (more ++ encode cs) ∧
      c.utf8Size = 1 + more.length ∧ isHigh lead = true ∧ ∀ b ∈ more, isHigh b = true) := by
  rcases Nat.lt_or_ge c.toNat 0x80 with hlow | hhigh
  · refine Or.inl ⟨hlow, utf8Size_of_toNat_lt hlow, ?_⟩
    rw [encode_cons, utf8EncodeChar_of_lt hlow, List.singleton_append, ascii]
  · refine Or.inr ⟨hhigh, ?_⟩
    have hmem : ∀ b ∈ utf8EncodeChar c, isHigh b = true := fun b => isHigh_of_mem hhigh
    have hlength := String.length_utf8EncodeChar c
    rw [encode_cons]
    cases henc : utf8EncodeChar c with
    | nil =>
        rw [henc, List.length_nil] at hlength
        have := c.utf8Size_pos
        omega
    | cons lead more =>
        rw [henc] at hmem hlength
        refine ⟨lead, more, rfl, ?_, hmem lead List.mem_cons_self, fun b hb => ?_⟩
        · rw [← hlength, List.length_cons, Nat.add_comm]
        · exact hmem b (List.mem_cons_of_mem _ hb)

theorem toNat_ascii {c : Char} (hc : c.toNat < 0x80) : (ascii c).toNat = c.toNat := by
  rw [ascii, UInt8.toNat_ofNat']
  omega

theorem ascii_inj {c d : Char} (hc : c.toNat < 0x80) (hd : d.toNat < 0x80) :
    ascii c = ascii d ↔ c = d := by
  constructor
  · intro h
    have hnat := congrArg UInt8.toNat h
    rw [toNat_ascii hc, toNat_ascii hd] at hnat
    exact Char.ext (UInt32.toNat_inj.mp hnat)
  · rintro rfl
    rfl

theorem head?_encode_eq_iff {cs : List Char} {d : Char} (hd : d.toNat < 0x80) :
    (encode cs).head? = some (ascii d) ↔ cs.head? = some d := by
  cases cs with
  | nil => simp
  | cons c cs =>
      rcases encode_cons_cases c cs with ⟨hc, -, henc⟩ | ⟨hc, lead, more, henc, -, hlead, -⟩
      · rw [henc, List.head?_cons, List.head?_cons, Option.some_inj, Option.some_inj,
          ascii_inj hc hd]
      · rw [henc, List.head?_cons, List.head?_cons, Option.some_inj, Option.some_inj]
        constructor
        · exact fun h => absurd h (ne_of_isHigh hlead (by rwa [toNat_ascii hd]))
        · rintro rfl
          omega

theorem isLineBreak_of_isHigh {b : UInt8} (hb : isHigh b = true) : isLineBreak b = false := by
  simp [isLineBreak, ne_of_isHigh hb]

theorem count_append {count : List UInt8 → Nat} {p : UInt8 → Prop}
    (hcount : ∀ b bs, p b → count (b :: bs) = 1 + count bs) {more : List UInt8}
    (hmore : ∀ b ∈ more, p b) (bs : List UInt8) :
    count (more ++ bs) = more.length + count bs := by
  induction more with
  | nil => simp
  | cons b more ih =>
      rw [List.cons_append, hcount b _ (hmore b List.mem_cons_self),
        ih fun d hd => hmore d (List.mem_cons_of_mem _ hd), List.length_cons]
      omega

theorem utf8Len_escape (c : Char) : utf8Len ['\\', c] = 1 + c.utf8Size := by
  have hslash : ('\\' : Char).utf8Size = 1 := rfl
  simp [hslash, Nat.add_comm]

/-! ## Strings -/

theorem stringLength_plain {quote b : UInt8} (hescape : b ≠ 0x5C) (hbreak : isLineBreak b = false)
    (hquote : b ≠ quote) (bs : List UInt8) :
    stringLength quote (b :: bs) = 1 + stringLength quote bs := by
  rw [stringLength.eq_4 _ _ _ (fun _ h => absurd h hescape) (fun _ _ h => absurd h hescape),
    if_neg (by rw [hbreak]; simp), if_neg (by simpa using hquote)]

theorem stringLength_high {quote : UInt8} (hquote : quote.toNat < 0x80) {more : List UInt8}
    (hmore : ∀ b ∈ more, isHigh b = true) (bs : List UInt8) :
    stringLength quote (more ++ bs) = more.length + stringLength quote bs := by
  refine count_append (fun b bs hb => ?_) hmore bs
  exact stringLength_plain (ne_of_isHigh hb (by decide)) (isLineBreak_of_isHigh hb)
    (ne_of_isHigh hb hquote) bs

theorem isLineBreak_ascii {c : Char} (hc : c.toNat < 0x80) :
    isLineBreak (ascii c) = (c == '\n' || c == '\r') := by
  rw [Bool.eq_iff_iff]
  simp only [isLineBreak, Bool.or_eq_true, beq_iff_eq]
  exact or_congr (ascii_inj hc (d := '\n') (by decide))
    (ascii_inj hc (d := '\r') (by decide))

theorem stringLength_char {quote c : Char} (hquote : quote.toNat < 0x80) (hescape : c ≠ '\\')
    (hbreak : (c == '\n' || c == '\r') = false) (hne : c ≠ quote) (cs : List Char) :
    stringLength (ascii quote) (encode (c :: cs)) =
      c.utf8Size + stringLength (ascii quote) (encode cs) := by
  rcases encode_cons_cases c cs with ⟨hc, hsize, henc⟩ | ⟨-, lead, more, henc, hsize, hlead, hmore⟩
  · rw [henc, hsize, stringLength_plain (mt (ascii_inj hc (d := '\\') (by decide)).mp hescape)
      (by rw [isLineBreak_ascii hc, hbreak]) (mt (ascii_inj hc hquote).mp hne)]
  · have hquote' : (ascii quote).toNat < 0x80 := by rwa [toNat_ascii hquote]
    rw [henc, ← List.cons_append, stringLength_high hquote' (by simpa using ⟨hlead, hmore⟩), hsize,
      List.length_cons]
    omega

theorem stringLength_encode {quote : Char} (hquote : quote = '\'' ∨ quote = '"') (cs : List Char) :
    stringLength (ascii quote) (encode cs) = utf8Len (splitString quote cs).1 := by
  have hlow : quote.toNat < 0x80 := by rcases hquote with rfl | rfl <;> decide
  fun_induction splitString quote cs with
  | case1 => rfl
  | case2 cs ih =>
      have henc : encode ('\\' :: '\r' :: '\n' :: cs) = 0x5C :: 0x0D :: 0x0A :: encode cs := rfl
      rw [henc, stringLength, ih, push, String.utf8Len_append]
      rfl
  | case3 c cs hpair ih =>
      have henc : encode ('\\' :: c :: cs) = 0x5C :: encode (c :: cs) := rfl
      rw [henc, push, String.utf8Len_append, utf8Len_escape, ← ih]
      rcases encode_cons_cases c cs with ⟨hc, hsize, henc⟩ | ⟨-, lead, more, henc, hsize, hlead, hmore⟩
      · have hpair' : ∀ bs, ascii c = 0x0D → encode cs = 0x0A :: bs → False := by
          intro bs hreturn hfeed
          have hr : c = '\r' := (ascii_inj hc (d := '\r') (by decide)).mp hreturn
          have hf : cs.head? = some '\n' := (head?_encode_eq_iff (d := '\n') (by decide)).mp (by
            rw [hfeed]
            rfl)
          cases cs with
          | nil => exact absurd hf (by simp)
          | cons d cs => exact hpair cs hr (by rw [Option.some.inj hf])
        rw [henc, hsize, stringLength.eq_3 _ _ _ hpair']
      · rw [henc, hsize, stringLength.eq_3 _ _ _ fun _ h => absurd h (ne_of_isHigh hlead (by decide)),
          stringLength_high (by rwa [toNat_ascii hlow]) hmore]
        omega
  | case4 c cs _ _ hbreak =>
      rw [Bool.or_eq_true, beq_iff_eq, beq_iff_eq] at hbreak
      rcases hbreak with rfl | rfl <;> rfl
  | case5 c cs _ _ _ hend =>
      obtain rfl : c = quote := by simpa using hend
      rcases hquote with rfl | rfl <;> rfl
  | case6 c cs _ hescape hbreak hne ih =>
      rw [push, String.utf8Len_append, ← ih]
      by_cases hslash : c = '\\'
      · subst hslash
        cases cs with
        | nil => rcases hquote with rfl | rfl <;> rfl
        | cons d cs => exact (hescape d cs rfl rfl).elim
      · rw [stringLength_char hlow hslash (Bool.eq_false_iff.mpr hbreak) (by simpa using hne)]
        simp

/-! ## Templates -/

theorem templateLength_plain {b : UInt8} {bs : List UInt8} (hescape : b ≠ 0x5C) (hend : b ≠ 0x60)
    (hopen : ¬ (b = 0x24 ∧ bs.head? = some 0x7B)) :
    templateLength (b :: bs) = (1 + (templateLength bs).1, (templateLength bs).2) :=
  templateLength.eq_5 _ _ (fun _ _ h => absurd h hescape) (fun h => absurd h hend)
    (fun _ hb hbs => hopen ⟨hb, by rw [hbs]; rfl⟩)

theorem templateLength_high {more : List UInt8} (hmore : ∀ b ∈ more, isHigh b = true)
    (bs : List UInt8) :
    templateLength (more ++ bs) = (more.length + (templateLength bs).1, (templateLength bs).2) := by
  induction more with
  | nil => simp
  | cons b more ih =>
      have hb := hmore b List.mem_cons_self
      rw [List.cons_append, templateLength_plain (ne_of_isHigh hb (by decide))
        (ne_of_isHigh hb (by decide)) (fun h => ne_of_isHigh hb (by decide) h.1),
        ih fun d hd => hmore d (List.mem_cons_of_mem _ hd), List.length_cons]
      simp only [Prod.mk.injEq, and_true]
      omega

theorem templateLength_encode (cs : List Char) :
    templateLength (encode cs) = (utf8Len (splitTemplate cs).1.1, (splitTemplate cs).2) := by
  fun_induction splitTemplate cs with
  | case1 => rfl
  | case2 c cs split opens hsplit ih =>
      rw [hsplit] at ih
      have henc : encode ('\\' :: c :: cs) = 0x5C :: encode (c :: cs) := rfl
      rw [henc, push, String.utf8Len_append, utf8Len_escape]
      rcases encode_cons_cases c cs with ⟨-, hsize, henc⟩ | ⟨-, lead, more, henc, hsize, -, hmore⟩
      · rw [henc, hsize, templateLength, ih]
      · rw [henc, hsize, templateLength, templateLength_high hmore, ih]
        simp only [Prod.mk.injEq, and_true]
        omega
  | case3 cs => rfl
  | case4 cs => rfl
  | case5 c cs hescape hend hopen split opens hsplit ih =>
      rw [hsplit] at ih
      rw [push, String.utf8Len_append]
      by_cases hslash : c = '\\'
      · subst hslash
        cases cs with
        | nil =>
            obtain ⟨rfl, rfl⟩ := Prod.mk.inj hsplit
            rfl
        | cons d cs => exact (hescape d cs rfl rfl).elim
      rcases encode_cons_cases c cs with ⟨hc, hsize, henc⟩ | ⟨-, lead, more, henc, hsize, hlead, hmore⟩
      · have hopen' : ¬ (ascii c = 0x24 ∧ (encode cs).head? = some 0x7B) := by
          rintro ⟨hdollar, hbrace⟩
          have hd : c = '$' := (ascii_inj hc (d := '$') (by decide)).mp hdollar
          have hb : cs.head? = some '{' := (head?_encode_eq_iff (d := '{') (by decide)).mp hbrace
          cases cs with
          | nil => exact absurd hb (by simp)
          | cons d cs => exact hopen cs hd (by rw [Option.some.inj hb])
        rw [henc, templateLength_plain (mt (ascii_inj hc (d := '\\') (by decide)).mp hslash)
          (mt (ascii_inj hc (d := '\x60') (by decide)).mp fun h => hend h) hopen', ih]
        simp [String.utf8Len_cons, hsize]
      · rw [henc, ← List.cons_append, templateLength_high (by simpa using ⟨hlead, hmore⟩), ih]
        simp [String.utf8Len_cons, hsize, Nat.add_comm]

/-! ## Words -/

theorem isIdentifierByte_ascii {c : Char} (hc : c.toNat < 0x80) :
    Padding.isIdentifierByte (ascii c) = isWordPart c := by
  have hall : ∀ n < 0x80, Padding.isIdentifierByte (UInt8.ofNat n) = isWordPart (Char.ofNat n) := by
    decide
  rw [ascii, hall c.toNat hc, Char.ofNat_toNat]

theorem isIdentifierByte_of_isHigh {b : UInt8} (hb : isHigh b = true) :
    Padding.isIdentifierByte b = true := by
  have : (0x80 : UInt8) ≤ b := UInt8.le_iff_toNat_le.mpr (of_decide_eq_true hb)
  simp [Padding.isIdentifierByte, this]

theorem takeWhile_encode (cs : List Char) :
    (encode cs).takeWhile Padding.isIdentifierByte = encode (splitWhile isWordPart cs).1 := by
  induction cs with
  | nil => rfl
  | cons c cs ih =>
      rw [splitWhile]
      rcases Nat.lt_or_ge c.toNat 0x80 with hc | hc
      · rw [encode_cons, utf8EncodeChar_of_lt hc, List.singleton_append, List.takeWhile_cons, ← ascii,
          isIdentifierByte_ascii hc, ih]
        split
        · rw [push, encode_append, encode_cons, utf8EncodeChar_of_lt hc]
          rfl
        · rfl
      · have hword : isWordPart c = true := by simp [isWordPart, hc]
        rw [if_pos hword, encode_cons, List.takeWhile_append_of_pos fun b hb =>
          isIdentifierByte_of_isHigh (isHigh_of_mem hc hb), ih, push, encode_append]
        simp

theorem wordLength_encode (cs : List Char) :
    wordLength (encode cs) = utf8Len (splitWhile isWordPart cs).1 := by
  rw [wordLength, takeWhile_encode, length_encode]

/-! ## Regular expressions -/

theorem regexLength_plain {inClass : Bool} {b : UInt8} (hescape : b ≠ 0x5C)
    (hbreak : isLineBreak b = false) (hopen : b ≠ ascii '[') (hclose : b ≠ ascii ']')
    (hend : b = ascii '/' → inClass = true) (bs : List UInt8) :
    regexLength inClass (b :: bs) = 1 + regexLength inClass bs := by
  rw [regexLength.eq_3 _ _ _ (fun _ _ h => absurd h hescape), if_neg (by rw [hbreak]; simp),
    if_neg (by simpa using hopen), if_neg (by simpa using hclose), if_neg (by simpa using hend)]

theorem regexLength_high {inClass : Bool} {more : List UInt8}
    (hmore : ∀ b ∈ more, isHigh b = true) (bs : List UInt8) :
    regexLength inClass (more ++ bs) = more.length + regexLength inClass bs := by
  refine count_append (fun b bs hb => ?_) hmore bs
  exact regexLength_plain (ne_of_isHigh hb (by decide)) (isLineBreak_of_isHigh hb)
    (ne_of_isHigh hb (by decide)) (ne_of_isHigh hb (by decide))
    (fun h => absurd h (ne_of_isHigh hb (by decide))) bs

theorem regexLength_encode (inClass : Bool) (cs : List Char) :
    regexLength inClass (encode cs) = utf8Len (splitRegex inClass cs).1 := by
  fun_induction splitRegex inClass cs with
  | case1 => rfl
  | case2 inClass c cs ih =>
      have henc : encode ('\\' :: c :: cs) = 0x5C :: encode (c :: cs) := rfl
      rw [henc, push, String.utf8Len_append, utf8Len_escape, ← ih]
      rcases encode_cons_cases c cs with ⟨-, hsize, henc⟩ | ⟨-, lead, more, henc, hsize, -, hmore⟩
      · rw [henc, hsize, regexLength]
      · rw [henc, hsize, regexLength, regexLength_high hmore]
        omega
  | case3 inClass c cs hescape hbreak =>
      rw [Bool.or_eq_true, beq_iff_eq, beq_iff_eq] at hbreak
      rcases hbreak with rfl | rfl <;> rfl
  | case4 inClass c cs hescape hbreak hopen ih =>
      obtain rfl : c = '[' := by simpa using hopen
      rw [push, String.utf8Len_append, ← ih]
      rfl
  | case5 inClass c cs hescape hbreak hopen hclose ih =>
      obtain rfl : c = ']' := by simpa using hclose
      rw [push, String.utf8Len_append, ← ih]
      rfl
  | case6 inClass c cs hescape hbreak hopen hclose hend =>
      rw [Bool.and_eq_true, beq_iff_eq, Bool.not_eq_true'] at hend
      obtain ⟨rfl, rfl⟩ := hend
      rw [push, String.utf8Len_append, ← wordLength_encode]
      rfl
  | case7 inClass c cs hescape hbreak hopen hclose hend ih =>
      rw [push, String.utf8Len_append, ← ih]
      by_cases hslash : c = '\\'
      · subst hslash
        cases cs with
        | nil => cases inClass <;> rfl
        | cons d cs => exact (hescape d cs rfl rfl).elim
      rw [beq_iff_eq] at hopen hclose
      rw [Bool.and_eq_true, beq_iff_eq, Bool.not_eq_true', not_and, Bool.not_eq_false] at hend
      rcases encode_cons_cases c cs with ⟨hc, hsize, henc⟩ | ⟨-, lead, more, henc, hsize, hlead, hmore⟩
      · rw [henc, regexLength_plain (mt (ascii_inj hc (d := '\\') (by decide)).mp hslash)
          (by rw [isLineBreak_ascii hc]; exact Bool.eq_false_iff.mpr hbreak)
          (mt (ascii_inj hc (d := '[') (by decide)).mp hopen)
          (mt (ascii_inj hc (d := ']') (by decide)).mp hclose)
          fun h => hend ((ascii_inj hc (d := '/') (by decide)).mp h)]
        simp [hsize]
      · rw [henc, ← List.cons_append, regexLength_high (by simpa using ⟨hlead, hmore⟩)]
        simp [hsize, Nat.add_comm]

/-! ## Lines -/

/-- The bytes of a character beyond ASCII behind the first one are below 0xC0, and where the first one
is 0xE2 they tell which character it is. -/
theorem utf8EncodeChar_cases {c : Char} (hc : 0x80 ≤ c.toNat) :
    ∃ lead more, utf8EncodeChar c = lead :: more ∧ (∀ b ∈ more, b.toNat < 0xC0) ∧
      (lead = 0xE2 → ∃ b d, more = [b, d] ∧
        c.toNat = 0x2000 + (b.toNat - 0x80) * 0x40 + (d.toNat - 0x80)) := by
  change 0x80 ≤ c.val.toNat at hc
  change ∃ lead more, utf8EncodeChar c = lead :: more ∧ _ ∧
    (lead = 0xE2 → ∃ b d, more = [b, d] ∧ c.val.toNat = _)
  unfold String.utf8EncodeChar
  dsimp only
  generalize c.val.toNat = v at *
  split_ifs with hone htwo hthree
  · omega
  all_goals
    refine ⟨_, _, rfl, ?_, fun hlead => ?_⟩
    · simp only [List.mem_cons, List.not_mem_nil, or_false, forall_eq_or_imp, forall_eq,
        UInt8.toNat_ofNat']
      omega
    · have hnat := congrArg UInt8.toNat hlead
      simp only [UInt8.toNat_ofNat', UInt8.toNat_ofNat] at hnat
      first
        | omega
        | refine ⟨_, _, rfl, ?_⟩
          simp only [UInt8.toNat_ofNat']
          omega

theorem lineLength_plain {b : UInt8} {bs : List UInt8} (hbreak : isLineBreak b = false)
    (hseparator : ¬ (b = 0xE2 ∧ bs[0]? = some 0x80 ∧ (bs[1]? = some 0xA8 ∨ bs[1]? = some 0xA9))) :
    lineLength (b :: bs) = 1 + lineLength bs := by
  rw [lineLength, hbreak, Bool.false_or, if_neg]
  simpa only [Bool.and_eq_true, Bool.or_eq_true, beq_iff_eq, and_assoc] using hseparator

/-- No separator starts behind the first byte of a character. -/
theorem lineLength_more {more : List UInt8}
    (hmore : ∀ b ∈ more, isHigh b = true ∧ b.toNat < 0xC0) (bs : List UInt8) :
    lineLength (more ++ bs) = more.length + lineLength bs := by
  refine count_append (fun b bs hb => lineLength_plain (isLineBreak_of_isHigh hb.1) ?_) hmore bs
  rintro ⟨rfl, -⟩
  exact absurd hb.2 (by decide)

theorem lineLength_char {c : Char} (hc : isLineTerminator c = false) (cs : List Char) :
    lineLength (encode (c :: cs)) = c.utf8Size + lineLength (encode cs) := by
  simp only [isLineTerminator, Bool.or_eq_false_iff, beq_eq_false_iff_ne] at hc
  obtain ⟨⟨⟨hfeed, hreturn⟩, hline⟩, hparagraph⟩ := hc
  rcases Nat.lt_or_ge c.toNat 0x80 with hlow | hhigh
  · rw [encode_cons, utf8EncodeChar_of_lt hlow, List.singleton_append, utf8Size_of_toNat_lt hlow]
    refine lineLength_plain ?_ ?_
    · rw [← ascii, isLineBreak_ascii hlow]
      simp [hfeed, hreturn]
    · rintro ⟨hlead, -⟩
      have hnat := congrArg UInt8.toNat hlead
      simp only [UInt8.toNat_ofNat', UInt8.toNat_ofNat] at hnat
      omega
  · obtain ⟨lead, more, henc, hlater, hseparator⟩ := utf8EncodeChar_cases hhigh
    have hmem : ∀ b ∈ lead :: more, isHigh b = true := fun b hb => isHigh_of_mem hhigh (henc ▸ hb)
    rw [encode_cons, ← String.length_utf8EncodeChar, henc, List.cons_append, List.length_cons]
    rw [lineLength_plain (isLineBreak_of_isHigh (hmem lead List.mem_cons_self)),
      lineLength_more fun b hb => ⟨hmem b (List.mem_cons_of_mem _ hb), hlater b hb⟩]
    · omega
    · -- The three bytes would be those of a separator.
      rintro ⟨hlead, hsecond, hthird⟩
      obtain ⟨b, d, rfl, hval⟩ := hseparator hlead
      obtain rfl : b = 0x80 := by simpa using hsecond
      rcases hthird with h | h
      · obtain rfl : d = 0xA8 := by simpa using h
        exact hline (Char.ext (UInt32.toNat_inj.mp hval))
      · obtain rfl : d = 0xA9 := by simpa using h
        exact hparagraph (Char.ext (UInt32.toNat_inj.mp hval))

theorem lineLength_encode (cs : List Char) :
    lineLength (encode cs) = utf8Len (splitLine cs).1 := by
  induction cs with
  | nil => rfl
  | cons c cs ih =>
      rw [splitLine, splitWhile]
      cases hc : isLineTerminator c with
      | true =>
          simp only [isLineTerminator, Bool.or_eq_true, beq_iff_eq] at hc
          rcases hc with ((rfl | rfl) | rfl) | rfl <;> rfl
      | false =>
          rw [lineLength_char hc, ih, splitLine]
          simp [push, Nat.add_comm]

end JsPrune.Guarded
