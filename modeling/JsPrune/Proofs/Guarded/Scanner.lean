import JsPrune.Proofs.Guarded.Lexeme
import JsPrune.Proofs.Guarded.Padding
import JsPrune.Proofs.Comment.Scan
/-!
# Scanning bytes

The scanner goes from byte to byte and asks for a part of the text only where a comment stands.  Every
lexeme stops where one of the characters does, so it is asked for at boundaries, and the comments are
those that the scan of the characters finds.
-/

namespace JsPrune.Guarded

open Text
open String (utf8Len utf8EncodeChar)
open Scanner (State Move isWordPart isSpace expressionKeywords lexeme push)

/-! ## Steps -/

/-- Where the scanner goes on, what it remembers there, and the comment that it took. -/
structure Advance where
  offset : Nat
  next : State
  comment : Option Comment
  deriving DecidableEq, Repr

variable (source : String)

def skip (offset : Nat) (next : State) : Option Advance := some ⟨offset, next, none⟩

def lineComment (st : State) (offset : Nat) (left : List UInt8) : Option Advance := do
  let stop := offset + lineLength left
  let text ← slice? source offset stop
  some ⟨stop, st, some ⟨⟨offset, stop⟩, .line, text, true⟩⟩

def blockComment (st : State) (offset : Nat) : Option Advance := do
  let behind ← slice? source (offset + 2) source.utf8ByteSize
  let (found, terminated) := Scanner.splitBlock behind.toList
  let stop := if terminated then offset + 2 + utf8Len found.1 else source.utf8ByteSize
  let text ← slice? source offset stop
  some ⟨stop, st, some ⟨⟨offset, stop⟩, .block, text, terminated⟩⟩

def template (st : State) (offset : Nat) (left : List UInt8) : Option Advance :=
  let (length, opens) := templateLength left
  let next := st.after opens
  skip (offset + length) (if opens then { next with templates := st.depth :: st.templates } else next)

def closeBrace (st : State) (offset : Nat) (bs : List UInt8) : Option Advance :=
  if st.templates.head? == some st.depth then
    template { st with templates := st.templates.tail } (offset + 1) bs
  else skip (offset + 1) { st.after true with depth := st.depth - 1 }

def word (st : State) (offset : Nat) (left : List UInt8) : Option Advance :=
  let name := left.takeWhile Padding.isIdentifierByte
  skip (offset + name.length)
    (st.after (!st.afterDot && expressionKeywords.any fun keyword => bytes keyword == name))

def isDigit (b : UInt8) : Bool := ascii '0' ≤ b && b ≤ ascii '9'

def isWhitespace (b : UInt8) : Bool :=
  b == ascii ' ' || b == ascii '\t' || b == ascii '\n' || b == ascii '\x0c' || b == ascii '\r'

def slash (st : State) (offset : Nat) (b : UInt8) (bs : List UInt8) : Option Advance :=
  if bs.head? == some (ascii '/') then lineComment source st offset (b :: bs)
  else if bs.head? == some (ascii '*') then blockComment source st offset
  else if st.regexAllowed then skip (offset + 1 + regexLength false bs) (st.after false)
  else if bs.head? == some (ascii '=') then skip (offset + 2) (st.after true)
  else skip (offset + 1) (st.after true)

def step (st : State) (offset : Nat) (b : UInt8) (bs : List UInt8) : Option Advance :=
  if b == ascii '/' then slash source st offset b bs
  else if b == ascii '\'' || b == ascii '"' then skip (offset + 1 + stringLength b bs) (st.after false)
  else if b == ascii '\x60' then template st (offset + 1) bs
  else if b == ascii '{' then skip (offset + 1) { st.after true with depth := st.depth + 1 }
  else if b == ascii '}' then closeBrace st offset bs
  else if b == ascii ')' || b == ascii ']' then skip (offset + 1) (st.after false)
  else if b == ascii '.' then
    if bs.head?.any isDigit then skip (offset + 1 + wordLength bs) (st.after false)
    else skip (offset + 1) { st with regexAllowed := true, afterDot := true }
  else if (b == ascii '+' || b == ascii '-') && bs.head? == some b then skip (offset + 2) st
  else if isDigit b then skip (offset + wordLength (b :: bs)) (st.after false)
  else if Padding.isIdentifierByte b then word st offset (b :: bs)
  else if isWhitespace b then skip (offset + 1) st
  else if b == ascii '?' && bs.head? == some (ascii '.') then
    skip (offset + 2) { st with regexAllowed := true, afterDot := true }
  else skip (offset + 1) (st.after true)

/-! ## Scans -/

def scanFrom : Nat → Nat → State → Option (List Comment)
  | 0, _, _ => some []
  | n + 1, offset, st =>
    match (bytes source).drop offset with
    | [] => some []
    | b :: bs => do
      let advance ← step source st offset b bs
      let later ← scanFrom n advance.offset advance.next
      some (advance.comment.toList ++ later)

def comments : Option (List Comment) :=
  let start := if (bytes source).take 2 == [ascii '#', ascii '!'] then lineLength (bytes source) else 0
  scanFrom source source.utf8ByteSize start .initial

/-! ## The step of the characters -/

/-- A move of the characters from `offset` on, told by its bytes. -/
def ofMove (move : Move) (offset : Nat) : Advance :=
  ⟨offset + utf8Len move.taken, move.next, (move.found offset).head?⟩

variable {source : String} {before after : List Char} {st : State}

theorem skip_eq {stop offset : Nat} {split : List Char × List Char} {next : State}
    (h : stop = offset + utf8Len split.1) :
    skip stop next = some (ofMove (lexeme split next) offset) := by
  rw [h]
  rfl

theorem lineComment_eq {cs : List Char} (hs : source.toList = before ++ '/' :: '/' :: cs) :
    lineComment source st (utf8Len before) (encode ('/' :: '/' :: cs)) =
      some (ofMove (Scanner.slash st ('/' :: cs)) (utf8Len before)) := by
  have hmove : Scanner.slash st ('/' :: cs) =
      ⟨'/' :: '/' :: (Scanner.splitLine cs).1, (Scanner.splitLine cs).2, st, some (.line, true)⟩ := rfl
  have hlength : lineLength (encode ('/' :: '/' :: cs)) =
      utf8Len ('/' :: '/' :: (Scanner.splitLine cs).1) := lineLength_encode _
  have hpart : '/' :: '/' :: cs =
      '/' :: '/' :: (Scanner.splitLine cs).1 ++ (Scanner.splitLine cs).2 := by
    simp only [List.cons_append, Scanner.splitLine, Scanner.splitWhile_append]
  rw [hpart] at hs
  simp only [lineComment, hlength, slice?_part hs, Option.bind_eq_bind, Option.bind_some, hmove]
  rfl

theorem blockComment_eq {cs : List Char} (hs : source.toList = before ++ '/' :: '*' :: cs) :
    blockComment source st (utf8Len before) =
      some (ofMove (Scanner.slash st ('*' :: cs)) (utf8Len before)) := by
  have hopening : utf8Len (before ++ ['/', '*']) = utf8Len before + 2 := by
    rw [String.utf8Len_append]
    rfl
  have hsize : source.utf8ByteSize = utf8Len before + 2 + utf8Len cs := by
    rw [← String.utf8Len_toList, hs, ← hopening, ← String.utf8Len_append]
    simp
  have hbehind : slice? source (utf8Len before + 2) source.utf8ByteSize = some (String.ofList cs) := by
    rw [hsize, ← hopening]
    have hall : source.toList = (before ++ ['/', '*']) ++ (cs ++ []) := by simpa using hs
    exact slice?_part hall
  have hpart : '/' :: '*' :: cs =
      '/' :: '*' :: (Scanner.splitBlock cs).1.1 ++ (Scanner.splitBlock cs).1.2 := by
    simp only [List.cons_append, Scanner.splitBlock_append]
  have hlength : utf8Len ('/' :: '*' :: (Scanner.splitBlock cs).1.1) =
      2 + utf8Len (Scanner.splitBlock cs).1.1 := by
    rw [← Nat.add_comm]
    rfl
  have hstop : (if (Scanner.splitBlock cs).2 then
        utf8Len before + 2 + utf8Len (Scanner.splitBlock cs).1.1 else source.utf8ByteSize) =
      utf8Len before + utf8Len ('/' :: '*' :: (Scanner.splitBlock cs).1.1) := by
    rw [hlength, ← Nat.add_assoc]
    cases hclosed : (Scanner.splitBlock cs).2 with
    | true => rfl
    | false =>
        have hnil := Scanner.splitBlock_open cs hclosed
        have hall := Scanner.splitBlock_append cs
        rw [hnil, List.append_nil] at hall
        rw [if_neg (by simp), hsize, hall]
  have hmove : Scanner.slash st ('*' :: cs) = ⟨'/' :: '*' :: (Scanner.splitBlock cs).1.1,
      (Scanner.splitBlock cs).1.2, st, some (.block, (Scanner.splitBlock cs).2)⟩ := rfl
  rw [hpart] at hs
  simp only [blockComment, hbehind, Option.bind_eq_bind, Option.bind_some, String.toList_ofList,
    hstop, slice?_part hs, hmove]
  rfl

theorem head?_encode_beq (cs : List Char) {d : Char} (hd : d.toNat < 0x80) :
    ((encode cs).head? == some (ascii d)) = (cs.head? == some d) := by
  rw [Bool.eq_iff_iff, beq_iff_eq, beq_iff_eq, head?_encode_eq_iff hd]

theorem slash_eq {cs : List Char} (hs : source.toList = before ++ '/' :: cs) :
    slash source st (utf8Len before) (ascii '/') (encode cs) =
      some (ofMove (Scanner.slash st cs) (utf8Len before)) := by
  simp only [slash, head?_encode_beq cs (d := '/') (by decide),
    head?_encode_beq cs (d := '*') (by decide), head?_encode_beq cs (d := '=') (by decide),
    beq_iff_eq]
  by_cases hline : cs.head? = some '/'
  · rw [if_pos hline]
    rw [Scanner.eq_cons_tail_of_head? hline] at hs ⊢
    exact lineComment_eq hs
  rw [if_neg hline]
  by_cases hblock : cs.head? = some '*'
  · rw [if_pos hblock]
    rw [Scanner.eq_cons_tail_of_head? hblock] at hs ⊢
    exact blockComment_eq hs
  rw [if_neg hblock]
  cases hst : st.regexAllowed with
  | true =>
      rw [Scanner.slash_regex hst hline hblock, if_pos rfl]
      refine skip_eq ?_
      rw [regexLength_encode, push, String.utf8Len_append, Nat.add_assoc]
      rfl
  | false =>
      rw [if_neg (by simp)]
      by_cases hassign : cs.head? = some '='
      · rw [if_pos hassign, Scanner.eq_cons_tail_of_head? hassign, Scanner.slash_assign hst]
        exact skip_eq rfl
      · rw [if_neg hassign, Scanner.slash_divide hst hline hblock hassign]
        exact skip_eq rfl

theorem template_eq (opener : Char) (hopener : opener.utf8Size = 1) (offset : Nat)
    (cs : List Char) :
    template st (offset + 1) (encode cs) = some (ofMove (Scanner.template st opener cs) offset) := by
  simp only [template, templateLength_encode, Scanner.template]
  refine skip_eq ?_
  rw [push, String.utf8Len_append, Nat.add_assoc, String.utf8Len_cons, hopener]
  rfl

theorem closeBrace_eq (offset : Nat) (cs : List Char) :
    closeBrace st offset (encode cs) = some (ofMove (Scanner.closeBrace st cs) offset) := by
  unfold closeBrace Scanner.closeBrace
  cases htemplates : st.templates with
  | nil => exact skip_eq rfl
  | cons d outer =>
      by_cases hd : (d == st.depth) = true
      · rw [if_pos (by simpa using hd)]
        simp only [hd, if_true]
        exact template_eq '}' rfl offset cs
      · rw [if_neg (by simpa using hd)]
        simp only [hd, Bool.false_eq_true, if_false]
        exact skip_eq rfl

theorem encode_inj {cs ds : List Char} : encode cs = encode ds ↔ cs = ds := by
  constructor
  · intro h
    have hbytes : bytes (String.ofList cs) = bytes (String.ofList ds) := by
      simpa only [bytes, String.toList_ofList] using h
    rw [bytes_eq_data, bytes_eq_data, Array.toList_inj] at hbytes
    exact String.ofList_injective (String.toByteArray_inj.mp (ByteArray.ext hbytes))
  · rintro rfl
    rfl

theorem word_eq (offset : Nat) (cs : List Char) :
    word st offset (encode cs) = some (ofMove (Scanner.word st cs) offset) := by
  have hkeyword : (expressionKeywords.any fun keyword =>
        bytes keyword == encode (Scanner.splitWhile isWordPart cs).1) =
      expressionKeywords.contains (String.ofList (Scanner.splitWhile isWordPart cs).1) := by
    rw [List.contains_eq_any_beq]
    congr 1
    funext keyword
    rw [Bool.eq_iff_iff, beq_iff_eq, beq_iff_eq, bytes, encode_inj, ← String.toList_inj,
      String.toList_ofList, eq_comm]
  simp only [word, Scanner.word, takeWhile_encode, hkeyword]
  exact skip_eq (by rw [length_encode])

theorem isDigit_ascii {c : Char} (hc : c.toNat < 0x80) : isDigit (ascii c) = c.isDigit := by
  have hall : ∀ n < 0x80, isDigit (UInt8.ofNat n) = (Char.ofNat n).isDigit := by decide
  rw [ascii, hall c.toNat hc, Char.ofNat_toNat]

theorem isWhitespace_ascii {c : Char} (hc : c.toNat < 0x80) : isWhitespace (ascii c) = isSpace c := by
  have hall : ∀ n < 0x80, isWhitespace (UInt8.ofNat n) = isSpace (Char.ofNat n) := by decide
  rw [ascii, hall c.toNat hc, Char.ofNat_toNat]

theorem ascii_beq {c d : Char} (hc : c.toNat < 0x80) (hd : d.toNat < 0x80) :
    (ascii c == ascii d) = (c == d) := by
  rw [Bool.eq_iff_iff, beq_iff_eq, beq_iff_eq, ascii_inj hc hd]

theorem isDigit_of_isHigh {b : UInt8} (hb : isHigh b = true) : isDigit b = false := by
  have hnine : ¬ b ≤ ascii '9' := by
    rw [UInt8.le_iff_toNat_le]
    have := of_decide_eq_true hb
    have : (ascii '9').toNat = 0x39 := rfl
    omega
  rw [isDigit, decide_eq_false hnine, Bool.and_false]

theorem head?_any_isDigit (cs : List Char) :
    (encode cs).head?.any isDigit = cs.head?.any Char.isDigit := by
  cases cs with
  | nil => rfl
  | cons c cs =>
      rcases encode_cons_cases c cs with ⟨hc, -, henc⟩ | ⟨hc, lead, more, henc, -, hlead, -⟩
      · rw [henc]
        exact isDigit_ascii hc
      · rw [henc, List.head?_cons, List.head?_cons, Option.any_some, Option.any_some,
          isDigit_of_isHigh hlead, Scanner.isDigit_of_high hc]

theorem step_high {c : Char} {cs : List Char} {lead : UInt8} {more : List UInt8}
    (hc : 0x80 ≤ c.toNat) (hlead : isHigh lead = true) (henc : encode (c :: cs) = lead :: more)
    (offset : Nat) :
    step source st offset lead more = some (ofMove (Scanner.step st c cs) offset) := by
  have htest : ∀ d : Char, d.toNat < 0x80 → (lead == ascii d) = false := fun d hd =>
    beq_eq_false_iff_ne.mpr (ne_of_isHigh hlead (by rwa [toNat_ascii hd]))
  have hword : isWordPart c = true := by simp [isWordPart, hc]
  rw [Scanner.step_run hword, if_neg (by rw [Scanner.isDigit_of_high hc]; simp), ← word_eq, henc]
  simp (disch := decide) [step, htest, isDigit_of_isHigh hlead, isIdentifierByte_of_isHigh hlead]

theorem step_ascii {c : Char} {cs : List Char} (hs : source.toList = before ++ c :: cs)
    (hc : c.toNat < 0x80) (henc : encode (c :: cs) = ascii c :: encode cs) :
    step source st (utf8Len before) (ascii c) (encode cs) =
      some (ofMove (Scanner.step st c cs) (utf8Len before)) := by
  have hsize := utf8Size_of_toNat_lt hc
  have htest : ∀ d : Char, d.toNat < 0x80 → (ascii c == ascii d) = (c == d) :=
    fun d hd => ascii_beq hc hd
  unfold step Scanner.step
  rw [htest '/' (by decide), htest '\'' (by decide), htest '"' (by decide),
    htest '\x60' (by decide), htest '{' (by decide), htest '}' (by decide), htest ')' (by decide),
    htest ']' (by decide), htest '.' (by decide), htest '+' (by decide), htest '-' (by decide),
    htest '?' (by decide), head?_encode_beq cs hc, head?_encode_beq cs (d := '.') (by decide),
    head?_any_isDigit, isDigit_ascii hc, isIdentifierByte_ascii hc, isWhitespace_ascii hc]
  by_cases hslash : (c == '/') = true
  · obtain rfl := beq_iff_eq.mp hslash
    rw [if_pos hslash, if_pos hslash]
    exact slash_eq hs
  rw [if_neg hslash, if_neg hslash]
  by_cases hstring : (c == '\'' || c == '"') = true
  · rw [if_pos hstring, if_pos hstring, stringLength_encode (by simpa using hstring)]
    exact skip_eq (by rw [push, String.utf8Len_append]; simp [hsize, Nat.add_assoc])
  rw [if_neg hstring, if_neg hstring]
  by_cases hbacktick : (c == '\x60') = true
  · rw [if_pos hbacktick, if_pos hbacktick]
    exact template_eq c hsize _ cs
  rw [if_neg hbacktick, if_neg hbacktick]
  by_cases hopen : (c == '{') = true
  · rw [if_pos hopen, if_pos hopen]
    exact skip_eq (by simp [hsize])
  rw [if_neg hopen, if_neg hopen]
  by_cases hclose : (c == '}') = true
  · rw [if_pos hclose, if_pos hclose]
    exact closeBrace_eq _ cs
  rw [if_neg hclose, if_neg hclose]
  by_cases hcloser : (c == ')' || c == ']') = true
  · rw [if_pos hcloser, if_pos hcloser]
    exact skip_eq (by simp [hsize])
  rw [if_neg hcloser, if_neg hcloser]
  by_cases hdot : (c == '.') = true
  · rw [if_pos hdot, if_pos hdot, Scanner.dot]
    by_cases hfraction : cs.head?.any Char.isDigit = true
    · rw [if_pos hfraction, if_pos hfraction, wordLength_encode]
      exact skip_eq (by rw [push, String.utf8Len_append, Nat.add_assoc]; rfl)
    · rw [if_neg hfraction, if_neg hfraction]
      exact skip_eq rfl
  rw [if_neg hdot, if_neg hdot]
  by_cases hdouble : ((c == '+' || c == '-') && cs.head? == some c) = true
  · rw [if_pos hdouble, if_pos hdouble]
    exact skip_eq (by simp [hsize])
  rw [if_neg hdouble, if_neg hdouble]
  by_cases hdigit : c.isDigit = true
  · rw [if_pos hdigit, if_pos hdigit, ← henc, wordLength_encode]
    exact skip_eq rfl
  rw [if_neg hdigit, if_neg hdigit]
  by_cases hword : isWordPart c = true
  · rw [if_pos hword, if_pos hword, ← henc]
    exact word_eq _ _
  rw [if_neg hword, if_neg hword]
  by_cases hspace : isSpace c = true
  · rw [if_pos hspace, if_pos hspace]
    exact skip_eq (by simp [hsize])
  rw [if_neg hspace, if_neg hspace]
  by_cases hoptional : (c == '?' && cs.head? == some '.') = true
  · rw [if_pos hoptional, if_pos hoptional]
    exact skip_eq (by simp [hsize]; rfl)
  rw [if_neg hoptional, if_neg hoptional]
  exact skip_eq (by simp [hsize])

theorem step_eq (st : State) {c : Char} {cs : List Char} (hs : source.toList = before ++ c :: cs) :
    ∃ b bs, encode (c :: cs) = b :: bs ∧
      step source st (utf8Len before) b bs =
        some (ofMove (Scanner.step st c cs) (utf8Len before)) := by
  rcases encode_cons_cases c cs with ⟨hc, -, henc⟩ | ⟨hc, lead, more, henc, -, hlead, -⟩
  · exact ⟨_, _, henc, step_ascii hs hc henc⟩
  · exact ⟨_, _, henc, step_high hc hlead henc _⟩

/-! ## The scan of the characters -/

theorem drop_bytes {cs : List Char} (hs : source.toList = before ++ cs) :
    (bytes source).drop (utf8Len before) = encode cs := by
  rw [bytes, hs, encode_append, ← length_encode, List.drop_left]

/-- From a boundary on, and with a bound that suffices, the scan of the bytes asks for nothing that
cannot be had. -/
theorem scanFrom_eq {n : Nat} {cs : List Char} (hs : source.toList = before ++ cs)
    (hn : utf8Len cs ≤ n) :
    scanFrom source n (utf8Len before) st = some (Scanner.scan (utf8Len before) st cs) := by
  induction n generalizing before cs st with
  | zero =>
      rw [String.utf8Len_eq_zero.mp (Nat.le_zero.mp hn)]
      rfl
  | succ n ih =>
      rw [scanFrom, drop_bytes hs]
      cases cs with
      | nil => rfl
      | cons c cs =>
          obtain ⟨b, bs, henc, hstep⟩ := step_eq st hs
          obtain ⟨taken, htaken⟩ := Scanner.exists_taken_step st c cs
          have hchars := Scanner.chars_step st c cs
          rw [Scanner.scan_cons, Move.scan]
          generalize Scanner.step st c cs = move at hstep htaken hchars ⊢
          have hs' : source.toList = before ++ move.taken ++ move.rest := by
            rw [hs, ← hchars, Move.chars, List.append_assoc]
          have hrest : utf8Len move.rest ≤ n := by
            have hlength := congrArg utf8Len hchars
            have hpos := c.utf8Size_pos
            rw [Move.chars, htaken, String.utf8Len_append, String.utf8Len_cons] at hlength
            omega
          have hlater : scanFrom source n (utf8Len (before ++ move.taken)) move.next =
              some (Scanner.scan (utf8Len (before ++ move.taken)) move.next move.rest) := ih hs' hrest
          rw [String.utf8Len_append] at hlater
          have hfound : (ofMove move (utf8Len before)).comment.toList = move.found (utf8Len before) := by
            rw [ofMove, Move.found]
            cases move.comment <;> rfl
          simp only [henc, hstep, Option.bind_eq_bind, Option.bind_some, hfound]
          rw [ofMove, hlater, Option.bind_some]

theorem take_two_encode {d e : Char} (hd : d.toNat < 0x80) (he : e.toNat < 0x80) (cs : List Char) :
    (encode cs).take 2 = [ascii d, ascii e] ↔ ∃ rest, cs = d :: e :: rest := by
  constructor
  · intro h
    have hbytes := List.take_append_drop 2 (encode cs)
    rw [h] at hbytes
    have hfirst : cs.head? = some d := (head?_encode_eq_iff hd).mp (by rw [← hbytes]; rfl)
    rw [Scanner.eq_cons_tail_of_head? hfirst, encode_cons d, utf8EncodeChar_of_lt hd,
      List.singleton_append] at hbytes
    have hsecond : cs.tail.head? = some e :=
      (head?_encode_eq_iff he).mp (by rw [← (List.cons.inj hbytes).2]; rfl)
    exact ⟨cs.tail.tail, by
      rw [← Scanner.eq_cons_tail_of_head? hsecond, ← Scanner.eq_cons_tail_of_head? hfirst]⟩
  · rintro ⟨rest, rfl⟩
    rw [encode_cons, encode_cons, utf8EncodeChar_of_lt hd, utf8EncodeChar_of_lt he]
    rfl

theorem length_hashbang (cs : List Char) :
    (if (encode cs).take 2 == [ascii '#', ascii '!'] then lineLength (encode cs) else 0) =
      utf8Len (Scanner.splitHashbang cs).1 := by
  by_cases h : ∃ rest, cs = '#' :: '!' :: rest
  · rw [if_pos (beq_iff_eq.mpr ((take_two_encode (by decide) (by decide) cs).mpr h))]
    obtain ⟨rest, rfl⟩ := h
    exact lineLength_encode _
  · rw [if_neg fun hbytes =>
      h ((take_two_encode (by decide) (by decide) cs).mp (beq_iff_eq.mp hbytes))]
    rw [Scanner.splitHashbang.eq_2 cs fun rest hcs => h ⟨rest, hcs⟩]
    rfl

/-- The scan of the bytes finds the comments of a text. -/
theorem comments_eq (source : String) : comments source = some (Comment.all source) := by
  have hsplit := Scanner.splitHashbang_append source.toList
  have hn : utf8Len (Scanner.splitHashbang source.toList).2 ≤ source.utf8ByteSize := by
    have hlength := congrArg utf8Len hsplit
    rw [String.utf8Len_append, String.utf8Len_toList] at hlength
    omega
  rw [comments, bytes, length_hashbang, scanFrom_eq hsplit.symm hn, Comment.all_eq_scan]

end JsPrune.Guarded
