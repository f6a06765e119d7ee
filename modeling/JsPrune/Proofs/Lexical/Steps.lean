import JsPrune.Proofs.Comment.WellFormed
import JsPrune.Proofs.Lexical.Grammar
/-!
# One step for each element

From the first character of a well formed element the scanner takes the element as a whole, or up to
the elements that it holds.
-/

namespace JsPrune.Scanner

open String (utf8Len)
open Lexical

/-! ## Splits -/

theorem splitLine_body {body rest : List Char} (hbody : body.all (fun c => !isLineTerminator c) = true)
    (hrest : rest.head?.all isLineTerminator = true) : splitLine (body ++ rest) = (body, rest) := by
  apply splitWhile_run hbody
  cases rest with
  | nil => rfl
  | cons c rest => simpa using hrest

theorem splitBlock_body {body rest : List Char} (hbody : ¬ ['*', '/'] <:+: body) :
    splitBlock (body ++ '*' :: '/' :: rest) = ((body ++ ['*', '/'], rest), true) := by
  induction body with
  | nil => rfl
  | cons c body ih =>
      have htail : ¬ ['*', '/'] <:+: body := fun h => hbody (List.infix_cons h)
      have hpair : ∀ cs, c = '*' → body ++ '*' :: '/' :: rest = '/' :: cs → False := by
        rintro cs rfl heq
        cases body with
        | nil => exact absurd (List.cons.inj heq).1 (by decide)
        | cons d body =>
            obtain rfl : d = '/' := (List.cons.inj heq).1
            exact hbody ⟨[], body, rfl⟩
      rw [List.cons_append, splitBlock.eq_3 _ _ hpair, ih htail]
      rfl

theorem splitString_body {quote : Char} {body rest : List Char} (hquote : quote = '\'' ∨ quote = '"')
    (hbody : isStringBody quote body = true) :
    splitString quote (body ++ quote :: rest) = (body ++ [quote], rest) := by
  fun_induction isStringBody quote body with
  | case1 =>
      rcases hquote with rfl | rfl <;> rfl
  | case2 cs ih =>
      simp only [List.cons_append, splitString]
      rw [ih hbody]
      rfl
  | case3 c cs hpair ih =>
      have hpair' : ∀ ds, c = '\r' → cs ++ quote :: rest = '\n' :: ds → False := by
        rintro ds rfl heq
        cases cs with
        | nil =>
            obtain rfl : quote = '\n' := (List.cons.inj heq).1
            simp at hquote
        | cons d cs =>
            obtain rfl : d = '\n' := (List.cons.inj heq).1
            exact hpair cs rfl rfl
      rw [List.cons_append, List.cons_append, splitString.eq_3 _ _ _ hpair', ih hbody]
      rfl
  | case4 c cs _ hescape ih =>
      simp only [Bool.and_eq_true, bne_iff_ne, ne_eq] at hbody
      obtain ⟨⟨⟨⟨hslash, hfeed⟩, hreturn⟩, hbare⟩, hcs⟩ := hbody
      rw [List.cons_append, splitString.eq_4 _ _ _ (fun _ h => absurd h hslash)
        (fun _ _ h => absurd h hslash), if_neg (by simp [hfeed, hreturn]), if_neg (by simpa using hbare),
        ih hcs]
      rfl

theorem splitTemplate_text {text rest : List Char} (htext : isTemplateText text = true)
    (hrest : rest.head? ≠ some '{') :
    splitTemplate (text ++ rest) = (push text (splitTemplate rest).1, (splitTemplate rest).2) := by
  fun_induction isTemplateText text with
  | case1 => rfl
  | case2 c cs ih =>
      rw [List.cons_append, List.cons_append, splitTemplate, ih htext]
      rfl
  | case3 => exact absurd htext (by simp)
  | case4 c cs hescape hopen ih =>
      simp only [Bool.and_eq_true, bne_iff_ne, ne_eq] at htext
      obtain ⟨⟨hslash, hbacktick⟩, hcs⟩ := htext
      have hopen' : ∀ ds, c = '$' → cs ++ rest = '{' :: ds → False := by
        rintro ds rfl heq
        cases cs with
        | nil =>
            rw [List.nil_append] at heq
            exact hrest (by rw [heq]; rfl)
        | cons d cs =>
            obtain rfl : d = '{' := (List.cons.inj heq).1
            exact hopen cs rfl rfl
      rw [List.cons_append, splitTemplate.eq_5 _ _ (fun _ _ h => absurd h hslash)
        (fun h => absurd h hbacktick) hopen', ih hcs]
      rfl

theorem splitRegex_plain {inClass : Bool} {c : Char} {cs : List Char} (hescape : c ≠ '\\')
    (hfeed : c ≠ '\n') (hreturn : c ≠ '\r') (hclose : (c != '/' || inClass) = true) :
    splitRegex inClass (c :: cs) =
      push [c] (splitRegex (c == '[' || inClass && c != ']') cs) := by
  rw [splitRegex.eq_3 _ _ _ (fun _ _ h => absurd h hescape), if_neg (by simp [hfeed, hreturn])]
  by_cases hopen : c = '['
  · subst hopen
    simp
  by_cases hend : c = ']'
  · subst hend
    simp
  have hslash : (c == '/' && !inClass) = false := by
    cases inClass with
    | false => simpa using hclose
    | true => rw [Bool.not_true, Bool.and_false]
  rw [beq_eq_false_iff_ne.mpr hopen, beq_eq_false_iff_ne.mpr hend, hslash, bne_iff_ne.mpr hend]
  simp

theorem splitRegex_body {inClass : Bool} {body flags rest : List Char}
    (hbody : isRegexBody inClass body = true) (hflags : flags.all isWordPart = true)
    (hrest : rest.head?.any isWordPart = false) :
    splitRegex inClass (body ++ '/' :: (flags ++ rest)) = (body ++ '/' :: flags, rest) := by
  fun_induction isRegexBody inClass body with
  | case1 inClass =>
      rw [Bool.not_eq_true'] at hbody
      rw [List.nil_append, splitRegex.eq_3 _ _ _ (by simp), hbody, splitWhile_run hflags hrest]
      rfl
  | case2 inClass c cs ih =>
      rw [Bool.and_eq_true] at hbody
      rw [List.cons_append, List.cons_append, splitRegex, ih hbody.2]
      rfl
  | case3 inClass c cs _ ih =>
      simp only [Bool.and_eq_true, bne_iff_ne, ne_eq] at hbody
      obtain ⟨⟨⟨⟨hescape, hfeed⟩, hreturn⟩, hclose⟩, hcs⟩ := hbody
      rw [List.cons_append, splitRegex_plain hescape hfeed hreturn hclose, ih hcs]
      rfl

/-! ## Steps -/

theorem step_slash (st : State) (cs : List Char) : step st '/' cs = slash st cs := rfl

theorem step_dot (st : State) (cs : List Char) : step st '.' cs = dot st cs := rfl

theorem step_dot_plain {cs : List Char} (hdigit : cs.head?.any Char.isDigit = false) (st : State) :
    step st '.' cs = lexeme (['.'], cs) { st with regexAllowed := true, afterDot := true } := by
  rw [step_dot, dot, if_neg (by rw [hdigit]; simp)]

theorem step_space {st : State} {c : Char} {cs : List Char} (hc : isSpace c = true) :
    step st c cs = lexeme ([c], cs) st := by
  simp only [isSpace, Bool.or_eq_true, beq_iff_eq] at hc
  rcases hc with (((rfl | rfl) | rfl) | rfl) | rfl <;> rfl

theorem step_quote {st : State} {c : Char} {cs : List Char} (hc : c = '\'' ∨ c = '"') :
    step st c cs = lexeme (push [c] (splitString c cs)) (st.after false) := by
  rcases hc with rfl | rfl <;> rfl

theorem isPunctuator_iff {c : Char} :
    isPunctuator c = true ↔ isWordPart c = false ∧ isSpace c = false ∧
      c ∉ "'\"\x60\x7b\x7d".toList := by
  simp only [isPunctuator, Bool.and_eq_true, Bool.not_eq_true', and_assoc, List.contains_eq_mem,
    decide_eq_false_iff_not]

theorem step_punctuator {st : State} {c : Char} {cs : List Char} (hc : isPunctuator c = true)
    (hslash : c ≠ '/') (hdot : c ≠ '.') (hparen : c ≠ ')') (hbracket : c ≠ ']')
    (hnext : cs.head?.any (joinsNext c) = false) :
    step st c cs = lexeme ([c], cs) (st.after true) := by
  obtain ⟨hword, hspace, hmem⟩ := isPunctuator_iff.mp hc
  refine step_cases st c cs ?slash ?string ?backtick ?openBrace ?closeBrace ?closer ?dot ?double
    ?number ?word ?space ?optional ?other
  case slash => exact fun h => absurd h hslash
  case string => rintro (rfl | rfl) <;> exact absurd (by decide) hmem
  case backtick => rintro rfl; exact absurd (by decide) hmem
  case openBrace => rintro rfl; exact absurd (by decide) hmem
  case closeBrace => rintro rfl; exact absurd (by decide) hmem
  case closer => rintro (h | h); exacts [absurd h hparen, absurd h hbracket]
  case dot => exact fun h => absurd h hdot
  case double =>
    intro h hhead
    rw [hhead] at hnext
    rcases h with rfl | rfl <;> exact absurd hnext (by decide)
  case number =>
    intro h
    rw [isWordPart_of_isDigit h] at hword
    exact absurd hword (by simp)
  case word =>
    intro _ h
    rw [h] at hword
    exact absurd hword (by simp)
  case space =>
    intro h
    rw [h] at hspace
    exact absurd hspace (by simp)
  case optional =>
    rintro rfl hhead
    rw [hhead] at hnext
    exact absurd hnext (by decide)
  case other => exact fun _ _ => rfl

/-! ## Comments -/

/-- A scan takes a comment of either kind as a whole, and remembers nothing of it. -/
theorem step_text {kind : Comment.Kind} {text rest : List Char} (htext : kind.IsText text)
    (hrest : kind = .line → rest.head?.all isLineTerminator = true) (st : State) :
    ∃ tail, text = '/' :: tail ∧
      step st '/' (tail ++ rest) = ⟨text, rest, st, some (kind, true)⟩ := by
  cases kind with
  | line =>
      obtain ⟨body, rfl, hbody⟩ := htext
      refine ⟨'/' :: body, rfl, ?_⟩
      have hline : body.all (fun t => !isLineTerminator t) = true := by
        rw [List.all_eq_true]
        exact fun t ht => by rw [hbody t ht]; rfl
      simp only [step_slash, List.cons_append, slash]
      rw [splitLine_body hline (hrest rfl)]
      rfl
  | block =>
      obtain ⟨body, rfl, hbody⟩ := htext
      refine ⟨'*' :: body ++ ['*', '/'], rfl, ?_⟩
      have hsplit : body ++ ['*', '/'] ++ rest = body ++ '*' :: '/' :: rest := by simp
      simp only [step_slash, List.cons_append, slash]
      rw [hsplit, splitBlock_body hbody]
      rfl

theorem scan_text {kind : Comment.Kind} {text : String} {rest : List Char}
    (htext : kind.IsText text.toList)
    (hrest : kind = .line → rest.head?.all isLineTerminator = true) (offset : Nat) (st : State) :
    scan offset st (text.toList ++ rest) =
      ⟨⟨offset, offset + text.utf8ByteSize⟩, kind, text, true⟩ ::
        scan (offset + text.utf8ByteSize) st rest := by
  obtain ⟨tail, htail, hstep⟩ := step_text htext hrest st
  rw [htail, List.cons_append, scan_cons, hstep, ← String.utf8Len_toList]
  simp [Move.scan, Move.found]

theorem isText_commentChars {kind : Comment.Kind} {body : List Char} {next : Option Char}
    (hbody : isCommentBody next kind body = true) : kind.IsText (commentChars kind body) := by
  cases kind with
  | line =>
      simp only [isCommentBody, Bool.and_eq_true, List.all_eq_true, Bool.not_eq_true'] at hbody
      exact ⟨body, rfl, hbody.1⟩
  | block =>
      simp only [isCommentBody, Bool.not_eq_true', decide_eq_false_iff_not] at hbody
      exact ⟨body, rfl, hbody⟩

theorem all_of_isCommentBody {kind : Comment.Kind} {body : List Char} {next : Option Char}
    (hbody : isCommentBody next kind body = true) (hkind : kind = .line) :
    next.all isLineTerminator = true := by
  rw [hkind, isCommentBody, Bool.and_eq_true] at hbody
  exact hbody.2

/-! ## Words and numbers -/

theorem step_word {c : Char} {name rest : List Char} (hname : isRun false (c :: name) = true)
    (hrest : rest.head?.any isWordPart = false) (st : State) :
    step st c (name ++ rest) = lexeme (c :: name, rest)
      (st.after (!st.afterDot && expressionKeywords.contains (String.ofList (c :: name)))) := by
  rw [isRun, Bool.and_eq_true, beq_iff_eq] at hname
  have hword : isWordPart c = true := (Bool.and_eq_true _ _ ▸ List.all_cons ▸ hname.2).1
  rw [step_run hword, if_neg (by rw [hname.1]; simp), word, ← List.cons_append,
    splitWhile_run hname.2 hrest]

theorem step_digits {c : Char} {digits rest : List Char} (hdigits : isRun true (c :: digits) = true)
    (hrest : rest.head?.any isWordPart = false) (st : State) :
    step st c (digits ++ rest) = lexeme (c :: digits, rest) (st.after false) := by
  rw [isRun, Bool.and_eq_true, beq_iff_eq] at hdigits
  rw [step_run (isWordPart_of_isDigit hdigits.1), if_pos hdigits.1, ← List.cons_append,
    splitWhile_run hdigits.2 hrest]

theorem isRun_iff {digitFirst : Bool} {run : List Char} :
    isRun digitFirst run = true ↔
      ∃ c cs, run = c :: cs ∧ c.isDigit = digitFirst ∧ (c :: cs).all isWordPart = true := by
  cases run with
  | nil => simp [isRun]
  | cons c cs =>
      rw [isRun, Bool.and_eq_true, beq_iff_eq]
      constructor
      · rintro ⟨hdigit, hall⟩
        exact ⟨c, cs, rfl, hdigit, hall⟩
      · rintro ⟨d, ds, heq, hdigit, hall⟩
        obtain ⟨rfl, rfl⟩ := List.cons.inj heq
        exact ⟨hdigit, hall⟩

theorem step_dotted {digits rest : List Char} (hdigits : isRun true digits = true)
    (hrest : rest.head?.any isWordPart = false) (st : State) :
    step st '.' (digits ++ rest) = lexeme ('.' :: digits, rest) (st.after false) := by
  obtain ⟨c, cs, rfl, hdigit, hall⟩ := isRun_iff.mp hdigits
  rw [step_dot, dot, List.cons_append, List.head?_cons, Option.any_some, if_pos hdigit,
    ← List.cons_append, splitWhile_run hall hrest]
  rfl

end JsPrune.Scanner
