import JsPrune.Proofs.Lexical.Steps
/-!
# Numbers

A number of a script is one token of its grammar, and up to five lexemes of the scanner: the digits in
front of the dot, the dot with the digits behind it, and, if the exponent has a sign, this sign and the
digits of the exponent.  What the scanner remembers behind a number is what it remembers behind digits,
unless the number ends in its dot.
-/

namespace JsPrune

open String (utf8Len)

namespace Lexical

open Scanner (isWordPart)

/-! ## The grammar of numbers -/

def isDigits (digit : Char → Bool) : List Char → Bool
  | [] => false
  | [c] => digit c
  | c :: '_' :: cs => digit c && isDigits digit cs
  | c :: cs => digit c && isDigits digit cs

structure Exponent where
  letter : Char
  sign : Option Char
  digits : List Char
  deriving DecidableEq, Repr

namespace Exponent

def chars (exponent : Exponent) : List Char :=
  exponent.letter :: (exponent.sign.toList ++ exponent.digits)

def fits (exponent : Exponent) : Bool :=
  (exponent.letter == 'e' || exponent.letter == 'E') &&
    exponent.sign.all (fun c => c == '+' || c == '-') && isDigits Char.isDigit exponent.digits

theorem fits_iff {exponent : Exponent} :
    exponent.fits = true ↔ (exponent.letter = 'e' ∨ exponent.letter = 'E') ∧
      exponent.sign.all (fun c => c == '+' || c == '-') = true ∧
      isDigits Char.isDigit exponent.digits = true := by
  rw [fits, Bool.and_eq_true, Bool.and_eq_true, Bool.or_eq_true, beq_iff_eq, beq_iff_eq, and_assoc]

end Exponent

/-- The digits that stand behind `0` and a letter: hexadecimal, octal or binary ones. -/
def isDigitOf (letter c : Char) : Bool :=
  if letter == 'x' || letter == 'X' then c.isDigit || "abcdefABCDEF".toList.contains c
  else if letter == 'o' || letter == 'O' then "01234567".toList.contains c
  else (letter == 'b' || letter == 'B') && (c == '0' || c == '1')

inductive Numeral where
  /-- Decimal digits, behind them perhaps a dot, which digits may follow, and an exponent. -/
  | decimal (whole : List Char) (fraction : Option (List Char)) (exponent : Option Exponent)
  /-- A dot in front of decimal digits. -/
  | dotted (fraction : List Char) (exponent : Option Exponent)
  /-- A whole number in another base, which the letter behind the `0` names. -/
  | based (letter : Char) (digits : List Char) (big : Bool)
  /-- A whole number of any size, with an `n` behind its decimal digits. -/
  | big (digits : List Char)
  deriving DecidableEq, Repr

namespace Numeral

def chars : Numeral → List Char
  | decimal whole fraction exponent =>
    whole ++ (fraction.elim [] ('.' :: ·) ++ exponent.elim [] Exponent.chars)
  | dotted fraction exponent => '.' :: fraction ++ exponent.elim [] Exponent.chars
  | based letter digits isBig => '0' :: letter :: digits ++ if isBig then ['n'] else []
  | big digits => digits ++ ['n']

def fits : Numeral → Bool
  | decimal whole fraction exponent =>
    isDigits Char.isDigit whole &&
      fraction.all (fun ds => ds.isEmpty || isDigits Char.isDigit ds) &&
        exponent.all Exponent.fits
  | dotted fraction exponent => isDigits Char.isDigit fraction && exponent.all Exponent.fits
  | based letter digits _ => isDigits (isDigitOf letter) digits
  | big digits => isDigits Char.isDigit digits

def endsInDot : Numeral → Bool
  | decimal _ (some []) none => true
  | _ => false

end Numeral

theorem isWordPart_of_isDigitOf {letter c : Char} (h : isDigitOf letter c = true) :
    isWordPart letter = true ∧ isWordPart c = true := by
  have hmem : ∀ (letters : String), letters.toList.contains c = true →
      letters.toList.all isWordPart = true → isWordPart c = true := by
    intro letters hc hall
    exact List.all_eq_true.mp hall c (List.contains_iff_mem.mp hc)
  unfold isDigitOf at h
  split_ifs at h with hhex hoct
  · rw [Bool.or_eq_true, beq_iff_eq, beq_iff_eq] at hhex
    refine ⟨by rcases hhex with rfl | rfl <;> decide, ?_⟩
    rw [Bool.or_eq_true] at h
    rcases h with h | h
    · exact Scanner.isWordPart_of_isDigit h
    · exact hmem _ h (by decide)
  · rw [Bool.or_eq_true, beq_iff_eq, beq_iff_eq] at hoct
    exact ⟨by rcases hoct with rfl | rfl <;> decide, hmem _ h (by decide)⟩
  · simp only [Bool.and_eq_true, Bool.or_eq_true, beq_iff_eq] at h
    obtain ⟨hletter, hc⟩ := h
    exact ⟨by rcases hletter with rfl | rfl <;> decide, by rcases hc with rfl | rfl <;> decide⟩

theorem all_of_isDigits {digit : Char → Bool} {cs : List Char} (h : isDigits digit cs = true) :
    cs.all (fun c => digit c || c == '_') = true := by
  fun_induction isDigits digit cs with
  | case1 => rfl
  | case2 c => simp [h]
  | case3 c cs ih =>
      rw [Bool.and_eq_true] at h
      simp [h.1, ih h.2]
  | case4 c cs _ _ ih =>
      rw [Bool.and_eq_true] at h
      simp [h.1, ih h.2]

theorem exists_of_isDigits {digit : Char → Bool} {cs : List Char} (h : isDigits digit cs = true) :
    ∃ c ds, cs = c :: ds ∧ digit c = true := by
  fun_induction isDigits digit cs with
  | case1 => exact absurd h (by simp)
  | case2 c => exact ⟨c, [], rfl, h⟩
  | case3 c cs ih => exact ⟨c, '_' :: cs, rfl, (Bool.and_eq_true _ _ ▸ h).1⟩
  | case4 c cs _ _ ih => exact ⟨c, cs, rfl, (Bool.and_eq_true _ _ ▸ h).1⟩

theorem isWordPart_of_isDigits {digit : Char → Bool} {cs : List Char}
    (hdigit : ∀ c, digit c = true → isWordPart c = true) (h : isDigits digit cs = true) :
    cs.all isWordPart = true := by
  rw [List.all_eq_true]
  intro c hc
  have hcases := List.all_eq_true.mp (all_of_isDigits h) c hc
  rw [Bool.or_eq_true, beq_iff_eq] at hcases
  rcases hcases with hc | rfl
  · exact hdigit c hc
  · decide

theorem isRun_of_isDigits {cs : List Char} (h : isDigits Char.isDigit cs = true) :
    isRun true cs = true := by
  obtain ⟨c, ds, rfl, hc⟩ := exists_of_isDigits h
  rw [isRun, Bool.and_eq_true, beq_iff_eq]
  exact ⟨hc, isWordPart_of_isDigits (fun _ => Scanner.isWordPart_of_isDigit) h⟩

theorem isRun_append {digitFirst : Bool} {cs ds : List Char} (hcs : isRun digitFirst cs = true)
    (hds : ds.all isWordPart = true) : isRun digitFirst (cs ++ ds) = true := by
  obtain ⟨c, cs, rfl, hdigit, hall⟩ := Scanner.isRun_iff.mp hcs
  rw [List.cons_append, isRun, Bool.and_eq_true, beq_iff_eq, ← List.cons_append, List.all_append,
    hall, hds]
  exact ⟨hdigit, rfl⟩

end Lexical

namespace Scanner

open Lexical

/-! ## Lexemes of a number -/

variable {st : State} {rest : List Char}

theorem takes_digits {digits : List Char} (hdigits : isRun true digits = true)
    (hrest : rest.head?.any isWordPart = false) : Takes st digits rest (st.after false) := by
  obtain ⟨c, cs, rfl, -⟩ := isRun_iff.mp hdigits
  exact takes_of_step (step_digits hdigits hrest st)

theorem takes_dotted {digits : List Char} (hdigits : isRun true digits = true)
    (hrest : rest.head?.any isWordPart = false) : Takes st ('.' :: digits) rest (st.after false) :=
  takes_of_step (step_dotted hdigits hrest st)

theorem takes_word {name : List Char} (hname : isRun false name = true)
    (hrest : rest.head?.any isWordPart = false) : Takes st name rest
      (st.after (!st.afterDot && expressionKeywords.contains (String.ofList name))) := by
  obtain ⟨c, cs, rfl, -⟩ := isRun_iff.mp hname
  exact takes_of_step (step_word hname hrest st)

theorem takes_dot (hrest : rest.head?.any Char.isDigit = false) :
    Takes st ['.'] rest { st with regexAllowed := true, afterDot := true } :=
  takes_of_step (step_dot_plain hrest st)

theorem takes_sign {c : Char} (hc : (c == '+' || c == '-') = true) (hrest : rest.head? ≠ some c) :
    Takes st [c] rest (st.after true) := by
  have hnext : rest.head?.any (· == c) = false := by
    rw [Bool.eq_false_iff]
    intro hany
    obtain ⟨d, hd, heq⟩ := (Option.any_eq_true _ _).mp hany
    exact hrest (hd.trans (congrArg some (beq_iff_eq.mp heq)))
  apply takes_of_step
  rw [Bool.or_eq_true, beq_iff_eq, beq_iff_eq] at hc
  rcases hc with rfl | rfl
  · exact step_punctuator (by decide) (by decide) (by decide) (by decide) (by decide) hnext
  · exact step_punctuator (by decide) (by decide) (by decide) (by decide) (by decide) hnext

/-! ## Numbers -/

/-- The scanner takes a run together with all word characters behind it, and behind the lexeme a slash
divides. -/
def Absorbs (st : State) (run : List Char) : Prop :=
  ∀ more rest : List Char, more.all isWordPart = true → rest.head?.any isWordPart = false →
    Takes st (run ++ more) rest (st.after false)

theorem absorbs_digits {digits : List Char} (hdigits : isRun true digits = true) :
    Absorbs st digits :=
  fun _ _ hmore hrest => takes_digits (isRun_append hdigits hmore) hrest

theorem absorbs_dotted {digits : List Char} (hdigits : isRun true digits = true) :
    Absorbs st ('.' :: digits) :=
  fun _ _ hmore hrest => takes_dotted (isRun_append hdigits hmore) hrest

theorem absorbs_name {name : List Char} (hname : isRun false name = true)
    (hdot : st.afterDot = true) : Absorbs st name := by
  intro more rest hmore hrest
  have htakes : Takes st (name ++ more) rest _ := takes_word (isRun_append hname hmore) hrest
  rwa [hdot, Bool.not_true, Bool.false_and] at htakes

namespace Absorbs

variable {run : List Char}

theorem append {more : List Char} (h : Absorbs st run) (hmore : more.all isWordPart = true) :
    Absorbs st (run ++ more) := by
  intro later rest hlater hrest
  rw [List.append_assoc]
  apply h (more ++ later) rest _ hrest
  rw [List.all_append, hmore, hlater, Bool.and_self]

theorem takes (h : Absorbs st run) (hrest : rest.head?.any isWordPart = false) :
    Takes st run rest (st.after false) := by
  have htakes := h [] rest List.all_nil hrest
  rwa [List.append_nil] at htakes

theorem signed (h : Absorbs st run) {sign : Option Char} {digits : List Char}
    (hsign : sign.all (fun c => c == '+' || c == '-') = true)
    (hdigits : isDigits Char.isDigit digits = true) (hrest : rest.head?.any isWordPart = false) :
    Takes st (run ++ (sign.toList ++ digits)) rest (st.after false) := by
  have hrun := isRun_of_isDigits hdigits
  obtain ⟨d, ds, rfl, hd⟩ := exists_of_isDigits hdigits
  cases sign with
  | none => exact h _ rest (isWordPart_of_isDigits (fun _ => isWordPart_of_isDigit) hdigits) hrest
  | some c =>
      have hc : (c == '+' || c == '-') = true := hsign
      have hword : isWordPart c = false := by
        rw [Bool.or_eq_true, beq_iff_eq, beq_iff_eq] at hc
        rcases hc with rfl | rfl <;> decide
      have hne : d ≠ c := by
        rintro rfl
        rw [isWordPart_of_isDigit hd] at hword
        exact absurd hword (by simp)
      -- The sign ends the lexeme, and the digits are one of their own.
      have hfirst : Takes st run (c :: (d :: ds ++ rest)) (st.after false) := h.takes hword
      have hsecond : Takes (st.after false) [c] (d :: ds ++ rest) ((st.after false).after true) :=
        takes_sign hc (by simpa using hne)
      exact hfirst.append (hsecond.append (takes_digits hrun hrest))

theorem exponent (h : Absorbs st run) {exponent : Option Exponent}
    (hfits : exponent.all Exponent.fits = true) (hrest : rest.head?.any isWordPart = false) :
    Takes st (run ++ exponent.elim [] Exponent.chars) rest (st.after false) := by
  cases exponent with
  | none => exact h [] rest List.all_nil hrest
  | some exponent =>
      obtain ⟨hletter, hsign, hdigits⟩ := Exponent.fits_iff.mp hfits
      have hletters : [exponent.letter].all isWordPart = true := by
        rcases hletter with heq | heq <;> rw [heq] <;> decide
      have htakes := (h.append hletters).signed hsign hdigits hrest
      rwa [List.append_assoc] at htakes

end Absorbs

theorem takes_exponent_behind_dot {exponent : Exponent} (hfits : exponent.fits = true)
    (hdot : st.afterDot = true) (hrest : rest.head?.any isWordPart = false) :
    Takes st exponent.chars rest (st.after false) := by
  obtain ⟨hletter, hsign, hdigits⟩ := Exponent.fits_iff.mp hfits
  have hname : isRun false [exponent.letter] = true := by
    rcases hletter with heq | heq <;> rw [heq] <;> decide
  exact (absorbs_name hname hdot).signed hsign hdigits hrest

theorem isDigit_head?_of_not_word {next : Option Char} (h : next.any isWordPart = false) :
    next.any Char.isDigit = false := by
  cases next with
  | none => rfl
  | some c =>
      rw [Option.any_some, Bool.eq_false_iff]
      intro hdigit
      rw [Option.any_some, isWordPart_of_isDigit hdigit] at h
      exact absurd h (by simp)

/-- Behind a number a slash divides, unless the number ends in its dot. -/
theorem takes_numeral {n : Numeral} (hn : n.fits = true) (hrest : rest.head?.any isWordPart = false) :
    Takes st n.chars rest (if n.endsInDot then { st with regexAllowed := true, afterDot := true }
      else st.after false) := by
  cases n with
  | decimal whole fraction exponent =>
      simp only [Numeral.fits, Bool.and_eq_true] at hn
      obtain ⟨⟨hwhole, hfraction⟩, hexponent⟩ := hn
      have hdigits := isRun_of_isDigits hwhole
      cases fraction with
      | none => exact (absorbs_digits hdigits).exponent hexponent hrest
      | some fraction =>
          have hfirst : ∀ behind, Takes st whole ('.' :: behind) (st.after false) :=
            fun behind => takes_digits hdigits rfl
          cases fraction with
          | cons d ds =>
              have hrun : isRun true (d :: ds) = true := isRun_of_isDigits hfraction
              have hsecond : Takes (st.after false)
                  ('.' :: d :: ds ++ exponent.elim [] Exponent.chars) rest (st.after false) :=
                (absorbs_dotted hrun).exponent hexponent hrest
              exact (hfirst _).append hsecond
          | nil =>
              have hdot : ∀ behind : List Char, behind.head?.any Char.isDigit = false →
                  Takes (st.after false) ['.'] behind
                    { st with regexAllowed := true, afterDot := true } := fun _ h => takes_dot h
              cases exponent with
              | none =>
                  exact (hfirst rest).append (hdot rest (isDigit_head?_of_not_word hrest))
              | some exponent =>
                  have hletter : exponent.letter.isDigit = false := by
                    rcases (Exponent.fits_iff.mp hexponent).1 with heq | heq <;> rw [heq] <;> decide
                  exact (hfirst _).append ((hdot (exponent.chars ++ rest) hletter).append
                    (takes_exponent_behind_dot hexponent rfl hrest))
  | dotted fraction exponent =>
      rw [Numeral.fits, Bool.and_eq_true] at hn
      exact (absorbs_dotted (isRun_of_isDigits hn.1)).exponent hn.2 hrest
  | based letter digits isBig =>
      obtain ⟨c, cs, rfl, hc⟩ := exists_of_isDigits hn
      have hletter := (isWordPart_of_isDigitOf hc).1
      have hdigits := isWordPart_of_isDigits (fun _ h => (isWordPart_of_isDigitOf h).2) hn
      have hmark : (if isBig then ['n'] else []).all isWordPart = true := by
        cases isBig <;> decide
      have hrun : isRun true ['0'] = true := by decide
      refine absorbs_digits hrun (letter :: c :: cs ++ if isBig then ['n'] else []) rest ?_ hrest
      rw [List.cons_append, List.all_cons, hletter, List.all_append, hdigits, hmark]
      rfl
  | big digits =>
      exact absorbs_digits (isRun_of_isDigits hn) ['n'] rest rfl hrest

end Scanner

end JsPrune
