import JsPrune.Proofs.Lexical.Numeral
/-!
# Slashes behind a token

Spaces and comments apart, a slash that opens no comment starts a regular expression or divides by what
stands before it.  Behind a number it divides, unless the number ends in its dot, and behind a word that
an expression follows it starts a regular expression, unless the word stands behind a dot.  Dots that the
scanner takes for the one before a property name are also the last dot of a spread and the dot that ends
a number, and it looks through the marks `++` and `--`.
-/

namespace JsPrune

open String (utf8Len)

namespace Lexical

open Scanner (isWordPart)

def Element.isGap : Element → Bool
  | .space _ => true
  | .comment _ _ => true
  | _ => false

/-- Whether elements are well formed spaces and comments before the character `next`. -/
def isGap (next : Char) (gap : List Element) : Bool :=
  gap.all Element.isGap && allFit true [] (some next) gap

end Lexical

namespace Scanner

open Lexical

/-! ## Gaps -/

variable {st : State} {rest : List Char}

theorem takes_space {run : List Char} (hrun : run.all isSpace = true) : Takes st run rest st := by
  induction run with
  | nil => exact takes_nil st rest
  | cons c run ih =>
      rw [List.all_cons, Bool.and_eq_true] at hrun
      have hfirst : Takes st [c] (run ++ rest) st := takes_of_step (step_space hrun.1)
      exact hfirst.append (ih hrun.2)

theorem takes_comment {kind : Comment.Kind} {body : List Char}
    (hbody : isCommentBody rest.head? kind body = true) :
    Takes st (commentChars kind body) rest st := by
  obtain ⟨tail, htail, hstep⟩ :=
    step_text (isText_commentChars hbody) (all_of_isCommentBody hbody) st
  rw [htail] at hstep ⊢
  exact takes_of_step hstep

theorem takes_gap {gap before : List Element} (hkind : gap.all Element.isGap = true)
    (hfit : allFit true before rest.head? gap = true) : Takes st (charsOf gap) rest st := by
  induction gap generalizing before with
  | nil => exact takes_nil st rest
  | cons element gap ih =>
      rw [List.all_cons, Bool.and_eq_true] at hkind
      rw [allFit, Bool.and_eq_true, ← List.head?_append] at hfit
      have hfirst : Takes st element.chars (charsOf gap ++ rest) st := by
        cases element with
        | space run => exact takes_space hfit.1
        | comment kind body => exact takes_comment hfit.1
        | _ => exact absurd hkind.1 (by simp [Element.isGap])
      exact hfirst.append (ih hkind.2 hfit.2)

theorem not_word_of_gap {gap before : List Element} (hkind : gap.all Element.isGap = true)
    (hfit : allFit true before rest.head? gap = true) (hrest : rest.head?.any isWordPart = false) :
    (charsOf gap ++ rest).head?.any isWordPart = false := by
  induction gap generalizing before with
  | nil => exact hrest
  | cons element gap ih =>
      rw [List.all_cons, Bool.and_eq_true] at hkind
      rw [allFit, Bool.and_eq_true] at hfit
      have hlater := ih hkind.2 hfit.2
      cases element with
      | space run =>
          cases run with
          | nil => exact hlater
          | cons c run =>
              have hspace : isSpace c = true := List.all_eq_true.mp hfit.1 c List.mem_cons_self
              refine Bool.eq_false_iff.mpr fun hword => ?_
              have hnot : isSpace c = false := not_isSpace_of_isWordPart hword
              rw [hspace] at hnot
              exact absurd hnot (by simp)
      | comment kind body => cases kind <;> rfl
      | _ => exact absurd hkind.1 (by simp [Element.isGap])

/-! ## Slashes -/

def DividesAt (source : String) (offset : Nat) : Prop :=
  ∃ st cs, Reached source offset st ('/' :: cs) ∧
    (step st '/' cs = lexeme (['/'], cs) (st.after true) ∨
      step st '/' cs = lexeme (['/', '='], cs.tail) (st.after true))

def StartsRegexAt (source : String) (offset : Nat) : Prop :=
  ∃ st cs, Reached source offset st ('/' :: cs) ∧
    step st '/' cs = lexeme (push ['/'] (splitRegex false cs)) (st.after false)

/-- The slash behind a regular expression or a division is read the other way. -/
theorem regexAllowed_step_slash {cs : List Char} (hline : cs.head? ≠ some '/')
    (hblock : cs.head? ≠ some '*') : (step st '/' cs).next.regexAllowed = !st.regexAllowed := by
  rw [step_slash]
  cases hst : st.regexAllowed with
  | true =>
      rw [slash_regex hst hline hblock]
      rfl
  | false =>
      by_cases hassign : cs.head? = some '='
      · rw [eq_cons_tail_of_head? hassign, slash_assign hst]
        rfl
      · rw [slash_divide hst hline hblock hassign]
        rfl

section

variable {source : String} {offset : Nat} {cs : List Char}

theorem startsRegexAt_iff (h : Reached source offset st ('/' :: cs)) (hline : cs.head? ≠ some '/')
    (hblock : cs.head? ≠ some '*') : StartsRegexAt source offset ↔ st.regexAllowed = true := by
  constructor
  · rintro ⟨st', cs', h', hstep⟩
    obtain ⟨rfl, hchars⟩ := h'.unique h
    obtain rfl := (List.cons.inj hchars).2
    have hnext : (step st' '/' cs').next.regexAllowed = !st'.regexAllowed :=
      regexAllowed_step_slash hline hblock
    rw [hstep] at hnext
    simpa [lexeme, State.after] using hnext
  · intro hst
    exact ⟨st, cs, h, slash_regex hst hline hblock⟩

theorem dividesAt_iff (h : Reached source offset st ('/' :: cs)) (hline : cs.head? ≠ some '/')
    (hblock : cs.head? ≠ some '*') : DividesAt source offset ↔ st.regexAllowed = false := by
  constructor
  · rintro ⟨st', cs', h', hstep⟩
    obtain ⟨rfl, hchars⟩ := h'.unique h
    obtain rfl := (List.cons.inj hchars).2
    have hnext : (step st' '/' cs').next.regexAllowed = !st'.regexAllowed :=
      regexAllowed_step_slash hline hblock
    rcases hstep with hstep | hstep <;> rw [hstep] at hnext <;>
      simpa [lexeme, State.after] using hnext
  · intro hst
    refine ⟨st, cs, h, ?_⟩
    by_cases hassign : cs.head? = some '='
    · right
      rw [eq_cons_tail_of_head? hassign]
      exact slash_assign hst cs.tail
    · left
      exact slash_divide hst hline hblock hassign

end

/-! ## Dots before a word -/

/-- The scanner remembers a dot over this lexeme: a space, a comment or a double mark. -/
def Skips (st : State) (c : Char) (cs : List Char) : Prop :=
  isSpace c = true ∨ (step st c cs).comment.isSome = true ∨
    (c = '+' ∨ c = '-') ∧ cs.head? = some c

/-- Apart from spaces, comments and double marks, the last lexeme before an offset is a dot that starts
no number, or `?.`. -/
inductive BehindDot (source : String) : Nat → Prop
  | dot {offset : Nat} {st : State} {cs : List Char} (h : Reached source offset st ('.' :: cs))
      (hdigit : cs.head?.any Char.isDigit = false) : BehindDot source (offset + 1)
  | optional {offset : Nat} {st : State} {cs : List Char}
      (h : Reached source offset st ('?' :: '.' :: cs)) : BehindDot source (offset + 2)
  | skip {offset : Nat} {st : State} {c : Char} {cs : List Char}
      (h : Reached source offset st (c :: cs)) (hskips : Skips st c cs)
      (hbehind : BehindDot source offset) :
      BehindDot source (offset + utf8Len (step st c cs).taken)

theorem Skips.next_eq {c : Char} {cs : List Char} (h : Skips st c cs) : (step st c cs).next = st := by
  rcases h with hspace | hcomment | ⟨hc, hhead⟩
  · rw [step_space hspace]
    rfl
  · obtain ⟨k, hk⟩ := Option.isSome_iff_exists.mp hcomment
    obtain ⟨rfl, tail, ⟨rfl, -⟩ | ⟨rfl, -⟩⟩ := step_comment_cases hk <;> rfl
  · rw [eq_cons_tail_of_head? hhead]
    rcases hc with rfl | rfl <;> rfl

theorem afterDot_slash {cs : List Char} (h : (slash st cs).next.afterDot = true) :
    Skips st '/' cs ∧ st.afterDot = true := by
  unfold slash at h
  split at h
  · exact ⟨Or.inr (Or.inl rfl), h⟩
  · exact ⟨Or.inr (Or.inl rfl), h⟩
  · split at h
    · exact absurd h (by simp [lexeme, State.after])
    · split at h <;> exact absurd h (by simp [lexeme, State.after])

theorem afterDot_template (opener : Char) (cs : List Char) :
    (template st opener cs).next.afterDot = false := by
  unfold template
  obtain ⟨split, opens⟩ := splitTemplate cs
  cases opens <;> rfl

theorem afterDot_closeBrace (cs : List Char) : (closeBrace st cs).next.afterDot = false := by
  unfold closeBrace
  split
  · rfl
  · split
    · exact afterDot_template '}' cs
    · rfl

theorem afterDot_step {c : Char} {cs : List Char} (h : (step st c cs).next.afterDot = true) :
    (c = '.' ∧ cs.head?.any Char.isDigit = false) ∨ (c = '?' ∧ cs.head? = some '.') ∨
      (Skips st c cs ∧ st.afterDot = true) := by
  have hafter : ∀ regexAllowed, (st.after regexAllowed).afterDot ≠ true := by
    intro regexAllowed
    simp [State.after]
  revert h
  refine step_cases st c cs ?slash ?string ?backtick ?openBrace ?closeBrace ?closer ?dot ?double
    ?number ?word ?space ?optional ?other
  case slash =>
    rintro rfl h
    exact Or.inr (Or.inr (afterDot_slash h))
  case string => exact fun _ h => absurd h (hafter _)
  case backtick =>
    intro _ h
    rw [afterDot_template] at h
    exact absurd h (by simp)
  case openBrace => exact fun _ h => absurd h (by simp [lexeme, State.after])
  case closeBrace =>
    intro _ h
    rw [afterDot_closeBrace] at h
    exact absurd h (by simp)
  case closer => exact fun _ h => absurd h (hafter _)
  case dot =>
    intro hc h
    unfold dot at h
    split at h
    · exact absurd h (hafter _)
    · next hdigit => exact Or.inl ⟨hc, Bool.eq_false_iff.mpr hdigit⟩
  case double => exact fun hc hhead h => Or.inr (Or.inr ⟨Or.inr (Or.inr ⟨hc, hhead⟩), h⟩)
  case number => exact fun _ h => absurd h (hafter _)
  case word => exact fun _ _ h => absurd h (hafter _)
  case space => exact fun hspace h => Or.inr (Or.inr ⟨Or.inl hspace, h⟩)
  case optional => exact fun hc hhead _ => Or.inr (Or.inl ⟨hc, hhead⟩)
  case other => exact fun _ _ h => absurd h (hafter _)

theorem Reached.afterDot_iff {source : String} {offset : Nat} {cs : List Char}
    (h : Reached source offset st cs) : st.afterDot = true ↔ BehindDot source offset := by
  constructor
  · induction h with
    | start => exact fun hdot => absurd hdot (by simp [State.initial])
    | @step offset st c cs h ih =>
        intro hdot
        obtain ⟨rfl, hdigit⟩ | ⟨rfl, hhead⟩ | ⟨hskips, hbehind⟩ := afterDot_step hdot
        · rw [step_dot_plain hdigit]
          exact BehindDot.dot h hdigit
        · rw [eq_cons_tail_of_head? hhead] at h ⊢
          exact BehindDot.optional h
        · exact BehindDot.skip h hskips (ih hbehind)
  · intro hbehind
    induction hbehind generalizing st cs with
    | dot h' hdigit =>
        have hnext := h'.step
        rw [step_dot_plain hdigit] at hnext
        obtain ⟨rfl, -⟩ := h.unique hnext
        rfl
    | optional h' =>
        obtain ⟨rfl, -⟩ := h.unique h'.step
        rfl
    | skip h' hskips _ ih =>
        obtain ⟨rfl, -⟩ := h.unique h'.step
        rw [hskips.next_eq]
        exact ih h'

/-- Spaces and comments behind a token do not change how a slash behind it is read. -/
theorem Takes.slash {token cs : List Char} {gap : List Element} {st' : State} {source : String}
    {offset : Nat} (h : Takes st token (charsOf gap ++ '/' :: cs) st')
    (hgap : isGap '/' gap = true) (hline : cs.head? ≠ some '/') (hblock : cs.head? ≠ some '*')
    (hreached : Reached source offset st (token ++ (charsOf gap ++ '/' :: cs))) :
    (StartsRegexAt source (offset + utf8Len (token ++ charsOf gap)) ↔ st'.regexAllowed = true) ∧
    (DividesAt source (offset + utf8Len (token ++ charsOf gap)) ↔ st'.regexAllowed = false) := by
  rw [isGap, Bool.and_eq_true] at hgap
  have hbehind : Takes st' (charsOf gap) ('/' :: cs) st' := takes_gap hgap.1 hgap.2
  rw [← List.append_assoc] at hreached
  have hslash := (h.append hbehind) source offset hreached
  exact ⟨startsRegexAt_iff hslash hline hblock, dividesAt_iff hslash hline hblock⟩

theorem all_isRun_keywords :
    expressionKeywords.all (fun w => isRun false w.toList) = true := by
  decide +kernel

/-- How a slash is read, spaces and comments apart, right behind a number or behind a word that an
expression follows, wherever the scanner stands before it.  Behind the number it divides, unless the
number ends in its dot; then a regular expression starts.  Behind the word a regular expression starts,
unless the word stands behind a dot; then it divides. -/
theorem slash_behind_iff {source : String} {offset : Nat} {st : State} {gap : List Element}
    {cs : List Char} (hgap : isGap '/' gap = true) (hline : cs.head? ≠ some '/')
    (hblock : cs.head? ≠ some '*') :
    (∀ n : Numeral, n.fits = true →
      Reached source offset st (n.chars ++ (charsOf gap ++ '/' :: cs)) →
        (DividesAt source (offset + utf8Len (n.chars ++ charsOf gap)) ↔ n.endsInDot = false) ∧
        (StartsRegexAt source (offset + utf8Len (n.chars ++ charsOf gap)) ↔
          n.endsInDot = true)) ∧
    ∀ w ∈ expressionKeywords, Reached source offset st (w.toList ++ (charsOf gap ++ '/' :: cs)) →
      (StartsRegexAt source (offset + utf8Len (w.toList ++ charsOf gap)) ↔
        ¬ BehindDot source offset) ∧
      (DividesAt source (offset + utf8Len (w.toList ++ charsOf gap)) ↔
        BehindDot source offset) := by
  have hkinds := hgap
  rw [isGap, Bool.and_eq_true] at hkinds
  have hrest : (charsOf gap ++ '/' :: cs).head?.any isWordPart = false :=
    not_word_of_gap hkinds.1 hkinds.2 rfl
  constructor
  · intro n hn hreached
    obtain ⟨hregex, hdivides⟩ := (takes_numeral hn hrest).slash hgap hline hblock hreached
    rw [hregex, hdivides]
    cases n.endsInDot <;> simp [State.after]
  · intro w hw hreached
    have hname : isRun false w.toList = true := List.all_eq_true.mp all_isRun_keywords w hw
    have hkeyword : expressionKeywords.contains (String.ofList w.toList) = true := by
      rw [String.ofList_toList]
      exact List.contains_iff_mem.mpr hw
    obtain ⟨hregex, hdivides⟩ := (takes_word hname hrest).slash hgap hline hblock hreached
    rw [hregex, hdivides, ← hreached.afterDot_iff, hkeyword]
    cases st.afterDot <;> simp [State.after]

/-- Behind the dot of a number, and behind a keyword with a spread before it. -/
theorem slash_behind_iff_last_dot :
    StartsRegexAt "1./2//x" 2 ∧ DividesAt "...await /b" 9 := by
  have hnumber : Reached "1./2//x" 0 .initial "1./2//x".toList := Reached.of_walk 0 (by decide +kernel)
  have hword : Reached "...await /b" 3 ⟨true, true, 0, []⟩ "await /b".toList :=
    Reached.of_walk 3 (by decide +kernel)
  have hnone : isGap '/' [] = true := by decide
  have hspace : isGap '/' [.space [' ']] = true := by decide
  have hdigit : "2//x".toList.head? ≠ some '/' ∧ "2//x".toList.head? ≠ some '*' := by decide
  have hletter : ['b'].head? ≠ some '/' ∧ ['b'].head? ≠ some '*' := by decide
  constructor
  · have hall := (slash_behind_iff hnone hdigit.1 hdigit.2).1 (.decimal ['1'] (some []) none)
      (by decide) hnumber
    exact hall.2.mpr rfl
  · have hall := (slash_behind_iff hspace hletter.1 hletter.2).2 "await" (by decide) hword
    exact hall.2.mpr (hword.afterDot_iff.mp rfl)

/-- With the dot the slash starts a regular expression, which ends in the comment opener. -/
example : Comment.all "1./2//x" = [] ∧ Comment.all "1/2//x" = [⟨⟨3, 6⟩, .line, "//x", true⟩] := by
  decide +kernel

end Scanner

end JsPrune
