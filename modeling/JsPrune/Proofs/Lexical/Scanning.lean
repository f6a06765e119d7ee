import JsPrune.Proofs.Lexical.Steps
/-!
# Scanning a sequence of elements

The scanner reads a well formed sequence element by element.  Between two elements its state answers
the two questions that the grammar asks about what stands before, whether a slash starts a regular
expression and whether a dot came last, and the braces and templates that are open are the same
before and behind every element.  So it finds the comments of the sequence, no less and no more.
-/

namespace JsPrune.Scanner

open String (utf8Len)
open Lexical

theorem utf8Len_ascii {c : Char} (hc : c.utf8Size = 1) (cs : List Char) :
    utf8Len (c :: cs) = 1 + utf8Len cs := by
  rw [String.utf8Len_cons, hc, Nat.add_comm]

/-! ## Elements that hold no others -/

theorem scan_lexeme (split : List Char × List Char) (next : State) (offset : Nat) :
    (lexeme split next).scan offset = scan (offset + utf8Len split.1) next split.2 := rfl

theorem scan_space {run : List Char} (hrun : run.all isSpace = true) (offset : Nat) (st : State)
    (rest : List Char) :
    scan offset st (run ++ rest) = scan (offset + utf8Len run) st rest := by
  induction run generalizing offset with
  | nil => rfl
  | cons c run ih =>
      rw [List.all_cons, Bool.and_eq_true] at hrun
      rw [List.cons_append, scan_cons, step_space hrun.1, scan_lexeme, ih hrun.2]
      simp [String.utf8Len_cons, Nat.add_assoc, Nat.add_comm]

theorem scan_comment {kind : Comment.Kind} {body rest : List Char}
    (hbody : isCommentBody rest.head? kind body = true) (offset : Nat) (st : State) :
    scan offset st (commentChars kind body ++ rest) =
      ⟨⟨offset, offset + utf8Len (commentChars kind body)⟩, kind,
        String.ofList (commentChars kind body), true⟩ ::
      scan (offset + utf8Len (commentChars kind body)) st rest := by
  have htext := isText_commentChars hbody
  rw [← String.toList_ofList (l := commentChars kind body)] at htext
  have hscan := scan_text htext (all_of_isCommentBody hbody) offset st
  rwa [String.toList_ofList, ← String.utf8Len_toList, String.toList_ofList] at hscan

theorem scan_string {quote : Char} {body : List Char} (hquote : quote = '\'' ∨ quote = '"')
    (hbody : isStringBody quote body = true) (offset : Nat) (st : State) (rest : List Char) :
    scan offset st (quote :: (body ++ [quote]) ++ rest) =
      scan (offset + utf8Len (quote :: (body ++ [quote]))) (st.after false) rest := by
  rw [List.cons_append, List.append_assoc, List.singleton_append, scan_cons, step_quote hquote,
    splitString_body hquote hbody]
  rfl

theorem scan_regex {body flags rest : List Char} {st : State} (hst : st.regexAllowed = true)
    (hbody : startsRegex body = true) (hflags : flags.all isWordPart = true)
    (hrest : rest.head?.any isWordPart = false) (offset : Nat) :
    scan offset st ('/' :: (body ++ '/' :: flags) ++ rest) =
      scan (offset + utf8Len ('/' :: (body ++ '/' :: flags))) (st.after false) rest := by
  cases body with
  | nil => exact absurd hbody (by simp [startsRegex])
  | cons c body =>
      simp only [startsRegex, Bool.and_eq_true, bne_iff_ne, ne_eq] at hbody
      have hstep : step st '/' (c :: body ++ ('/' :: flags ++ rest)) =
          lexeme (push ['/'] (c :: body ++ '/' :: flags, rest)) (st.after false) := by
        rw [step_slash, slash_regex hst (by simpa using hbody.1.2) (by simpa using hbody.1.1),
          List.cons_append (a := '/'), splitRegex_body hbody.2 hflags hrest]
      rw [List.cons_append, List.append_assoc, scan_cons, hstep]
      rfl

theorem scan_word {name rest : List Char} (hname : isRun false name = true)
    (hrest : rest.head?.any isWordPart = false) (offset : Nat) (st : State) :
    scan offset st (name ++ rest) = scan (offset + utf8Len name)
      (st.after (!st.afterDot && expressionKeywords.contains (String.ofList name))) rest := by
  obtain ⟨c, cs, rfl, -⟩ := isRun_iff.mp hname
  rw [List.cons_append, scan_cons, step_word hname hrest]
  rfl

theorem scan_number {dotted : Bool} {digits rest : List Char} (hdigits : isRun true digits = true)
    (hrest : rest.head?.any isWordPart = false) (offset : Nat) (st : State) :
    scan offset st ((Element.number dotted digits).chars ++ rest) =
      scan (offset + utf8Len (Element.number dotted digits).chars) (st.after false) rest := by
  obtain ⟨c, cs, rfl, -⟩ := isRun_iff.mp hdigits
  cases dotted with
  | true =>
      simp only [Element.chars, if_true]
      rw [List.cons_append, scan_cons, step_dotted hdigits hrest]
      rfl
  | false =>
      simp only [Element.chars, Bool.false_eq_true, if_false]
      rw [List.cons_append, scan_cons, step_digits hdigits hrest]
      rfl

def State.behindMark (st : State) (p : List Char) : State :=
  if isDouble p then st
  else if p == ['.'] || p == ['?', '.'] then { st with regexAllowed := true, afterDot := true }
  else st.after (p != [')'] && p != [']'])

@[simp] theorem State.depth_behindMark (st : State) (p : List Char) :
    (st.behindMark p).depth = st.depth := by
  unfold State.behindMark
  split_ifs <;> rfl

@[simp] theorem State.templates_behindMark (st : State) (p : List Char) :
    (st.behindMark p).templates = st.templates := by
  unfold State.behindMark
  split_ifs <;> rfl

theorem step_mark_one (st : State) {c : Char} {cs : List Char} (hc : isPunctuator c = true)
    (hnext : cs.head?.any (joinsNext c) = false) (hslash : c = '/' → st.regexAllowed = false) :
    step st c cs = lexeme ([c], cs) (st.behindMark [c]) := by
  by_cases hs : c = '/'
  · subst hs
    have hne : ∀ d, joinsNext '/' d = true → cs.head? ≠ some d := by
      intro d hd hhead
      rw [hhead, Option.any_some, hd] at hnext
      exact absurd hnext (by simp)
    rw [step_slash, slash_divide (hslash rfl) (hne '/' rfl) (hne '*' rfl) (hne '=' rfl)]
    rfl
  by_cases hd : c = '.'
  · subst hd
    have hdigit : cs.head?.any Char.isDigit = false := hnext
    rw [step_dot, dot, if_neg (by rw [hdigit]; simp)]
    rfl
  by_cases hp : c = ')'
  · subst hp
    rfl
  by_cases hb : c = ']'
  · subst hb
    rfl
  have hclosers : ([c] != [')'] && [c] != [']']) = true := by
    rw [Bool.and_eq_true, bne_iff_ne, bne_iff_ne]
    exact ⟨fun h => hp (List.cons.inj h).1, fun h => hb (List.cons.inj h).1⟩
  have hbehind : st.behindMark [c] = st.after true := by
    simp [State.behindMark, isDouble, hd, hclosers]
  rw [step_punctuator hc hs hd hp hb hnext, hbehind]

theorem isMark_cases {next : Option Char} {p : List Char} (hp : isMark next p = true) :
    p = ['+', '+'] ∨ p = ['-', '-'] ∨ p = ['?', '.'] ∨ p = ['/', '='] ∨
      ∃ c, p = [c] ∧ isPunctuator c = true ∧ next.any (joinsNext c) = false := by
  simp only [isMark, isDouble, Bool.or_eq_true, beq_iff_eq, or_assoc] at hp
  refine hp.imp_right (Or.imp_right (Or.imp_right (Or.imp_right fun hone => ?_)))
  split at hone
  · next c =>
      rw [Bool.and_eq_true, Bool.not_eq_true'] at hone
      exact ⟨c, rfl, hone⟩
  · exact absurd hone (by simp)

theorem scan_mark {p rest : List Char} {st : State} (hp : isMark rest.head? p = true)
    (hslash : p = ['/'] ∨ p = ['/', '='] → st.regexAllowed = false) (offset : Nat) :
    scan offset st (p ++ rest) = scan (offset + utf8Len p) (st.behindMark p) rest := by
  obtain rfl | rfl | rfl | rfl | ⟨c, rfl, hc, hnext⟩ := isMark_cases hp
  · exact scan_cons offset st '+' ('+' :: rest)
  · exact scan_cons offset st '-' ('-' :: rest)
  · exact scan_cons offset st '?' ('.' :: rest)
  · have hstep : step st '/' ('=' :: rest) =
        lexeme (['/', '='], rest) (st.behindMark ['/', '=']) := by
      rw [step_slash, slash_assign (hslash (Or.inr rfl))]
      rfl
    rw [List.cons_append, List.singleton_append, scan_cons, hstep]
    rfl
  · have hstep : step st c rest = lexeme ([c], rest) (st.behindMark [c]) :=
      step_mark_one st hc hnext fun h => hslash (Or.inl (by rw [h]))
    rw [List.singleton_append, scan_cons, hstep]
    rfl

/-! ## What the state remembers -/

/-- The state answers what the grammar asks about the elements `before`, the last one first, and the
innermost open substitution was opened inside the braces that are open. -/
structure State.Remembers (st : State) (before : List Element) : Prop where
  regexAllowed : st.regexAllowed = allowsRegex true before
  afterDot : st.afterDot = followsDot true before
  opened_le : ∀ d ∈ st.templates.head?, d ≤ st.depth

theorem State.Remembers.after {st : State} {before after : List Element}
    (hst : st.Remembers before) {regexAllowed : Bool} (hregex : regexAllowed = allowsRegex true after)
    (hdot : followsDot true after = false) : (st.after regexAllowed).Remembers after :=
  ⟨hregex, hdot.symm, hst.opened_le⟩

theorem State.Remembers.behindMark {st : State} {before : List Element} (hst : st.Remembers before)
    (p : List Char) : (st.behindMark p).Remembers (.mark p :: before) := by
  unfold State.behindMark
  split
  · next hdouble =>
      refine ⟨?_, ?_, hst.opened_le⟩
      · rw [hst.regexAllowed, allowsRegex, Bool.true_and, if_pos hdouble]
      · rw [hst.afterDot, followsDot, Bool.true_and, if_pos hdouble]
  next hdouble =>
  have hregex : allowsRegex true (.mark p :: before) = (p != [')'] && p != [']']) := by
    rw [allowsRegex, Bool.true_and, if_neg hdouble]
  have hdot : followsDot true (.mark p :: before) = (p == ['.'] || p == ['?', '.']) := by
    rw [followsDot, Bool.true_and, if_neg hdouble]
  split
  · next h =>
      refine ⟨?_, by rw [hdot, h], hst.opened_le⟩
      rw [Bool.or_eq_true, beq_iff_eq, beq_iff_eq] at h
      rcases h with rfl | rfl <;> rw [hregex] <;> rfl
  · next h => exact hst.after hregex.symm (hdot.trans (Bool.eq_false_iff.mpr h))

/-- From `st` the scanner reads `cs`, finds there the comments that it is told, and goes on at `rest`
with the same braces and templates open and in a state that remembers `before`. -/
def Reads (st : State) (cs : List Char) (comments : Nat → List Comment) (before : List Element)
    (rest : List Char) : Prop :=
  ∃ st' : State, st'.Remembers before ∧ st'.depth = st.depth ∧ st'.templates = st.templates ∧
    ∀ offset, scan offset st (cs ++ rest) = comments offset ++ scan (offset + utf8Len cs) st' rest

theorem Reads.append {st : State} {cs ds rest : List Char} {comments later : Nat → List Comment}
    {before after : List Element} (h : Reads st cs comments before (ds ++ rest))
    (hlater : ∀ st' : State, st'.Remembers before → Reads st' ds later after rest) :
    Reads st (cs ++ ds) (fun offset => comments offset ++ later (offset + utf8Len cs)) after rest := by
  obtain ⟨st₁, hst₁, hdepth₁, htemplates₁, hscan₁⟩ := h
  obtain ⟨st₂, hst₂, hdepth₂, htemplates₂, hscan₂⟩ := hlater st₁ hst₁
  refine ⟨st₂, hst₂, hdepth₂.trans hdepth₁, htemplates₂.trans htemplates₁, fun offset => ?_⟩
  rw [List.append_assoc, hscan₁, hscan₂, List.append_assoc, String.utf8Len_append, Nat.add_assoc]

/-! ## Elements that hold others -/

theorem step_backtick (st : State) (cs : List Char) : step st '\x60' cs = template st '\x60' cs := rfl

def State.openGroup (st : State) : State := { st.after true with depth := st.depth + 1 }

def State.openSubstitution (st : State) : State :=
  { st.after true with templates := st.depth :: st.templates }

theorem State.Remembers.openGroup {st : State} {before : List Element} (hst : st.Remembers before) :
    st.openGroup.Remembers [] :=
  ⟨rfl, rfl, fun d hd => Nat.le_succ_of_le (hst.opened_le d hd)⟩

theorem State.remembers_openSubstitution (st : State) : st.openSubstitution.Remembers [] :=
  ⟨rfl, rfl, fun _ hd => Nat.le_of_eq (Option.some.inj hd).symm⟩

theorem step_openBrace (st : State) (cs : List Char) :
    step st '{' cs = lexeme (['{'], cs) st.openGroup := rfl

theorem step_closeBrace (st : State) (cs : List Char) : step st '}' cs = closeBrace st cs := rfl

theorem closeBrace_substitution (st : State) {st' : State} (hdepth : st'.depth = st.depth)
    (htemplates : st'.templates = st.depth :: st.templates) (cs : List Char) :
    closeBrace st' cs = template { st' with templates := st.templates } '}' cs := by
  rw [closeBrace, htemplates]
  simp only [hdepth, beq_self_eq_true, if_true]

/-- No substitution was opened inside the braces of the group. -/
theorem closeBrace_group {st st' : State} (hopened : ∀ d ∈ st.templates.head?, d ≤ st.depth)
    (hdepth : st'.depth = st.depth + 1) (htemplates : st'.templates = st.templates)
    (cs : List Char) : closeBrace st' cs = lexeme (['}'], cs) (st.after true) := by
  have hbehind : { st'.after true with depth := st'.depth - 1 } = st.after true := by
    simp only [State.after, hdepth, htemplates, Nat.add_sub_cancel]
  unfold closeBrace
  split
  · rw [hbehind]
  · next d outer heq =>
      have hd : d ≤ st.depth := hopened d (by rw [← htemplates, heq]; rfl)
      rw [if_neg (by simp only [beq_iff_eq]; omega), hbehind]

theorem template_opens {text : List Char} (htext : isTemplateText text = true) (st : State)
    (opener : Char) (cs : List Char) :
    template st opener (text ++ '$' :: '{' :: cs) =
      lexeme (opener :: (text ++ ['$', '{']), cs) st.openSubstitution := by
  rw [template, splitTemplate_text htext (by simp)]
  rfl

theorem template_closes {text : List Char} (htext : isTemplateText text = true) (st : State)
    (opener : Char) (cs : List Char) :
    template st opener (text ++ '\x60' :: cs) =
      lexeme (opener :: (text ++ ['\x60']), cs) (st.after false) := by
  rw [template, splitTemplate_text htext (by simp)]
  rfl

mutual

theorem reads_element {st : State} {before : List Element} (rest : List Char)
    (hst : st.Remembers before) : (element : Element) →
    element.fits true before rest.head? = true →
      Reads st element.chars element.comments (element :: before) rest
  | .space run, h => ⟨st, ⟨hst.1, hst.2, hst.3⟩, rfl, rfl, fun offset => scan_space h offset st rest⟩
  | .comment kind body, h =>
    ⟨st, ⟨hst.1, hst.2, hst.3⟩, rfl, rfl, fun offset => scan_comment h offset st⟩
  | .string quote body, h => by
      rw [Element.fits, Bool.and_eq_true, Bool.or_eq_true, beq_iff_eq, beq_iff_eq] at h
      exact ⟨_, hst.after rfl rfl, rfl, rfl, fun offset => scan_string h.1 h.2 offset st rest⟩
  | .template text substitutions, h => by
      rw [Element.fits, Bool.and_eq_true] at h
      refine ⟨_, hst.after rfl rfl, rfl, rfl, fun offset => ?_⟩
      rw [Element.chars, List.cons_append, scan_cons, step_backtick,
        scan_template h.1 st (by rfl) substitutions h.2]
      simp only [Element.comments]
      congr 2
      rw [utf8Len_ascii rfl, Nat.add_assoc]
  | .regex body flags, h => by
      simp only [Element.fits, Bool.and_eq_true, Bool.not_eq_true'] at h
      obtain ⟨⟨⟨hregex, hbody⟩, hflags⟩, hrest⟩ := h
      rw [← hst.regexAllowed] at hregex
      exact ⟨_, hst.after rfl rfl, rfl, rfl, scan_regex hregex hbody hflags hrest⟩
  | .word name, h => by
      rw [Element.fits, Bool.and_eq_true, Bool.not_eq_true'] at h
      refine ⟨_, hst.after ?_ rfl, rfl, rfl, fun offset => scan_word h.1 h.2 offset st⟩
      rw [allowsRegex, hst.afterDot]
  | .number dotted digits, h => by
      rw [Element.fits, Bool.and_eq_true, Bool.not_eq_true'] at h
      exact ⟨_, hst.after rfl rfl, rfl, rfl, fun offset => scan_number h.1 h.2 offset st⟩
  | .group inside, h => by
      obtain ⟨st', -, hdepth, htemplates, hscan⟩ :=
        reads_elements ('}' :: rest) hst.openGroup inside h
      refine ⟨_, hst.after rfl rfl, rfl, rfl, fun offset => ?_⟩
      rw [Element.chars, List.cons_append, List.append_assoc, List.singleton_append, scan_cons,
        step_openBrace, scan_lexeme, hscan, scan_cons, step_closeBrace,
        closeBrace_group hst.opened_le hdepth htemplates, scan_lexeme]
      simp only [Element.comments]
      congr 2
      simp [String.utf8Len_cons]
      omega
  | .mark p, h => by
      rw [Element.fits, Bool.and_eq_true, Bool.not_eq_true', Bool.and_eq_false_imp] at h
      have hslash : p = ['/'] ∨ p = ['/', '='] → st.regexAllowed = false := fun hp => by
        rw [hst.regexAllowed]
        exact h.2 (by simpa using hp)
      exact ⟨_, hst.behindMark p, by simp, by simp, scan_mark h.1 hslash⟩

theorem scan_template {text : List Char} (htext : isTemplateText text = true) (st : State)
    {opener : Char} (hopener : opener.utf8Size = 1) {rest : List Char} :
    (substitutions : List (List Element × List Char)) → substitutionsFit true substitutions = true →
      ∀ offset, (template st opener (text ++ substitutionChars substitutions ++ rest)).scan offset =
        substitutionComments (offset + 1 + utf8Len text) substitutions ++
          scan (offset + 1 + utf8Len (text ++ substitutionChars substitutions)) (st.after false) rest
  | [], _, offset => by
      rw [substitutionChars, List.append_assoc, List.singleton_append, template_closes htext,
        scan_lexeme, substitutionComments, List.nil_append]
      congr 1
      simp [String.utf8Len_cons, hopener]
      omega
  | (inside, later) :: more, h, offset => by
      simp only [substitutionsFit, Bool.and_eq_true] at h
      obtain ⟨⟨hinside, hlater⟩, hmore⟩ := h
      obtain ⟨st', -, hdepth, htemplates, hscan⟩ := reads_elements
        ('}' :: (later ++ substitutionChars more ++ rest)) st.remembers_openSubstitution
        inside hinside
      have hafter : State.after { st' with templates := st.templates } false = st.after false := by
        simp only [State.after, hdepth, State.openSubstitution]
      have hchars : text ++ substitutionChars ((inside, later) :: more) ++ rest =
          text ++ '$' :: '{' :: (charsOf inside ++
            '}' :: (later ++ substitutionChars more ++ rest)) := by
        simp [substitutionChars]
      have hlength : utf8Len (text ++ substitutionChars ((inside, later) :: more)) =
          utf8Len text + 2 + utf8Len (charsOf inside) + 1 +
            utf8Len (later ++ substitutionChars more) := by
        simp only [substitutionChars, String.utf8Len_append, utf8Len_ascii (c := '$') rfl,
          utf8Len_ascii (c := '{') rfl, utf8Len_ascii (c := '}') rfl]
        omega
      have hoffset : offset + utf8Len (opener :: (text ++ ['$', '{'])) =
          offset + 1 + utf8Len text + 2 := by
        rw [utf8Len_ascii hopener, String.utf8Len_append]
        simp only [utf8Len_ascii (c := '$') rfl, utf8Len_ascii (c := '{') rfl, String.utf8Len_nil]
        omega
      rw [hchars, template_opens htext, scan_lexeme, hoffset, hscan, scan_cons, step_closeBrace,
        closeBrace_substitution st hdepth htemplates, scan_template hlater _ (by rfl) more hmore,
        hafter, substitutionComments, List.append_assoc, hlength]
      simp only [Nat.add_assoc]

theorem reads_elements {st : State} {before : List Element} (rest : List Char)
    (hst : st.Remembers before) : (elements : List Element) →
    allFit true before rest.head? elements = true →
      Reads st (charsOf elements) (fun offset => commentsOf offset elements)
        (elements.reverseAux before) rest
  | [], _ => ⟨st, hst, rfl, rfl, fun _ => rfl⟩
  | element :: elements, h => by
      rw [allFit, Bool.and_eq_true, ← List.head?_append] at h
      exact (reads_element _ hst element h.1).append fun st' hst' =>
        reads_elements rest hst' elements h.2

end

end JsPrune.Scanner

namespace JsPrune.Lexical

open String (utf8Len)
open Scanner

theorem Script.splitHashbang_chars {transparent : Bool} {script : Script}
    (hfits : script.fits transparent = true) :
    splitHashbang script.chars = (script.hashbang, charsOf script.elements) := by
  rw [Script.fits, Bool.and_eq_true] at hfits
  obtain ⟨-, hfirst⟩ := hfits
  rw [Script.chars, Script.hashbang]
  cases hinterpreter : script.interpreter with
  | some line =>
      simp only [hinterpreter, Bool.and_eq_true] at hfirst
      rw [List.cons_append, List.cons_append, splitHashbang, splitLine_body hfirst.1 hfirst.2]
      rfl
  | none =>
      simp only [hinterpreter, Bool.not_eq_true'] at hfirst
      refine splitHashbang.eq_2 _ fun cs hcs => ?_
      rw [List.nil_append] at hcs
      rw [hcs] at hfirst
      exact absurd hfirst (by simp)

/-- The scanner finds exactly the comments of a well formed script, where a double mark is looked
through. -/
theorem Script.scan_exact (script : Script) (hfits : script.fits true = true) :
    Comment.all script.source = script.comments := by
  have hinitial : State.initial.Remembers [] := ⟨rfl, rfl, by simp [State.initial]⟩
  have hsequence : allFit true [] none script.elements = true := by
    rw [Script.fits, Bool.and_eq_true] at hfits
    exact hfits.1
  obtain ⟨st', -, -, -, hscan⟩ := reads_elements [] hinitial script.elements hsequence
  have hchars : script.source.toList = script.chars := String.toList_ofList
  rw [Comment.all_eq_scan, hchars, Script.splitHashbang_chars hfits, ← List.append_nil (charsOf _),
    hscan, scan_nil, List.append_nil]
  rfl

/-- Behind an interpreter line, templates and groups inside each other, with comment openers in every
literal:

    a++/b`//${{/[/*]/g/* 1 */}`${'//'}`// 2
    }/*`// 3
-/
def nestedScript : Script :=
  ⟨some "/bin/node".toList,
    [.space ['\n'], .word ['a'], .mark ['+', '+'], .mark ['/'], .word ['b'],
      .template "//".toList
        [([.group [.regex "[/*]".toList ['g'], .comment .block " 1 ".toList],
          .template [] [([.string '\'' "//".toList], [])],
          .comment .line " 2".toList, .space ['\n']], "/*".toList)],
      .comment .line " 3".toList]⟩

theorem scan_exact_nested :
    nestedScript.fits true = true ∧ Comment.all nestedScript.source = nestedScript.comments :=
  ⟨by decide, Script.scan_exact nestedScript (by decide)⟩

example : nestedScript.comments.map Comment.text = ["/* 1 */", "// 2", "// 3"] := by decide

/-- A quote in what would be a regular expression behind a double mark, then a comment. -/
def regexBehindDouble : Script :=
  ⟨none, [.word ['a'], .mark ['+', '+'], .space [' '], .regex ['\''] [], .space [' '],
    .comment .line ['x']]⟩

/-- If every double mark were a punctuator behind which a regular expression can stand, then the
scanner would miss a comment: it divides behind `a++`, and so it takes the quote for a string. -/
theorem scan_misses_behind_double :
    regexBehindDouble.source = "a++ /'/ //x" ∧ regexBehindDouble.fits false = true ∧
      Comment.all regexBehindDouble.source = [] ∧
      regexBehindDouble.comments.map Comment.text = ["//x"] := by
  decide

end JsPrune.Lexical
