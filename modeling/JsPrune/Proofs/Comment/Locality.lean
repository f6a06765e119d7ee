import JsPrune.Proofs.Comment.Scan
import JsPrune.Proofs.Text.Utf8
/-!
# What a step depends on

A step of the scanner looks at the lexeme that it takes and at one character behind it.  It takes the
same with anything else behind the lexeme, as long as this starts with the same character, or with
another blank in the place of a blank.
-/

namespace JsPrune.Scanner

open String (utf8Len)

/-! ## The character behind a lexeme -/

/-- Horizontal whitespace, as the padding of comments has it. -/
def isBlankChar (c : Char) : Bool :=
  c == ' ' || c == '\t' || c == '\x0b' || c == '\x0c'

theorem isWordPart_of_blank {c : Char} (h : isBlankChar c = true) : isWordPart c = false := by
  simp only [isBlankChar, Bool.or_eq_true, beq_iff_eq] at h
  rcases h with ((rfl | rfl) | rfl) | rfl <;> decide

theorem isDigit_of_blank {c : Char} (h : isBlankChar c = true) : c.isDigit = false := by
  rw [Bool.eq_false_iff]
  intro hdigit
  have hword := isWordPart_of_isDigit hdigit
  rw [isWordPart_of_blank h] at hword
  exact absurd hword (by simp)

theorem isLineTerminator_of_blank {c : Char} (h : isBlankChar c = true) :
    isLineTerminator c = false := by
  simp only [isBlankChar, Bool.or_eq_true, beq_iff_eq] at h
  rcases h with ((rfl | rfl) | rfl) | rfl <;> decide

theorem not_blank_of_or {c d e : Char} (h : (c == d || c == e) = true)
    (hd : isBlankChar d = false) (he : isBlankChar e = false) : isBlankChar c = false := by
  rw [Bool.or_eq_true, beq_iff_eq, beq_iff_eq] at h
  rcases h with rfl | rfl
  · exact hd
  · exact he

/-- What may stand behind a lexeme and looks the same from there: the same character, two blanks, or
the end both times. -/
def Alike (next next' : Option Char) : Prop :=
  next = next' ∨ next.any isBlankChar = true ∧ next'.any isBlankChar = true

namespace Alike

variable {next next' : Option Char}

@[refl] theorem refl (next : Option Char) : Alike next next := Or.inl rfl

theorem append {more rest : List Char} (front : List Char) (h : Alike more.head? rest.head?) :
    Alike (front ++ more).head? (front ++ rest).head? := by
  cases front with
  | nil => exact h
  | cons c front => rfl

theorem any_eq {p : Char → Bool} {answer : Bool} (h : Alike next next')
    (hp : ∀ c, isBlankChar c = true → p c = answer) : next.any p = next'.any p := by
  rcases h with rfl | ⟨hblank, hblank'⟩
  · rfl
  · obtain ⟨c, rfl, hc⟩ := (Option.any_eq_true _ _).mp hblank
    obtain ⟨d, rfl, hd⟩ := (Option.any_eq_true _ _).mp hblank'
    rw [Option.any_some, Option.any_some, hp c hc, hp d hd]

theorem beq_some_eq {c : Char} (h : Alike next next') (hc : isBlankChar c = false) :
    (next == some c) = (next' == some c) := by
  rcases h with rfl | ⟨hblank, hblank'⟩
  · rfl
  · have hne : ∀ o : Option Char, o.any isBlankChar = true → (o == some c) = false := by
      intro o ho
      rw [beq_eq_false_iff_ne]
      rintro rfl
      rw [Option.any_some, hc] at ho
      exact absurd ho (by simp)
    rw [hne next hblank, hne next' hblank']

theorem eq_some_iff {c : Char} (h : Alike next next') (hc : isBlankChar c = false) :
    next = some c ↔ next' = some c := by
  rw [← beq_iff_eq, h.beq_some_eq hc, beq_iff_eq]

end Alike

/-! ## Splits -/

variable {cs more : List Char}

theorem splitWhile_local {p : Char → Bool} {answer : Bool}
    (hp : ∀ c, isBlankChar c = true → p c = answer)
    (hmore : Alike more.head? (splitWhile p cs).2.head?) :
    splitWhile p ((splitWhile p cs).1 ++ more) = ((splitWhile p cs).1, more) := by
  have hstop := splitWhile_snd p cs
  refine splitWhile_run (List.all_eq_true.mpr (splitWhile_fst p cs)) ?_
  rw [hmore.any_eq hp, Bool.eq_false_iff]
  intro hgoes
  obtain ⟨c, hc, hp⟩ := (Option.any_eq_true _ _).mp hgoes
  rw [hc, Option.all_some, hp] at hstop
  exact absurd hstop (by simp)

theorem splitWord_local (hmore : Alike more.head? (splitWhile isWordPart cs).2.head?) :
    splitWhile isWordPart ((splitWhile isWordPart cs).1 ++ more) =
      ((splitWhile isWordPart cs).1, more) :=
  splitWhile_local (fun _ => isWordPart_of_blank) hmore

theorem splitLine_local (hmore : Alike more.head? (splitLine cs).2.head?) :
    splitLine ((splitLine cs).1 ++ more) = ((splitLine cs).1, more) := by
  have hp : ∀ c, isBlankChar c = true → (!isLineTerminator c) = true := by
    intro c hc
    rw [isLineTerminator_of_blank hc]
    rfl
  exact splitWhile_local hp hmore

theorem splitBlock_local (hne : (splitBlock cs).1.2 ≠ [])
    (hmore : Alike more.head? (splitBlock cs).1.2.head?) :
    splitBlock ((splitBlock cs).1.1 ++ more) = (((splitBlock cs).1.1, more), (splitBlock cs).2) := by
  fun_induction splitBlock cs with
  | case1 => exact absurd rfl hne
  | case2 cs => rfl
  | case3 c cs hpair split closed hsplit ih =>
      have hcs := splitBlock_append cs
      rw [hsplit] at ih hcs
      have hpair' : ∀ ds, c = '*' → split.1 ++ more = '/' :: ds → False := by
        intro ds hc hds
        have hhead := (hmore.append split.1).eq_some_iff (c := '/') rfl
        rw [hds, push, hcs, List.head?_cons] at hhead
        exact hpair _ hc (eq_cons_tail_of_head? (hhead.mp rfl))
      change splitBlock (c :: (split.1 ++ more)) = _
      rw [splitBlock.eq_3 _ _ hpair', ih hne hmore]
      rfl

/-- A backslash that escapes nothing is the last character of the script. -/
theorem ne_backslash {c : Char} (h : ∀ d ds, c = '\\' → cs = d :: ds → False) (hne : cs ≠ []) :
    c ≠ '\\' := by
  intro hc
  cases cs with
  | nil => exact hne rfl
  | cons d ds => exact h d ds hc rfl

theorem append_ne_nil_of_split {split : List Char × List Char} (h : split.1 ++ split.2 = cs)
    (hne : split.2 ≠ []) : cs ≠ [] := by
  rw [← h]
  exact List.append_ne_nil_of_right_ne_nil _ hne

theorem splitString_plain {quote c : Char} (hc : c ≠ '\\') (cs : List Char) :
    splitString quote (c :: cs) =
      if c == '\n' || c == '\r' then ([], c :: cs)
      else if c == quote then ([c], cs)
      else push [c] (splitString quote cs) :=
  splitString.eq_4 _ _ _ (fun _ h => absurd h hc) (fun _ _ h => absurd h hc)

theorem splitString_local {quote : Char} (hne : (splitString quote cs).2 ≠ [])
    (hmore : Alike more.head? (splitString quote cs).2.head?) :
    splitString quote ((splitString quote cs).1 ++ more) = ((splitString quote cs).1, more) := by
  fun_induction splitString quote cs with
  | case1 => exact absurd rfl hne
  | case2 cs ih =>
      change splitString quote ('\\' :: '\r' :: '\n' :: ((splitString quote cs).1 ++ more)) = _
      rw [splitString, ih hne hmore]
      rfl
  | case3 c cs hpair ih =>
      have hcs := splitString_append quote cs
      have hpair' : ∀ ds, c = '\r' → (splitString quote cs).1 ++ more = '\n' :: ds → False := by
        intro ds hc hds
        have hhead := (hmore.append (splitString quote cs).1).eq_some_iff (c := '\n') rfl
        rw [hds, push, hcs, List.head?_cons] at hhead
        exact hpair _ hc (eq_cons_tail_of_head? (hhead.mp rfl))
      change splitString quote ('\\' :: c :: ((splitString quote cs).1 ++ more)) = _
      rw [splitString.eq_3 _ _ _ hpair', ih hne hmore]
      rfl
  | case4 c cs _ hescape hbreak =>
      -- At a line break nothing is taken.
      have hc : c ≠ '\\' := by
        rintro rfl
        exact absurd hbreak (by decide)
      have hhead := (hmore.eq_some_iff (not_blank_of_or hbreak rfl rfl)).mpr List.head?_cons
      rw [List.nil_append, eq_cons_tail_of_head? hhead, splitString_plain hc, if_pos hbreak]
  | case5 c cs _ hescape hbreak hquote =>
      have hc := ne_backslash hescape hne
      rw [List.singleton_append, splitString_plain hc, if_neg hbreak, if_pos hquote]
  | case6 c cs _ hescape hbreak hquote ih =>
      have hc := ne_backslash hescape (append_ne_nil_of_split (splitString_append quote cs) hne)
      change splitString quote (c :: ((splitString quote cs).1 ++ more)) = _
      rw [splitString_plain hc, if_neg hbreak, if_neg hquote, ih hne hmore]
      rfl

theorem splitTemplate_local (hne : (splitTemplate cs).1.2 ≠ [])
    (hmore : Alike more.head? (splitTemplate cs).1.2.head?) :
    splitTemplate ((splitTemplate cs).1.1 ++ more) =
      (((splitTemplate cs).1.1, more), (splitTemplate cs).2) := by
  fun_induction splitTemplate cs with
  | case1 => exact absurd rfl hne
  | case2 c cs split opens hsplit ih =>
      rw [hsplit] at ih
      change splitTemplate ('\\' :: c :: (split.1 ++ more)) = _
      rw [splitTemplate, ih hne hmore]
      rfl
  | case3 cs => rfl
  | case4 cs => rfl
  | case5 c cs hescape hbacktick hopen split opens hsplit ih =>
      have hcs := splitTemplate_append cs
      rw [hsplit] at ih hcs
      have hc := ne_backslash hescape (append_ne_nil_of_split hcs hne)
      have hopen' : ∀ ds, c = '$' → split.1 ++ more = '{' :: ds → False := by
        intro ds hc hds
        have hhead := (hmore.append split.1).eq_some_iff (c := '{') rfl
        rw [hds, push, hcs, List.head?_cons] at hhead
        exact hopen _ hc (eq_cons_tail_of_head? (hhead.mp rfl))
      change splitTemplate (c :: (split.1 ++ more)) = _
      rw [splitTemplate.eq_5 _ _ (fun _ _ h => absurd h hc) hbacktick hopen', ih hne hmore]
      rfl

theorem splitRegex_local {inClass : Bool} (hne : (splitRegex inClass cs).2 ≠ [])
    (hmore : Alike more.head? (splitRegex inClass cs).2.head?) :
    splitRegex inClass ((splitRegex inClass cs).1 ++ more) =
      ((splitRegex inClass cs).1, more) := by
  fun_induction splitRegex inClass cs with
  | case1 => exact absurd rfl hne
  | case2 inClass c cs ih =>
      change splitRegex inClass ('\\' :: c :: ((splitRegex inClass cs).1 ++ more)) = _
      rw [splitRegex, ih hne hmore]
      rfl
  | case3 inClass c cs hescape hbreak =>
      have hc : c ≠ '\\' := by
        rintro rfl
        exact absurd hbreak (by decide)
      have hhead := (hmore.eq_some_iff (not_blank_of_or hbreak rfl rfl)).mpr List.head?_cons
      rw [List.nil_append, eq_cons_tail_of_head? hhead,
        splitRegex.eq_3 _ _ _ (fun _ _ h => absurd h hc), if_pos hbreak]
  | case4 inClass c cs hescape hbreak hopen ih =>
      have hc := ne_backslash hescape (append_ne_nil_of_split (splitRegex_append true cs) hne)
      change splitRegex inClass (c :: ((splitRegex true cs).1 ++ more)) = _
      rw [splitRegex.eq_3 _ _ _ (fun _ _ h => absurd h hc), if_neg hbreak, if_pos hopen,
        ih hne hmore]
      rfl
  | case5 inClass c cs hescape hbreak hopen hclose ih =>
      have hc := ne_backslash hescape (append_ne_nil_of_split (splitRegex_append false cs) hne)
      change splitRegex inClass (c :: ((splitRegex false cs).1 ++ more)) = _
      rw [splitRegex.eq_3 _ _ _ (fun _ _ h => absurd h hc), if_neg hbreak, if_neg hopen,
        if_pos hclose, ih hne hmore]
      rfl
  | case6 inClass c cs hescape hbreak hopen hclose hend =>
      have hc := ne_backslash hescape
        (append_ne_nil_of_split (splitWhile_append isWordPart cs) hne)
      change splitRegex inClass (c :: ((splitWhile isWordPart cs).1 ++ more)) = _
      rw [splitRegex.eq_3 _ _ _ (fun _ _ h => absurd h hc), if_neg hbreak, if_neg hopen,
        if_neg hclose, if_pos hend, splitWord_local hmore]
      rfl
  | case7 inClass c cs hescape hbreak hopen hclose hend ih =>
      have hc := ne_backslash hescape (append_ne_nil_of_split (splitRegex_append inClass cs) hne)
      change splitRegex inClass (c :: ((splitRegex inClass cs).1 ++ more)) = _
      rw [splitRegex.eq_3 _ _ _ (fun _ _ h => absurd h hc), if_neg hbreak, if_neg hopen,
        if_neg hclose, if_neg hend, ih hne hmore]
      rfl

/-! ## Steps -/

/-- If the first of two moves takes `c :: tail` and leaves something, then the second one is the same
with `more` in the place of what is left. -/
def Local (c : Char) (tail more : List Char) (move move' : Move) : Prop :=
  move.taken = c :: tail → move.rest ≠ [] → Alike more.head? move.rest.head? →
    move' = { move with rest := more }

namespace Local

variable {c : Char} {tail : List Char}

theorem ite {p : Prop} [Decidable p] {m m' n n' : Move} (hpos : p → Local c tail more m m')
    (hneg : ¬ p → Local c tail more n n') :
    Local c tail more (if p then m else n) (if p then m' else n') := by
  split_ifs with hp
  · exact hpos hp
  · exact hneg hp

theorem single {next : State} :
    Local c tail more (lexeme ([c], cs) next) (lexeme ([c], tail ++ more) next) := by
  intro htaken _ _
  obtain rfl : [] = tail := (List.cons.inj htaken).2
  rfl

theorem double {d : Char} {next : State} :
    Local c tail more (lexeme ([c, d], cs.tail) next)
      (lexeme ([c, d], (tail ++ more).tail) next) := by
  intro htaken _ _
  obtain rfl : [d] = tail := (List.cons.inj htaken).2
  rfl

theorem split {f : List Char → List Char × List Char} {next : State}
    (hf : (f cs).2 ≠ [] → Alike more.head? (f cs).2.head? →
      f ((f cs).1 ++ more) = ((f cs).1, more)) :
    Local c tail more (lexeme (push [c] (f cs)) next)
      (lexeme (push [c] (f (tail ++ more))) next) := by
  intro htaken hne hmore
  obtain rfl : (f cs).1 = tail := (List.cons.inj htaken).2
  rw [hf hne hmore]
  rfl

end Local

variable {st : State} {c : Char} {tail : List Char}

theorem local_slash (hnext : Alike (tail ++ more).head? cs.head?) :
    Local '/' tail more (slash st cs) (slash st (tail ++ more)) := by
  have hother : ∀ d, isBlankChar d = false → cs.head? ≠ some d → (tail ++ more).head? ≠ some d :=
    fun d hd => (hnext.eq_some_iff hd).not.mpr
  by_cases hline : cs.head? = some '/'
  · rw [eq_cons_tail_of_head? hline]
    intro htaken _ hmore
    obtain rfl : '/' :: (splitLine cs.tail).1 = tail := (List.cons.inj htaken).2
    simp only [List.cons_append, slash]
    rw [splitLine_local hmore]
    rfl
  by_cases hblock : cs.head? = some '*'
  · rw [eq_cons_tail_of_head? hblock]
    intro htaken hne hmore
    obtain rfl : '*' :: (splitBlock cs.tail).1.1 = tail := (List.cons.inj htaken).2
    simp only [List.cons_append, slash]
    rw [splitBlock_local hne hmore]
    rfl
  cases hst : st.regexAllowed with
  | true =>
      rw [slash_regex hst hline hblock, slash_regex hst (hother _ rfl hline) (hother _ rfl hblock)]
      exact Local.split splitRegex_local
  | false =>
      by_cases hassign : cs.head? = some '='
      · intro htaken
        rw [eq_cons_tail_of_head? hassign, slash_assign hst] at htaken ⊢
        obtain rfl : ['='] = tail := (List.cons.inj htaken).2
        exact fun _ _ => slash_assign hst more
      · intro htaken
        rw [slash_divide hst hline hblock hassign] at htaken ⊢
        obtain rfl : [] = tail := (List.cons.inj htaken).2
        exact fun _ _ => slash_divide hst (hother _ rfl hline) (hother _ rfl hblock)
          (hother _ rfl hassign)

theorem local_template :
    Local c tail more (template st c cs) (template st c (tail ++ more)) := by
  intro htaken hne hmore
  obtain rfl : (splitTemplate cs).1.1 = tail := (List.cons.inj htaken).2
  simp only [template]
  rw [splitTemplate_local hne hmore]
  rfl

theorem local_closeBrace :
    Local '}' tail more (closeBrace st cs) (closeBrace st (tail ++ more)) := by
  unfold closeBrace
  cases st.templates with
  | nil => exact Local.single
  | cons d outer => exact Local.ite (fun _ => local_template) fun _ => Local.single

theorem local_dot (hnext : Alike (tail ++ more).head? cs.head?) :
    Local '.' tail more (dot st cs) (dot st (tail ++ more)) := by
  unfold dot
  rw [hnext.any_eq fun _ => isDigit_of_blank]
  exact Local.ite (fun _ => Local.split fun _ => splitWord_local) fun _ => Local.single

theorem local_run (next : List Char → State) (hc : isWordPart c = true) :
    Local c tail more
      (lexeme (splitWhile isWordPart (c :: cs)) (next (splitWhile isWordPart (c :: cs)).1))
      (lexeme (splitWhile isWordPart (c :: (tail ++ more)))
        (next (splitWhile isWordPart (c :: (tail ++ more))).1)) := by
  intro htaken _ hmore
  rw [splitWhile_cons hc] at htaken hmore ⊢
  obtain rfl : (splitWhile isWordPart cs).1 = tail := (List.cons.inj htaken).2
  rw [splitWhile_cons hc, splitWord_local hmore]
  rfl

/-- A step takes the same with anything else behind it that starts alike. -/
theorem local_step (st : State) (c : Char) (cs tail more : List Char) :
    Local c tail more (step st c cs) (step st c (tail ++ more)) := by
  intro htaken hne hmore
  have hnext : Alike (tail ++ more).head? cs.head? := by
    have hchars := chars_step st c cs
    rw [Move.chars, htaken, List.cons_append, List.cons.injEq] at hchars
    rw [← hchars.2]
    exact hmore.append tail
  have hdouble : ((c == '+' || c == '-') && (tail ++ more).head? == some c) =
      ((c == '+' || c == '-') && cs.head? == some c) := by
    cases hsign : c == '+' || c == '-' with
    | false => rfl
    | true => rw [hnext.beq_some_eq (not_blank_of_or hsign rfl rfl)]
  have hoptional := hnext.beq_some_eq (c := '.') rfl
  revert htaken hne hmore
  change Local c tail more _ _
  unfold step
  rw [hdouble, hoptional]
  refine Local.ite ?slash fun _ => Local.ite (fun _ => Local.split splitString_local) fun _ =>
    Local.ite (fun _ => local_template) fun _ => Local.ite (fun _ => Local.single) fun _ =>
    Local.ite ?closeBrace fun _ => Local.ite (fun _ => Local.single) fun _ =>
    Local.ite ?dot fun _ => Local.ite (fun _ => Local.double) fun _ =>
    Local.ite ?number fun _ => Local.ite ?word fun _ =>
    Local.ite (fun _ => Local.single) fun _ => Local.ite (fun _ => Local.double) fun _ =>
    Local.single
  case slash =>
    intro hc
    obtain rfl := beq_iff_eq.mp hc
    exact local_slash hnext
  case closeBrace =>
    intro hc
    obtain rfl := beq_iff_eq.mp hc
    exact local_closeBrace
  case dot =>
    intro hc
    obtain rfl := beq_iff_eq.mp hc
    exact local_dot hnext
  case number =>
    exact fun hc => local_run (fun _ => st.after false) (isWordPart_of_isDigit hc)
  case word =>
    exact fun hc => local_run (fun name =>
      st.after (!st.afterDot && expressionKeywords.contains (String.ofList name))) hc

/-- A step that does not reach beyond the characters in front of `rest` takes the same with `rest'` in
its place, if the two start alike. -/
theorem step_of_ahead (st : State) (c : Char) (front : List Char) {rest rest' : List Char}
    (hne : rest ≠ []) (hhead : Alike rest'.head? rest.head?)
    (hle : utf8Len (step st c (front ++ rest)).taken ≤ utf8Len (c :: front)) :
    ∃ part, c :: front = (step st c (front ++ rest)).taken ++ part ∧
      (step st c (front ++ rest)).rest = part ++ rest ∧
      step st c (front ++ rest') = { step st c (front ++ rest) with rest := part ++ rest' } := by
  have hchars : (step st c (front ++ rest)).taken ++ (step st c (front ++ rest)).rest =
      c :: front ++ rest := chars_step st c (front ++ rest)
  obtain ⟨part, hfront, hrest⟩ := Text.exists_append_of_utf8Len_le hchars hle
  obtain ⟨tail, htaken⟩ := exists_taken_step st c (front ++ rest)
  refine ⟨part, hfront, hrest, ?_⟩
  obtain rfl : front = tail ++ part := by
    rw [htaken, List.cons_append] at hfront
    exact (List.cons.inj hfront).2
  rw [List.append_assoc tail part rest']
  refine local_step st c _ tail (part ++ rest') htaken ?_ ?_
  · rw [hrest]
    exact List.append_ne_nil_of_right_ne_nil part hne
  · rw [hrest]
    exact hhead.append part

end JsPrune.Scanner
