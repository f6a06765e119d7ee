import JsPrune.Comment.Scanner
import Mathlib.Data.String.Basic
/-!
# Lexemes

A step of the scanner splits the characters that are left and loses none of them.  A comment that it
splits off has one of three shapes: a line comment before the end of its line, a block comment with
its closing delimiter, or a block comment without one at the end of the script.
-/

namespace JsPrune.Scanner

open String (utf8Len)

theorem byteLength_eq_utf8Len (cs : List Char) : byteLength cs = utf8Len cs := by
  induction cs with
  | nil => rfl
  | cons c cs ih =>
      unfold byteLength at ih ⊢
      rw [List.foldr_cons, ih, String.utf8Len_cons, Nat.add_comm]

/-! ## Splits lose nothing -/

theorem push_append {cs ds es : List Char} {split : List Char × List Char}
    (h : split.1 ++ split.2 = ds) (hes : es = cs ++ ds) :
    (push cs split).1 ++ (push cs split).2 = es := by
  rw [hes, ← h]
  exact List.append_assoc _ _ _

theorem splitWhile_append (p : Char → Bool) (cs : List Char) :
    (splitWhile p cs).1 ++ (splitWhile p cs).2 = cs := by
  induction cs with
  | nil => rfl
  | cons c cs ih =>
      rw [splitWhile]
      split
      · exact push_append ih rfl
      · rfl

theorem splitBlock_append (cs : List Char) :
    (splitBlock cs).1.1 ++ (splitBlock cs).1.2 = cs := by
  fun_induction splitBlock cs with
  | case1 => rfl
  | case2 cs => rfl
  | case3 c cs _ split closed hsplit ih =>
      rw [hsplit] at ih
      exact push_append ih rfl

theorem splitString_append (quote : Char) (cs : List Char) :
    (splitString quote cs).1 ++ (splitString quote cs).2 = cs := by
  fun_induction splitString quote cs with
  | case1 => rfl
  | case2 cs ih => exact push_append ih rfl
  | case3 c cs _ ih => exact push_append ih rfl
  | case4 => rfl
  | case5 => rfl
  | case6 c cs _ _ _ _ ih => exact push_append ih rfl

theorem splitTemplate_append (cs : List Char) :
    (splitTemplate cs).1.1 ++ (splitTemplate cs).1.2 = cs := by
  fun_induction splitTemplate cs with
  | case1 => rfl
  | case2 c cs split opens hsplit ih =>
      rw [hsplit] at ih
      exact push_append ih rfl
  | case3 cs => rfl
  | case4 cs => rfl
  | case5 c cs _ _ _ split opens hsplit ih =>
      rw [hsplit] at ih
      exact push_append ih rfl

theorem splitRegex_append (inClass : Bool) (cs : List Char) :
    (splitRegex inClass cs).1 ++ (splitRegex inClass cs).2 = cs := by
  fun_induction splitRegex inClass cs with
  | case1 => rfl
  | case2 inClass c cs ih => exact push_append ih rfl
  | case3 => rfl
  | case4 inClass c cs _ _ _ ih => exact push_append ih rfl
  | case5 inClass c cs _ _ _ _ ih => exact push_append ih rfl
  | case6 => exact push_append (splitWhile_append _ _) rfl
  | case7 inClass c cs _ _ _ _ _ ih => exact push_append ih rfl

def Move.chars (move : Move) : List Char := move.taken ++ move.rest

theorem chars_slash (st : State) (cs : List Char) : (slash st cs).chars = '/' :: cs := by
  unfold slash
  split
  · exact push_append (splitWhile_append _ _) rfl
  · exact push_append (splitBlock_append _) rfl
  · split
    · exact push_append (splitRegex_append _ _) rfl
    · split <;> rfl

theorem chars_template (st : State) (opener : Char) (cs : List Char) :
    (template st opener cs).chars = opener :: cs :=
  push_append (splitTemplate_append cs) rfl

theorem chars_closeBrace (st : State) (cs : List Char) : (closeBrace st cs).chars = '}' :: cs := by
  unfold closeBrace
  split
  · rfl
  · split
    · exact chars_template _ _ _
    · rfl

theorem chars_dot (st : State) (cs : List Char) : (dot st cs).chars = '.' :: cs := by
  unfold dot
  split
  · exact push_append (splitWhile_append _ _) rfl
  · rfl

theorem eq_cons_tail_of_head? {c : Char} {cs : List Char} (h : cs.head? = some c) :
    cs = c :: cs.tail := by
  cases cs with
  | nil => exact absurd h (by simp)
  | cons d cs => rw [List.head?_cons, Option.some_inj] at h; rw [h, List.tail_cons]

/-- What a step can do, by the character it meets. -/
@[elab_as_elim]
theorem step_cases {motive : Move → Prop} (st : State) (c : Char) (cs : List Char)
    (slash : c = '/' → motive (slash st cs))
    (string : c = '\'' ∨ c = '"' → motive (lexeme (push [c] (splitString c cs)) (st.after false)))
    (backtick : c = '\x60' → motive (template st c cs))
    (openBrace : c = '{' → motive (lexeme ([c], cs) { st.after true with depth := st.depth + 1 }))
    (closeBrace : c = '}' → motive (closeBrace st cs))
    (closer : c = ')' ∨ c = ']' → motive (lexeme ([c], cs) (st.after false)))
    (dot : c = '.' → motive (dot st cs))
    (double : c = '+' ∨ c = '-' → cs.head? = some c → motive (lexeme ([c, c], cs.tail) st))
    (number : c.isDigit = true →
      motive (lexeme (splitWhile isWordPart (c :: cs)) (st.after false)))
    (word : c.isDigit = false → isWordPart c = true → motive (word st (c :: cs)))
    (space : isSpace c = true → motive (lexeme ([c], cs) st))
    (optional : c = '?' → cs.head? = some '.' →
      motive (lexeme ([c, '.'], cs.tail) { st with regexAllowed := true, afterDot := true }))
    (other : isWordPart c = false → isSpace c = false →
      motive (lexeme ([c], cs) (st.after true))) :
    motive (step st c cs) := by
  unfold step
  by_cases hslash : (c == '/') = true
  · rw [if_pos hslash]
    exact slash (beq_iff_eq.mp hslash)
  rw [if_neg hslash]
  by_cases hstring : (c == '\'' || c == '"') = true
  · rw [if_pos hstring]
    exact string (by simpa using hstring)
  rw [if_neg hstring]
  by_cases hbacktick : (c == '\x60') = true
  · rw [if_pos hbacktick]
    exact backtick (beq_iff_eq.mp hbacktick)
  rw [if_neg hbacktick]
  by_cases hopen : (c == '{') = true
  · rw [if_pos hopen]
    exact openBrace (beq_iff_eq.mp hopen)
  rw [if_neg hopen]
  by_cases hclose : (c == '}') = true
  · rw [if_pos hclose]
    exact closeBrace (beq_iff_eq.mp hclose)
  rw [if_neg hclose]
  by_cases hcloser : (c == ')' || c == ']') = true
  · rw [if_pos hcloser]
    exact closer (by simpa using hcloser)
  rw [if_neg hcloser]
  by_cases hdot : (c == '.') = true
  · rw [if_pos hdot]
    exact dot (beq_iff_eq.mp hdot)
  rw [if_neg hdot]
  by_cases hdouble : ((c == '+' || c == '-') && cs.head? == some c) = true
  · rw [if_pos hdouble]
    rw [Bool.and_eq_true, Bool.or_eq_true, beq_iff_eq, beq_iff_eq, beq_iff_eq] at hdouble
    exact double hdouble.1 hdouble.2
  rw [if_neg hdouble]
  by_cases hdigit : c.isDigit = true
  · rw [if_pos hdigit]
    exact number hdigit
  rw [if_neg hdigit]
  by_cases hword : isWordPart c = true
  · rw [if_pos hword]
    exact word (Bool.eq_false_iff.mpr hdigit) hword
  rw [if_neg hword]
  by_cases hspace : isSpace c = true
  · rw [if_pos hspace]
    exact space hspace
  rw [if_neg hspace]
  by_cases hoptional : (c == '?' && cs.head? == some '.') = true
  · rw [if_pos hoptional]
    rw [Bool.and_eq_true, beq_iff_eq, beq_iff_eq] at hoptional
    exact optional hoptional.1 hoptional.2
  rw [if_neg hoptional]
  exact other (Bool.eq_false_iff.mpr hword) (Bool.eq_false_iff.mpr hspace)

theorem chars_step (st : State) (c : Char) (cs : List Char) : (step st c cs).chars = c :: cs := by
  refine step_cases st c cs ?slash ?string ?backtick ?openBrace ?closeBrace ?closer ?dot ?double
    ?number ?word ?space ?optional ?other
  case slash =>
    rintro rfl
    exact chars_slash st cs
  case string => exact fun _ => push_append (splitString_append c cs) rfl
  case backtick => exact fun _ => chars_template st c cs
  case closeBrace =>
    rintro rfl
    exact chars_closeBrace st cs
  case dot =>
    rintro rfl
    exact chars_dot st cs
  case double => exact fun _ hnext => congrArg (c :: ·) (eq_cons_tail_of_head? hnext).symm
  case optional => exact fun _ hnext => congrArg (c :: ·) (eq_cons_tail_of_head? hnext).symm
  case number => exact fun _ => splitWhile_append isWordPart (c :: cs)
  case word => exact fun _ _ => splitWhile_append isWordPart (c :: cs)
  case openBrace => exact fun _ => rfl
  case closer => exact fun _ => rfl
  case space => exact fun _ => rfl
  case other => exact fun _ _ => rfl

/-! ## The shapes of comments -/

/-- What a comment of a kind takes, and what it leaves. -/
inductive Shape : Comment.Kind → Bool → List Char → List Char → Prop where
  | line (body rest : List Char) (hbody : ∀ c ∈ body, isLineTerminator c = false)
      (hrest : rest.head?.all isLineTerminator = true) :
      Shape .line true ('/' :: '/' :: body) rest
  | block (body rest : List Char) : Shape .block true ('/' :: '*' :: body ++ ['*', '/']) rest
  | unterminated (body : List Char) : Shape .block false ('/' :: '*' :: body) []

theorem Shape.eq_cons {kind : Comment.Kind} {closed : Bool} {cs rest : List Char}
    (h : Shape kind closed cs rest) : ∃ c body, cs = '/' :: c :: body := by
  cases h with
  | line => exact ⟨_, _, rfl⟩
  | block => exact ⟨_, _, rfl⟩
  | unterminated => exact ⟨_, _, rfl⟩

/-- A comment ends with a slash or with the script, or it holds no line terminator and one follows
it. -/
theorem Shape.ends {kind : Comment.Kind} {closed : Bool} {cs rest : List Char}
    (h : Shape kind closed cs rest) :
    (∃ body, cs = body ++ ['/']) ∨ rest = [] ∨
      cs.any isLineTerminator = false ∧ rest.head?.all isLineTerminator = true := by
  cases h with
  | line body rest hbody hrest =>
      refine Or.inr (Or.inr ⟨List.any_eq_false.mpr fun c hc => ?_, hrest⟩)
      rcases List.mem_cons.mp hc with rfl | hc
      · decide
      · rcases List.mem_cons.mp hc with rfl | hc
        · decide
        · simp [hbody c hc]
  | block body rest => exact Or.inl ⟨'/' :: '*' :: body ++ ['*'], by simp⟩
  | unterminated body => exact Or.inr (Or.inl rfl)

theorem Shape.head?_of_line {kind : Comment.Kind} {closed : Bool} {cs rest : List Char}
    (h : Shape kind closed cs rest) (hkind : kind = .line) :
    rest.head?.all isLineTerminator = true := by
  cases h with
  | line _ _ _ hrest => exact hrest
  | block => exact absurd hkind (by simp)
  | unterminated => exact absurd hkind (by simp)

theorem splitWhile_fst (p : Char → Bool) (cs : List Char) :
    ∀ c ∈ (splitWhile p cs).1, p c = true := by
  induction cs with
  | nil => exact fun c hc => absurd hc (by simp [splitWhile])
  | cons d cs ih =>
      intro c hc
      rw [splitWhile] at hc
      split at hc
      · rename_i hd
        rcases List.mem_cons.mp hc with rfl | hc
        · exact hd
        · exact ih c hc
      · exact absurd hc (by simp)

theorem splitWhile_snd (p : Char → Bool) (cs : List Char) :
    (splitWhile p cs).2.head?.all (fun c => !p c) = true := by
  induction cs with
  | nil => rfl
  | cons d cs ih =>
      rw [splitWhile]
      split
      · exact ih
      · rename_i hd
        simpa using hd

theorem not_infix_cons {c : Char} {cs : List Char} (h : ¬ ['*', '/'] <:+: cs)
    (hpair : ∀ ds, c = '*' → cs = '/' :: ds → False) : ¬ ['*', '/'] <:+: c :: cs := by
  intro hinfix
  rcases List.infix_cons_iff.mp hinfix with ⟨ds, hds⟩ | hinfix
  · obtain ⟨hc, hcs⟩ := List.cons.inj hds
    exact hpair ds hc.symm hcs.symm
  · exact h hinfix

/-- A block comment is closed by the first closing delimiter. -/
theorem splitBlock_closed (cs : List Char) (h : (splitBlock cs).2 = true) :
    ∃ body, (splitBlock cs).1.1 = body ++ ['*', '/'] ∧ ¬ ['*', '/'] <:+: body := by
  fun_induction splitBlock cs with
  | case1 => exact absurd h (by simp)
  | case2 cs => exact ⟨[], rfl, by simp⟩
  | case3 c cs hpair split closed hsplit ih =>
      rw [hsplit] at ih
      obtain ⟨body, hbody, hfirst⟩ := ih h
      refine ⟨c :: body, congrArg (c :: ·) hbody, not_infix_cons hfirst fun ds hc hds => ?_⟩
      have hcs := splitBlock_append cs
      rw [hsplit, hbody, hds] at hcs
      exact hpair _ hc hcs.symm

theorem splitBlock_none (cs : List Char) (h : (splitBlock cs).2 = false) :
    ¬ ['*', '/'] <:+: cs := by
  fun_induction splitBlock cs with
  | case1 => simp
  | case2 cs => exact absurd h (by simp)
  | case3 c cs hpair split closed hsplit ih =>
      rw [hsplit] at ih
      exact not_infix_cons (ih h) hpair

theorem splitBlock_open (cs : List Char) (h : (splitBlock cs).2 = false) :
    (splitBlock cs).1.2 = [] := by
  fun_induction splitBlock cs with
  | case1 => rfl
  | case2 cs => exact absurd h (by simp)
  | case3 c cs _ split closed hsplit ih =>
      rw [hsplit] at ih
      exact ih h

def Move.Shaped (move : Move) : Prop :=
  ∀ kind closed, move.comment = some (kind, closed) → Shape kind closed move.taken move.rest

theorem shaped_of_none {move : Move} (hnone : move.comment = none) : move.Shaped := by
  intro kind closed h
  rw [hnone] at h
  exact absurd h (by simp)

theorem shaped_slash (st : State) (cs : List Char) : (slash st cs).Shaped := by
  intro kind closed h
  unfold slash at h ⊢
  split at h
  · rename_i cs
    obtain ⟨rfl, rfl⟩ := Prod.mk.inj (Option.some.inj h)
    refine Shape.line _ _ (fun c hc => ?_) ?_
    · simpa using splitWhile_fst _ _ c hc
    · have hrest := splitWhile_snd (fun c => !isLineTerminator c) cs
      simp only [Bool.not_not] at hrest
      exact hrest
  · rename_i cs
    obtain ⟨rfl, hclosed⟩ := Prod.mk.inj (Option.some.inj h)
    cases closed with
    | true =>
        obtain ⟨body, hbody, -⟩ := splitBlock_closed cs hclosed
        have htaken : (push ['/', '*'] (splitBlock cs).1).1 = '/' :: '*' :: body ++ ['*', '/'] :=
          congrArg (['/', '*'] ++ ·) hbody
        dsimp only
        rw [htaken]
        exact Shape.block body _
    | false =>
        have hrest : (push ['/', '*'] (splitBlock cs).1).2 = [] := splitBlock_open cs hclosed
        dsimp only
        rw [hrest]
        exact Shape.unterminated _
  · split at h
    · exact absurd h (by simp [lexeme])
    · split at h <;> exact absurd h (by simp [lexeme])

theorem comment_closeBrace (st : State) (cs : List Char) : (closeBrace st cs).comment = none := by
  unfold closeBrace
  split
  · rfl
  · split <;> rfl

theorem comment_dot (st : State) (cs : List Char) : (dot st cs).comment = none := by
  unfold dot
  split <;> rfl

theorem shaped_step (st : State) (c : Char) (cs : List Char) : (step st c cs).Shaped := by
  -- Only a slash starts a comment.
  refine step_cases st c cs (fun _ => shaped_slash st cs) ?string ?backtick ?openBrace ?closeBrace
    ?closer ?dot ?double ?number ?word ?space ?optional ?other
  case closeBrace => exact fun _ => shaped_of_none (comment_closeBrace st cs)
  case dot => exact fun _ => shaped_of_none (comment_dot st cs)
  case double => exact fun _ _ => shaped_of_none rfl
  case word => exact fun _ _ => shaped_of_none rfl
  case optional => exact fun _ _ => shaped_of_none rfl
  case other => exact fun _ _ => shaped_of_none rfl
  all_goals exact fun _ => shaped_of_none rfl

end JsPrune.Scanner
