import JsPrune.Proofs.Comment.Placement
/-!
# Scans without a bound

Every step of the scanner takes at least one character, so the number of characters that are left
bounds the number of steps.  A scan with this bound is the comment of the first lexeme, if it is one,
and the scan of what the step leaves.
-/

namespace JsPrune.Scanner

open String (utf8Len)

/-! ## Slashes that open no comment -/

theorem slash_regex {st : State} {cs : List Char} (hst : st.regexAllowed = true)
    (hline : cs.head? ≠ some '/') (hblock : cs.head? ≠ some '*') :
    slash st cs = lexeme (push ['/'] (splitRegex false cs)) (st.after false) := by
  unfold slash
  split
  · exact absurd rfl hline
  · exact absurd rfl hblock
  · rw [if_pos hst]

theorem slash_assign {st : State} (hst : st.regexAllowed = false) (cs : List Char) :
    slash st ('=' :: cs) = lexeme (['/', '='], cs) (st.after true) := by
  rw [slash.eq_3, if_neg (by rw [hst]; simp)]

theorem slash_divide {st : State} {cs : List Char} (hst : st.regexAllowed = false)
    (hline : cs.head? ≠ some '/') (hblock : cs.head? ≠ some '*') (hassign : cs.head? ≠ some '=') :
    slash st cs = lexeme (['/'], cs) (st.after true) := by
  unfold slash
  split
  · exact absurd rfl hline
  · exact absurd rfl hblock
  · rw [if_neg (by rw [hst]; simp)]
    split
    · exact absurd rfl hassign
    · rfl

/-! ## Words and numbers -/

theorem isWordPart_of_isDigit {c : Char} (h : c.isDigit = true) : isWordPart c = true := by
  simp [isWordPart, Char.isAlphanum, h]

theorem isDigit_of_high {c : Char} (hc : 0x80 ≤ c.toNat) : c.isDigit = false := by
  have hnine : ¬ c.val ≤ '9'.val := by
    rw [UInt32.le_iff_toNat_le]
    have : ('9' : Char).val.toNat = 0x39 := rfl
    change ¬ c.toNat ≤ _
    omega
  rw [Char.isDigit, decide_eq_false hnine, Bool.and_false]

theorem not_isSpace_of_isWordPart {c : Char} (hc : isWordPart c = true) : isSpace c = false := by
  refine Bool.eq_false_iff.mpr fun hspace => ?_
  simp only [isSpace, Bool.or_eq_true, beq_iff_eq] at hspace
  rcases hspace with (((rfl | rfl) | rfl) | rfl) | rfl <;> exact absurd hc (by decide)

theorem step_run {st : State} {c : Char} {cs : List Char} (hc : isWordPart c = true) :
    step st c cs =
      if c.isDigit then lexeme (splitWhile isWordPart (c :: cs)) (st.after false)
      else word st (c :: cs) := by
  have hnot : ∀ d, isWordPart d = false → c ≠ d := by
    rintro d hd rfl
    rw [hc] at hd
    exact absurd hd (by simp)
  refine step_cases st c cs ?slash ?string ?backtick ?openBrace ?closeBrace ?closer ?dot ?double
    ?number ?word ?space ?optional ?other
  case slash => exact fun h => absurd h (hnot _ (by decide))
  case string => rintro (h | h) <;> exact absurd h (hnot _ (by decide))
  case backtick => exact fun h => absurd h (hnot _ (by decide))
  case openBrace => exact fun h => absurd h (hnot _ (by decide))
  case closeBrace => exact fun h => absurd h (hnot _ (by decide))
  case closer => rintro (h | h) <;> exact absurd h (hnot _ (by decide))
  case dot => exact fun h => absurd h (hnot _ (by decide))
  case double => rintro (h | h) _ <;> exact absurd h (hnot _ (by decide))
  case number => exact fun h => (if_pos h).symm
  case word => exact fun h _ => (if_neg (by rw [h]; simp)).symm
  case space =>
    intro h
    rw [not_isSpace_of_isWordPart hc] at h
    exact absurd h (by simp)
  case optional => exact fun h => absurd h (hnot _ (by decide))
  case other =>
    intro h
    rw [hc] at h
    exact absurd h (by simp)

/-! ## A step takes something -/

theorem splitWhile_cons {p : Char → Bool} {c : Char} (h : p c = true) (cs : List Char) :
    splitWhile p (c :: cs) = push [c] (splitWhile p cs) := by
  rw [splitWhile, if_pos h]

theorem splitWhile_append_of_all {p : Char → Bool} {run : List Char} (h : ∀ c ∈ run, p c = true)
    (rest : List Char) : splitWhile p (run ++ rest) = push run (splitWhile p rest) := by
  induction run with
  | nil => rfl
  | cons c run ih =>
      rw [List.cons_append, splitWhile_cons (h c List.mem_cons_self),
        ih fun d hd => h d (List.mem_cons_of_mem _ hd)]
      rfl

theorem splitWhile_run {p : Char → Bool} {run rest : List Char} (hrun : run.all p = true)
    (hrest : rest.head?.any p = false) : splitWhile p (run ++ rest) = (run, rest) := by
  rw [splitWhile_append_of_all (List.all_eq_true.mp hrun)]
  cases rest with
  | nil => rw [splitWhile, push, List.append_nil]
  | cons c rest =>
      have hc : p c = false := hrest
      rw [splitWhile, if_neg (by rw [hc]; simp), push, List.append_nil]

theorem exists_taken_step (st : State) (c : Char) (cs : List Char) :
    ∃ taken, (step st c cs).taken = c :: taken := by
  refine step_cases st c cs ?slash ?string ?backtick ?openBrace ?closeBrace ?closer ?dot ?double
    ?number ?word ?space ?optional ?other
  case slash =>
    rintro rfl
    unfold slash
    split
    · exact ⟨_, rfl⟩
    · exact ⟨_, rfl⟩
    · split
      · exact ⟨_, rfl⟩
      · split <;> exact ⟨_, rfl⟩
  case closeBrace =>
    rintro rfl
    unfold closeBrace
    split
    · exact ⟨_, rfl⟩
    · split <;> exact ⟨_, rfl⟩
  case dot =>
    rintro rfl
    unfold dot
    split <;> exact ⟨_, rfl⟩
  case number =>
    intro hdigit
    rw [splitWhile_cons (isWordPart_of_isDigit hdigit)]
    exact ⟨_, rfl⟩
  case word =>
    intro _ hword
    rw [word, splitWhile_cons hword]
    exact ⟨_, rfl⟩
  case double => exact fun _ _ => ⟨_, rfl⟩
  case optional => exact fun _ _ => ⟨_, rfl⟩
  case other => exact fun _ _ => ⟨_, rfl⟩
  all_goals exact fun _ => ⟨_, rfl⟩

theorem length_rest_step (st : State) (c : Char) (cs : List Char) :
    (step st c cs).rest.length ≤ cs.length := by
  have hchars := congrArg List.length (chars_step st c cs)
  obtain ⟨taken, htaken⟩ := exists_taken_step st c cs
  rw [Move.chars, htaken, List.length_append, List.length_cons, List.length_cons] at hchars
  omega

/-! ## Scans -/

def scan (offset : Nat) (st : State) (cs : List Char) : List Comment :=
  scanFrom cs.length offset st cs

def Move.found (move : Move) (offset : Nat) : List Comment :=
  (move.comment.map fun k => (⟨⟨offset, offset + utf8Len move.taken⟩, k.1,
    String.ofList move.taken, k.2⟩ : Comment)).toList

def Move.scan (move : Move) (offset : Nat) : List Comment :=
  move.found offset ++ Scanner.scan (offset + utf8Len move.taken) move.next move.rest

theorem scanFrom_eq_scan {n : Nat} {cs : List Char} (hn : cs.length ≤ n) (offset : Nat)
    (st : State) : scanFrom n offset st cs = scan offset st cs := by
  suffices h : ∀ m, cs.length ≤ m → scanFrom n offset st cs = scanFrom m offset st cs from
    h _ (Nat.le_refl _)
  induction n generalizing offset st cs with
  | zero =>
      intro m _
      rw [List.length_eq_zero_iff.mp (Nat.le_zero.mp hn)]
      cases m <;> rfl
  | succ n ih =>
      intro m hm
      cases cs with
      | nil => cases m <;> rfl
      | cons c cs =>
          cases m with
          | zero => exact absurd hm (by simp)
          | succ m =>
              rw [List.length_cons] at hn hm
              have hrest := length_rest_step st c cs
              rw [scanFrom_cons, scanFrom_cons, ih (by omega) _ _ m (by omega)]

@[simp] theorem scan_nil (offset : Nat) (st : State) : scan offset st [] = [] := rfl

theorem scan_cons (offset : Nat) (st : State) (c : Char) (cs : List Char) :
    scan offset st (c :: cs) = (step st c cs).scan offset := by
  have hrest := length_rest_step st c cs
  rw [Move.scan, ← scanFrom_eq_scan hrest, scan, List.length_cons, scanFrom_cons, Move.found]

end JsPrune.Scanner

namespace JsPrune

open String (utf8Len)

/-- The comments of a script are what a scan finds behind its interpreter line. -/
theorem Comment.all_eq_scan (source : String) :
    Comment.all source = Scanner.scan (utf8Len (Scanner.splitHashbang source.toList).1) .initial
      (Scanner.splitHashbang source.toList).2 := by
  rw [← Scanner.byteLength_eq_utf8Len]
  rfl

end JsPrune
