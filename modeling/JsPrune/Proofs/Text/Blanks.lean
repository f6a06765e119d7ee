import JsPrune.Proofs.Text.Utf8
/-!
# Blanks and line breaks

`blankStart` and `blankStop` go to the ends of the longest run of blanks at an offset, and
`breakLength` measures one line break.  All of it is ASCII, so boundaries lead to boundaries.
-/

namespace JsPrune.Text

def isSpace (b : UInt8) : Bool := isBlank b || isLineBreak b

/-- Nothing but blanks stands between two offsets. -/
def BlankRun (s : String) (start stop : Nat) : Prop :=
  ∀ i, start ≤ i → i < stop → (byte? s i).any isBlank = true

theorem toNat_lt_of_isBlank {b : UInt8} (h : isBlank b = true) : b.toNat < 0x80 := by
  simp only [isBlank, Bool.or_eq_true, beq_iff_eq] at h
  rcases h with ((rfl | rfl) | rfl) | rfl <;> decide

theorem toNat_lt_of_isLineBreak {b : UInt8} (h : isLineBreak b = true) : b.toNat < 0x80 := by
  simp only [isLineBreak, Bool.or_eq_true, beq_iff_eq] at h
  rcases h with rfl | rfl <;> decide

theorem isLineBreak_of_isBlank {b : UInt8} (h : isBlank b = true) : isLineBreak b = false := by
  simp only [isBlank, Bool.or_eq_true, beq_iff_eq] at h
  rcases h with ((rfl | rfl) | rfl) | rfl <;> decide

theorem isSpace_of_isBlank {b : UInt8} (h : isBlank b = true) : isSpace b = true := by
  rw [isSpace, h, Bool.true_or]

theorem isSpace_of_isLineBreak {b : UInt8} (h : isLineBreak b = true) : isSpace b = true := by
  rw [isSpace, h, Bool.or_true]

theorem not_break_of_blank {s : String} {i : Nat} (h : (byte? s i).any isBlank = true) :
    (byte? s i).any isLineBreak = false := by
  obtain ⟨b, hb, hblank⟩ := (Option.any_eq_true _ _).mp h
  rw [hb]
  exact isLineBreak_of_isBlank hblank

theorem lt_size_of_any {s : String} {i : Nat} {p : UInt8 → Bool}
    (h : (byte? s i).any p = true) : i < s.utf8ByteSize := by
  obtain ⟨b, hb, -⟩ := (Option.any_eq_true _ _).mp h
  exact lt_size_of_byte? hb

/-! ## Runs of blanks -/

theorem blankStart_le (s : String) (i : Nat) : blankStart s i ≤ i := by
  induction i with
  | zero => exact Nat.le_refl _
  | succ i ih =>
      rw [blankStart]
      split <;> omega

theorem blankRun_blankStart (s : String) (i : Nat) : BlankRun s (blankStart s i) i := by
  induction i with
  | zero =>
      intro k _ hk
      omega
  | succ i ih =>
      rw [blankStart]
      split
      · rename_i hblank
        intro k hk hki
        rcases Nat.lt_succ_iff_lt_or_eq.mp hki with hlt | rfl
        · exact ih k hk hlt
        · exact hblank
      · intro k hk hki
        omega

theorem blankStart_eq_of_run {s : String} {i j : Nat} (hij : i ≤ j) (hrun : BlankRun s i j) :
    blankStart s j = blankStart s i := by
  induction j with
  | zero => rw [Nat.le_zero.mp hij]
  | succ j ih =>
      rcases Nat.lt_or_ge j i with hlt | hge
      · rw [show i = j + 1 by omega]
      · rw [blankStart, if_pos (hrun j hge (by omega))]
        exact ih hge fun k hk hkj => hrun k hk (by omega)

theorem not_blank_before_blankStart {s : String} {i j : Nat} (hj : j + 1 = blankStart s i) :
    (byte? s j).any isBlank = false := by
  induction i with
  | zero => simp [blankStart] at hj
  | succ i ih =>
      rw [blankStart] at hj
      split at hj
      · exact ih hj
      · rename_i hblank
        obtain rfl : j = i := by omega
        exact Bool.eq_false_iff.mpr hblank

theorem le_skipBlanks (s : String) (n i : Nat) : i ≤ skipBlanks s n i := by
  induction n generalizing i with
  | zero => exact Nat.le_refl _
  | succ n ih =>
      rw [skipBlanks]
      split
      · have := ih (i + 1)
        omega
      · exact Nat.le_refl _

theorem blankRun_skipBlanks (s : String) (n i : Nat) : BlankRun s i (skipBlanks s n i) := by
  induction n generalizing i with
  | zero =>
      intro k hk hki
      rw [skipBlanks] at hki
      omega
  | succ n ih =>
      rw [skipBlanks]
      split
      · rename_i hblank
        intro k hk hki
        rcases Nat.eq_or_lt_of_le hk with rfl | hlt
        · exact hblank
        · exact ih (i + 1) k hlt hki
      · intro k hk hki
        omega

theorem not_blank_skipBlanks {s : String} {n i : Nat} (hn : s.utf8ByteSize ≤ i + n) :
    (byte? s (skipBlanks s n i)).any isBlank = false := by
  induction n generalizing i with
  | zero => rw [skipBlanks, byte?_eq_none_iff.mpr (by omega)]; rfl
  | succ n ih =>
      rw [skipBlanks]
      split
      · exact ih (by omega)
      · rename_i hblank
        exact Bool.eq_false_iff.mpr hblank

theorem le_blankStop (s : String) (i : Nat) : i ≤ blankStop s i := le_skipBlanks ..

theorem blankRun_blankStop (s : String) (i : Nat) : BlankRun s i (blankStop s i) :=
  blankRun_skipBlanks s (s.utf8ByteSize - i) i

theorem blankStop_le_size {s : String} {i : Nat} (hi : i ≤ s.utf8ByteSize) :
    blankStop s i ≤ s.utf8ByteSize := by
  by_contra hgt
  have hblank := blankRun_blankStop s i (blankStop s i - 1) (by omega) (by omega)
  have := lt_size_of_any hblank
  omega

theorem not_blank_blankStop (s : String) (i : Nat) :
    (byte? s (blankStop s i)).any isBlank = false :=
  not_blank_skipBlanks (by omega)

theorem blankStop_eq {s : String} {i j : Nat} (hij : i ≤ j) (hrun : BlankRun s i j)
    (hbehind : (byte? s j).any isBlank = false) : blankStop s i = j := by
  rcases Nat.lt_trichotomy (blankStop s i) j with hlt | heq | hgt
  · have hblank := hrun _ (le_blankStop s i) hlt
    rw [not_blank_blankStop] at hblank
    exact absurd hblank (by simp)
  · exact heq
  · rw [blankRun_blankStop s i j hij hgt] at hbehind
    exact absurd hbehind (by simp)

theorem blankStop_eq_of_run {s : String} {i j : Nat} (hij : i ≤ j) (hrun : BlankRun s i j) :
    blankStop s i = blankStop s j := by
  have hle := le_blankStop s j
  refine blankStop_eq (by omega) ?_ (not_blank_blankStop s j)
  intro k hk hkj
  rcases Nat.lt_or_ge k j with hlt | hge
  · exact hrun k hk hlt
  · exact blankRun_blankStop s j k hge hkj

theorem blankStart_mono {s : String} {i j : Nat} (hij : i ≤ j) :
    blankStart s i ≤ blankStart s j := by
  rcases Nat.lt_or_ge (blankStart s j) i with hlt | hle
  · rw [blankStart_eq_of_run hij fun k hk => blankRun_blankStart s j k (by omega)]
  · exact Nat.le_trans (blankStart_le s i) hle

theorem blankStop_mono {s : String} {i j : Nat} (hij : i ≤ j) : blankStop s i ≤ blankStop s j := by
  rcases Nat.lt_or_ge j (blankStop s i) with hlt | hle
  · rw [blankStop_eq_of_run hij fun k hk hkj => blankRun_blankStop s i k hk (by omega)]
  · exact Nat.le_trans hle (le_blankStop s j)

/-! ## Lines -/

theorem startsLine_iff {s : String} {i : Nat} :
    startsLine s i = true ↔ i = 0 ∨ ∃ j, j + 1 = i ∧ (byte? s j).any isLineBreak = true := by
  rw [startsLine, Bool.or_eq_true, beq_iff_eq]
  constructor
  · rintro (rfl | h)
    · exact Or.inl rfl
    · rcases Nat.eq_zero_or_pos i with rfl | hpos
      · exact Or.inl rfl
      · exact Or.inr ⟨i - 1, by omega, h⟩
  · rintro (rfl | ⟨j, rfl, h⟩)
    · exact Or.inl rfl
    · exact Or.inr h

theorem endsLine_iff {s : String} {i : Nat} :
    endsLine s i = true ↔ s.utf8ByteSize ≤ i ∨ (byte? s i).any isLineBreak = true := by
  rw [endsLine, ← byte?_eq_none_iff]
  cases byte? s i <;> simp

theorem breakLength_eq_zero {s : String} {i : Nat} (h : (byte? s i).any isLineBreak = false) :
    breakLength s i = 0 := by
  rw [breakLength, h]
  split
  · rename_i hreturn
    rw [Bool.and_eq_true, beq_iff_eq] at hreturn
    rw [hreturn.1] at h
    exact absurd h (by decide)
  · simp

/-- A line break has one byte, or two line break bytes. -/
theorem breakLength_cases {s : String} {i : Nat} (h : (byte? s i).any isLineBreak = true) :
    breakLength s i = 1 ∨
      breakLength s i = 2 ∧ (byte? s (i + 1)).any isLineBreak = true := by
  rw [breakLength, h]
  split
  · rename_i hreturn
    rw [Bool.and_eq_true, beq_iff_eq, beq_iff_eq] at hreturn
    exact Or.inr ⟨rfl, by rw [hreturn.2]; decide⟩
  · exact Or.inl rfl

theorem break_of_lt_breakLength {s : String} {i j : Nat} (hij : i ≤ j)
    (hj : j < i + breakLength s i) : (byte? s j).any isLineBreak = true := by
  cases h : (byte? s i).any isLineBreak with
  | false =>
      rw [breakLength_eq_zero h] at hj
      omega
  | true =>
      rcases breakLength_cases h with hlen | ⟨hlen, hnext⟩
      · obtain rfl : j = i := by omega
        exact h
      · rcases Nat.eq_or_lt_of_le hij with rfl | hlt
        · exact h
        · obtain rfl : j = i + 1 := by omega
          exact hnext

/-! ## Boundaries -/

theorem isBoundary_of_any {s : String} {i : Nat} {p : UInt8 → Bool}
    (hp : ∀ b, p b = true → b.toNat < 0x80) (h : (byte? s i).any p = true) :
    isBoundary s i = true := by
  obtain ⟨b, hb, hpb⟩ := (Option.any_eq_true _ _).mp h
  exact isBoundary_of_byte?_lt hb (hp b hpb)

theorem isBoundary_succ_of_any {s : String} {i : Nat} {p : UInt8 → Bool}
    (hp : ∀ b, p b = true → b.toNat < 0x80) (h : (byte? s i).any p = true) :
    isBoundary s (i + 1) = true := by
  obtain ⟨b, hb, hpb⟩ := (Option.any_eq_true _ _).mp h
  exact isBoundary_succ_of_byte?_lt hb (hp b hpb)

theorem isBoundary_blankStart {s : String} {i : Nat} (hi : isBoundary s i = true) :
    isBoundary s (blankStart s i) = true := by
  rcases Nat.eq_or_lt_of_le (blankStart_le s i) with heq | hlt
  · rw [heq]
    exact hi
  · exact isBoundary_of_any (fun _ => toNat_lt_of_isBlank)
      (blankRun_blankStart s i _ (Nat.le_refl _) hlt)

theorem isBoundary_blankStop {s : String} {i : Nat} (hi : isBoundary s i = true) :
    isBoundary s (blankStop s i) = true := by
  rcases Nat.eq_or_lt_of_le (le_blankStop s i) with heq | hlt
  · rw [← heq]
    exact hi
  · have hlast : blankStop s i - 1 + 1 = blankStop s i := by omega
    rw [← hlast]
    exact isBoundary_succ_of_any (fun _ => toNat_lt_of_isBlank)
      (blankRun_blankStop s i _ (by omega) (by omega))

theorem isBoundary_add_breakLength {s : String} {i : Nat} (hi : isBoundary s i = true) :
    isBoundary s (i + breakLength s i) = true := by
  rcases Nat.eq_zero_or_pos (breakLength s i) with hzero | hpos
  · rw [hzero]
    exact hi
  · have hlast : i + breakLength s i - 1 + 1 = i + breakLength s i := by omega
    rw [← hlast]
    exact isBoundary_succ_of_any (fun _ => toNat_lt_of_isLineBreak)
      (break_of_lt_breakLength (i := i) (by omega) (by omega))

end JsPrune.Text
