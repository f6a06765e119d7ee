import JsPrune.Text.Position
import Mathlib.Data.String.Basic
/-!
# Positions of characters

The position behind some characters counts the line ends among them, and the UTF-16 code units after
the last one.  A cursor gives this position for every offset that it is asked for, in any order.
-/

namespace JsPrune

open String (utf8Len)

namespace Position

def isLineEnd (c : Char) : Bool := c == '\n' || c == '\r'

/-- The number of line ends.  A carriage return and the line feed right behind it are one. -/
def lineEnds : List Char → Nat
  | [] => 0
  | '\r' :: '\n' :: cs => lineEnds cs + 1
  | c :: cs => lineEnds cs + (isLineEnd c).toNat

def lastLine (cs : List Char) : List Char := cs.reverse.takeWhile fun c => !isLineEnd c

def width : List Char → Nat
  | [] => 0
  | c :: cs => width cs + units c

/-- The position behind some characters, which a text starts with. -/
def behind (cs : List Char) : Position := ⟨lineEnds cs, width (lastLine cs)⟩

def endsReturn (cs : List Char) : Bool := cs.getLast? == some '\r'

/-! ## One more character -/

@[simp] theorem endsReturn_snoc (cs : List Char) (c : Char) :
    endsReturn (cs ++ [c]) = (c == '\r') := by
  simp [endsReturn]

theorem endsReturn_cons_cons (c d : Char) (cs : List Char) :
    endsReturn (c :: d :: cs) = endsReturn (d :: cs) := by
  simp [endsReturn, List.getLast?_cons_cons]

theorem lineEnds_cons {c : Char} {cs : List Char} (h : ∀ ds, c = '\r' → cs ≠ '\n' :: ds) :
    lineEnds (c :: cs) = lineEnds cs + (isLineEnd c).toNat := by
  rw [lineEnds]
  intro ds hc hcs
  exact h ds hc hcs

theorem lineEnds_snoc (cs : List Char) (c : Char) :
    lineEnds (cs ++ [c]) =
      lineEnds cs + (isLineEnd c && !(c == '\n' && endsReturn cs)).toNat := by
  induction cs using lineEnds.induct with
  | case1 => simp [lineEnds, endsReturn]
  | case2 cs ih =>
      have hends : endsReturn ('\r' :: '\n' :: cs) = endsReturn cs := by
        cases cs with
        | nil => rfl
        | cons d cs => rw [endsReturn_cons_cons, endsReturn_cons_cons]
      rw [List.cons_append, List.cons_append, lineEnds, lineEnds, ih, hends]
      omega
  | case3 d cs hpair ih =>
      cases cs with
      | nil =>
          by_cases hjoin : d = '\r' ∧ c = '\n'
          · obtain ⟨rfl, rfl⟩ := hjoin
            rfl
          · have hpair' : ∀ ds, d = '\r' → [c] ≠ '\n' :: ds := by
              rintro ds hd hc
              exact hjoin ⟨hd, (List.cons.inj hc).1⟩
            have hno : (c == '\n' && endsReturn [d]) = false := by
              refine Bool.eq_false_iff.mpr fun h => ?_
              simp only [endsReturn, List.getLast?_singleton, Bool.and_eq_true, beq_iff_eq,
                Option.some_inj] at h
              exact hjoin ⟨h.2, h.1⟩
            rw [List.singleton_append, lineEnds_cons hpair', hno]
            simp [lineEnds]
            omega
      | cons e cs =>
          have hpair' : ∀ ds, d = '\r' → e :: (cs ++ [c]) ≠ '\n' :: ds := by
            rintro ds hd he
            exact hpair cs hd (by rw [(List.cons.inj he).1])
          have hcons := lineEnds_cons fun ds hd he => hpair ds hd he
          rw [List.cons_append, List.cons_append, lineEnds_cons hpair', ← List.cons_append, ih,
            endsReturn_cons_cons, hcons]
          omega

@[simp] theorem lastLine_snoc (cs : List Char) (c : Char) :
    lastLine (cs ++ [c]) = if isLineEnd c then [] else c :: lastLine cs := by
  rw [lastLine, List.reverse_append, List.reverse_singleton, List.singleton_append,
    List.takeWhile_cons]
  cases isLineEnd c <;> rfl

theorem lastLine_of_endsReturn {cs : List Char} (h : endsReturn cs = true) : lastLine cs = [] := by
  rw [endsReturn, beq_iff_eq] at h
  obtain ⟨cs, rfl⟩ := List.getLast?_eq_some_iff.mp h
  rw [lastLine_snoc]
  rfl

theorem behind_snoc (cs : List Char) (c : Char) :
    behind (cs ++ [c]) = (behind cs).advance (endsReturn cs) c := by
  unfold behind advance
  rw [lineEnds_snoc, lastLine_snoc]
  by_cases hjoin : (c == '\n' && endsReturn cs) = true
  · have hnewline : isLineEnd c = true := by
      rw [Bool.and_eq_true, beq_iff_eq] at hjoin
      rw [hjoin.1]
      rfl
    rw [if_pos hjoin, if_pos hnewline, hjoin,
      lastLine_of_endsReturn (Bool.and_eq_true _ _ ▸ hjoin).2]
    simp
  · rw [if_neg hjoin, Bool.eq_false_iff.mpr hjoin]
    cases hend : isLineEnd c with
    | true =>
        have hend' : (c == '\n' || c == '\r') = true := hend
        rw [hend']
        rfl
    | false =>
        have hend' : (c == '\n' || c == '\r') = false := hend
        rw [hend']
        simp [width]

/-! ## The order of positions -/

theorem le_iff {p q : Position} :
    p.le q = true ↔ p.line < q.line ∨ p.line = q.line ∧ p.column ≤ q.column := by
  simp [le]

theorem le_refl (p : Position) : p.le p = true := le_iff.mpr (Or.inr ⟨rfl, Nat.le_refl _⟩)

theorem le_trans {p q r : Position} (hpq : p.le q = true) (hqr : q.le r = true) :
    p.le r = true := by
  rw [le_iff] at hpq hqr ⊢
  omega

theorem units_pos (c : Char) : 0 < units c := by
  unfold units
  split <;> omega

theorem advance_lt {p : Position} {afterReturn : Bool} {c : Char}
    (h : (c == '\n' && afterReturn) = false) : (p.advance afterReturn c).le p = false := by
  have hpos := units_pos c
  refine Bool.eq_false_iff.mpr fun hle => ?_
  rw [advance, if_neg (by rw [h]; simp)] at hle
  split at hle <;> rw [le_iff] at hle <;> dsimp only at hle <;> omega

theorem le_advance (p : Position) (afterReturn : Bool) (c : Char) :
    p.le (p.advance afterReturn c) = true := by
  unfold advance
  split
  · exact le_refl p
  · split
    · exact le_iff.mpr (Or.inl (Nat.lt_succ_self p.line))
    · exact le_iff.mpr (Or.inr ⟨rfl, Nat.le_add_right ..⟩)

theorem le_behind_append (cs ds : List Char) : (behind cs).le (behind (cs ++ ds)) = true := by
  induction ds generalizing cs with
  | nil => rw [List.append_nil]; exact le_refl _
  | cons d ds ih =>
      have hstep : (behind cs).le (behind (cs ++ [d])) = true := by
        rw [behind_snoc]
        exact le_advance ..
      have hrest := ih (cs ++ [d])
      rw [List.append_assoc, List.singleton_append] at hrest
      exact le_trans hstep hrest

/-- Positions ascend strictly over every character but the line feed of a pair. -/
theorem behind_append_not_le {cs ds : List Char} {c : Char}
    (h : (c == '\n' && endsReturn cs) = false) :
    (behind (cs ++ c :: ds)).le (behind cs) = false := by
  refine Bool.eq_false_iff.mpr fun hle => ?_
  have hrest := le_behind_append (cs ++ [c]) ds
  rw [List.append_assoc, List.singleton_append] at hrest
  have hstep := le_trans hrest hle
  rw [behind_snoc, advance_lt h] at hstep
  exact absurd hstep (by simp)

def Before (p q : Position) : Prop :=
  p.line < q.line ∨ p.line = q.line ∧ p.column < q.column

theorem before_iff {p q : Position} : p.Before q ↔ q.le p = false := by
  rw [← Bool.not_eq_true, le_iff, Before]
  omega

theorem Before.trans {p q r : Position} (hpq : p.Before q) (hqr : q.Before r) : p.Before r := by
  unfold Before at *
  omega

/-- Behind some more characters the position is another one, unless they are no more than the line
feed of a pair. -/
theorem behind_before_iff {front part : List Char} (hne : part ≠ []) :
    (behind front).Before (behind (front ++ part)) ↔
      ¬ (part = ['\n'] ∧ endsReturn front = true) := by
  obtain ⟨c, rest, rfl⟩ := List.exists_cons_of_ne_nil hne
  by_cases hjoin : c = '\n' ∧ endsReturn front = true
  · obtain ⟨rfl, hreturn⟩ := hjoin
    -- The line feed itself does not move the position.
    have hstay : behind (front ++ ['\n']) = behind front := by
      rw [behind_snoc, hreturn]
      rfl
    cases rest with
    | nil =>
        rw [hstay, before_iff, le_refl]
        simp [hreturn]
    | cons d rest =>
        have hend : (d == '\n' && endsReturn (front ++ ['\n'])) = false := by
          rw [endsReturn_snoc]
          simp
        have hrest : (behind (front ++ ['\n'] ++ d :: rest)).le (behind (front ++ ['\n'])) = false :=
          behind_append_not_le hend
        rw [hstay, List.append_assoc, List.singleton_append] at hrest
        rw [before_iff, hrest]
        simp
  · have hplain : (c == '\n' && endsReturn front) = false := by
      apply Bool.eq_false_iff.mpr
      intro h
      rw [Bool.and_eq_true, beq_iff_eq] at h
      exact hjoin h
    rw [before_iff, behind_append_not_le hplain]
    refine iff_of_true rfl ?_
    rintro ⟨hpart, hreturn⟩
    exact hjoin ⟨(List.cons.inj hpart).1, hreturn⟩

theorem behind_append_of_plain (cs : List Char) {ds : List Char}
    (h : ∀ d ∈ ds, isLineEnd d = false) :
    behind (cs ++ ds) = ⟨(behind cs).line, (behind cs).column + width ds⟩ := by
  induction ds generalizing cs with
  | nil => rw [List.append_nil]; rfl
  | cons d ds ih =>
      have hd := h d List.mem_cons_self
      have hrest := ih (cs ++ [d]) fun e he => h e (List.mem_cons_of_mem _ he)
      rw [List.append_assoc, List.singleton_append] at hrest
      have hstep : behind (cs ++ [d]) = ⟨(behind cs).line, (behind cs).column + units d⟩ := by
        unfold isLineEnd at hd
        rw [behind_snoc, advance, if_neg, if_neg (by rw [hd]; simp)]
        simp only [Bool.or_eq_false_iff] at hd
        rw [hd.1]
        simp
      rw [hrest, hstep, width, Nat.add_comm (width ds), Nat.add_assoc]

end Position

/-! ## Cursors -/

/-- The longest run of first characters that fits into `n` bytes. -/
def fitting : Nat → List Char → List Char
  | _, [] => []
  | n, c :: cs => if c.utf8Size ≤ n then c :: fitting (n - c.utf8Size) cs else []

theorem fitting_zero (cs : List Char) : fitting 0 cs = [] := by
  cases cs with
  | nil => rfl
  | cons c cs =>
      have hpos := c.utf8Size_pos
      rw [fitting, if_neg (by omega)]

theorem fitting_append (n : Nat) (cs ds : List Char) :
    fitting (utf8Len cs + n) (cs ++ ds) = cs ++ fitting n ds := by
  induction cs with
  | nil => simp
  | cons c cs ih =>
      rw [List.cons_append, fitting, String.utf8Len_cons, if_pos (by omega),
        show utf8Len cs + c.utf8Size + n - c.utf8Size = utf8Len cs + n by omega, ih,
        List.cons_append]

theorem fitting_utf8Len (cs ds : List Char) : fitting (utf8Len cs) (cs ++ ds) = cs := by
  have h := fitting_append 0 cs ds
  rw [Nat.add_zero, fitting_zero, List.append_nil] at h
  exact h

theorem eq_of_utf8Len_eq {cs front front' rest rest' : List Char} (h : cs = front ++ rest)
    (h' : cs = front' ++ rest') (hlen : utf8Len front = utf8Len front') : front = front' := by
  rw [← fitting_utf8Len front rest, ← h, hlen, h', fitting_utf8Len]

theorem exists_fitting_append {m n : Nat} (hmn : m ≤ n) (cs : List Char) :
    ∃ ds, fitting n cs = fitting m cs ++ ds := by
  induction cs generalizing m n with
  | nil => exact ⟨[], rfl⟩
  | cons c cs ih =>
      rw [fitting, fitting]
      by_cases hc : c.utf8Size ≤ m
      · obtain ⟨ds, hds⟩ := ih (m := m - c.utf8Size) (n := n - c.utf8Size) (by omega)
        exact ⟨ds, by rw [if_pos hc, if_pos (by omega), hds, List.cons_append]⟩
      · exact ⟨_, by rw [if_neg hc, List.nil_append]⟩

namespace Cursor

structure At (text : String) (front : List Char) (cursor : Cursor) : Prop where
  text_eq : text.toList = front ++ cursor.rest
  offset_eq : cursor.offset = utf8Len front
  position_eq : cursor.position = Position.behind front
  afterReturn_eq : cursor.afterReturn = Position.endsReturn front

theorem at_ofString (text : String) : (ofString text).At text [] := ⟨rfl, rfl, rfl, rfl⟩

theorem at_advanceOver {text : String} {front cs : List Char} (hs : text.toList = front ++ cs)
    (target : Nat) :
    (advanceOver target cs (utf8Len front) (Position.behind front)
      (Position.endsReturn front)).At text (front ++ fitting (target - utf8Len front) cs) := by
  induction cs generalizing front with
  | nil =>
      rw [fitting, List.append_nil]
      exact ⟨hs, rfl, rfl, rfl⟩
  | cons c cs ih =>
      have hpos := c.utf8Size_pos
      rw [advanceOver, fitting]
      by_cases hle : utf8Len front + c.utf8Size ≤ target
      · have hlen : utf8Len (front ++ [c]) = utf8Len front + c.utf8Size := by simp
        have hs' : text.toList = front ++ [c] ++ cs := by rw [hs]; simp
        have hrest := ih hs'
        rw [hlen, Position.behind_snoc, Position.endsReturn_snoc, List.append_assoc,
          List.singleton_append] at hrest
        rw [if_pos hle, if_pos (by omega), Nat.sub_sub]
        exact hrest
      · rw [if_neg hle, if_neg (by omega), List.append_nil]
        exact ⟨hs, rfl, rfl, rfl⟩

theorem at_moveTo {text : String} {front : List Char} {cursor : Cursor}
    (h : cursor.At text front) (target : Nat) :
    (cursor.moveTo text target).At text (fitting target text.toList) := by
  unfold moveTo
  dsimp only
  split
  · -- A smaller offset starts over.
    have hs : text.toList = [] ++ text.toList := rfl
    exact at_advanceOver hs target
  · rename_i hge
    rw [h.offset_eq, Nat.not_lt] at hge
    have hfit : fitting target text.toList =
        front ++ fitting (target - utf8Len front) cursor.rest := by
      rw [h.text_eq, ← fitting_append, Nat.add_sub_cancel' hge]
    rw [hfit, h.offset_eq, h.position_eq, h.afterReturn_eq]
    exact at_advanceOver h.text_eq target

/-- One cursor gives the position of every offset, whatever it was asked before. -/
theorem positions_eq {text : String} {front : List Char} {cursor : Cursor}
    (h : cursor.At text front) (targets : List Nat) :
    positions text cursor targets =
      targets.map fun target => Position.behind (fitting target text.toList) := by
  induction targets generalizing front cursor with
  | nil => rfl
  | cons target targets ih =>
      have hhere := at_moveTo h target
      rw [positions, List.map_cons, ← hhere.position_eq, ← ih hhere]

end Cursor

/-- The position of an offset is the one behind the characters before it. -/
theorem Position.ofOffsets_eq (text : String) (offsets : List Nat) :
    Position.ofOffsets text offsets =
      offsets.map fun i => Position.behind (fitting i text.toList) :=
  Cursor.positions_eq (Cursor.at_ofString text) offsets

end JsPrune
