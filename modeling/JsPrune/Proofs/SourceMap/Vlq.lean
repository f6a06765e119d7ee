import JsPrune.SourceMap.Vlq
import Mathlib.Tactic.ByContra
/-!
# Reading variable-length quantities

Numbers that stand one after the other are read back digit by digit: a digit below 32 ends a number,
and every other one adds its five low bits.  What is read of written numbers are these numbers, so no
separator is needed between them.
-/

namespace JsPrune.Vlq

def value? (c : Char) : Option Nat :=
  if 'A' ≤ c ∧ c ≤ 'Z' then some (c.toNat - 'A'.toNat)
  else if 'a' ≤ c ∧ c ≤ 'z' then some (c.toNat - 'a'.toNat + 26)
  else if '0' ≤ c ∧ c ≤ '9' then some (c.toNat - '0'.toNat + 52)
  else if c = '+' then some 62
  else if c = '/' then some 63
  else none

def signed (n : Nat) : Int := if n % 2 = 0 then (n / 2 : Nat) else -(n / 2 : Nat)

/-- The numbers that some digits stand for, where the groups of the first one that came before amount
to `sum`, and the next group counts `weight`. -/
def integersFrom : Nat → Nat → List Char → Option (List Int)
  | _, weight, [] => if weight = 1 then some [] else none
  | sum, weight, c :: cs => do
    let d ← value? c
    if d < 32 then (integersFrom 0 1 cs).map (signed (sum + weight * d) :: ·)
    else integersFrom (sum + weight * (d - 32)) (weight * 32) cs

def integers (cs : List Char) : Option (List Int) := integersFrom 0 1 cs

/-! ## Digits -/

theorem value?_digit_all : ∀ n, n < 64 → value? (digit n) = some n := by
  decide +kernel

theorem value?_digit {n : Nat} (h : n < 64) : value? (digit n) = some n := value?_digit_all n h

theorem exists_digit_of_mem_digits {fuel n : Nat} {c : Char} (hc : c ∈ digits fuel n) :
    ∃ k, k < 64 ∧ c = digit k := by
  induction fuel generalizing n with
  | zero =>
      rw [digits, List.mem_singleton] at hc
      exact ⟨n % 32, by omega, hc⟩
  | succ fuel ih =>
      rw [digits] at hc
      split at hc
      · rename_i hsmall
        exact ⟨n, by omega, List.mem_singleton.mp hc⟩
      · rcases List.mem_cons.mp hc with rfl | hc
        · exact ⟨n % 32 + 32, by omega, rfl⟩
        · exact ih hc

theorem exists_digit_of_mem_encode {n : Int} {c : Char} (hc : c ∈ encode n) :
    ∃ k, k < 64 ∧ c = digit k :=
  exists_digit_of_mem_digits hc

/-! ## Numbers -/

theorem signed_zigzag (n : Int) : signed (zigzag n) = n := by
  cases n with
  | ofNat n =>
      rw [zigzag, signed, if_pos (Nat.mul_mod_right 2 n), Nat.mul_div_cancel_left n (by decide)]
      rfl
  | negSucc n =>
      have hodd : (2 * (n + 1) + 1) % 2 = 1 := by omega
      have hhalf : (2 * (n + 1) + 1) / 2 = n + 1 := by omega
      rw [zigzag, signed, hodd, hhalf, if_neg (by decide)]
      rfl

theorem integersFrom_last {d : Nat} (hd : d < 32) (sum weight : Nat) (rest : List Char) :
    integersFrom sum weight (digit d :: rest) =
      (integers rest).map (signed (sum + weight * d) :: ·) := by
  rw [integersFrom, value?_digit (by omega)]
  dsimp only [Option.bind_eq_bind, Option.bind_some]
  rw [if_pos hd]
  rfl

theorem integersFrom_more {d : Nat} (hd : d < 32) (sum weight : Nat) (rest : List Char) :
    integersFrom sum weight (digit (d + 32) :: rest) =
      integersFrom (sum + weight * d) (weight * 32) rest := by
  rw [integersFrom, value?_digit (by omega)]
  dsimp only [Option.bind_eq_bind, Option.bind_some]
  rw [if_neg (by omega), Nat.add_sub_cancel]

theorem integersFrom_digits {fuel n : Nat} (hfuel : n ≤ fuel) (sum weight : Nat)
    (rest : List Char) :
    integersFrom sum weight (digits fuel n ++ rest) =
      (integers rest).map (signed (sum + weight * n) :: ·) := by
  induction fuel generalizing n sum weight with
  | zero =>
      obtain rfl : n = 0 := Nat.le_zero.mp hfuel
      exact integersFrom_last (by decide) sum weight rest
  | succ fuel ih =>
      rw [digits]
      split
      · rename_i hlast
        exact integersFrom_last hlast sum weight rest
      · rename_i hmore
        have hsplit : weight * (n % 32) + weight * 32 * (n / 32) = weight * n := by
          rw [Nat.mul_assoc, ← Nat.mul_add, Nat.mod_add_div]
        rw [List.cons_append, integersFrom_more (Nat.mod_lt n (by decide)), ih (by omega),
          Nat.add_assoc, hsplit]

/-- A written number is read back, and what follows it is read on its own. -/
theorem integers_encode_append (n : Int) (rest : List Char) :
    integers (encode n ++ rest) = (integers rest).map (n :: ·) := by
  have hdigits := integersFrom_digits (Nat.le_refl (zigzag n)) 0 1 rest
  rw [Nat.zero_add, Nat.one_mul, signed_zigzag] at hdigits
  exact hdigits

end JsPrune.Vlq
