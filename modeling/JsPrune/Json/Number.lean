/-!
# The range of JSON numbers

Numbers stand for binary floating-point numbers of double precision, so a number can be too large.
The decision follows the common way to read one: the leading digits that fit into 64 bits make an
integer, and one multiplication by a power of ten brings it to its size.
-/

namespace JsPrune.Json

/-- The nearest number with a binary significand of 53 digits; of two the one with an even
significand. -/
def roundToDouble (n : Nat) : Nat :=
  if n < Nat.pow 2 53 then n
  else
    let unit := Nat.pow 2 (n.log2 - 52)
    let below := n / unit
    let twice := 2 * (n % unit)
    let up := decide (unit < twice) || (twice == unit && below % 2 == 1)
    (if up then below + 1 else below) * unit

/-- The least number that no double is nearest to: half a unit above the largest double. -/
def doubleLimit : Nat := Nat.pow 2 1024 - Nat.pow 2 970

/-- Appends decimal digits to a significand while it fits into 64 bits, and counts those that are
left over. -/
def appendDigits (significand : Nat) : List Nat → Nat × Nat
  | [] => (significand, 0)
  | d :: ds =>
    if 10 * significand + d < Nat.pow 2 64 then appendDigits (10 * significand + d) ds
    else (significand, ds.length + 1)

/-- Whether a number is too large, by its digits before and after the point and its exponent. -/
def overflows (whole fraction : List Nat) (exponent : Int) : Bool :=
  let (leading, wholeLeft) := appendDigits 0 whole
  let (significand, fractionLeft) := appendDigits leading fraction
  let shift : Int := wholeLeft + fractionLeft - fraction.length + exponent
  if significand == 0 || shift ≤ 0 then false
  else if 308 < shift then true
  else doubleLimit ≤ roundToDouble significand * roundToDouble (Nat.pow 10 shift.toNat)

end JsPrune.Json
