/-!
# Base64 variable-length quantities

An integer is written in groups of five bits, the lowest first, one base64 digit a group.  The lowest
bit of the first group is the sign, and the highest bit of every digit says whether another one
follows.
-/

namespace JsPrune.Vlq

def alphabet : List Char :=
  "ABCDEFGHIJKLMNOPQRSTUVWXYZabcdefghijklmnopqrstuvwxyz0123456789+/".toList

def digit (n : Nat) : Char := alphabet.getD n 'A'

/-- The number whose groups are written: twice the magnitude, plus one for a negative integer. -/
def zigzag : Int → Nat
  | .ofNat n => 2 * n
  | .negSucc n => 2 * (n + 1) + 1

def digits : Nat → Nat → List Char
  | 0, n => [digit (n % 32)]
  | fuel + 1, n => if n < 32 then [digit n] else digit (n % 32 + 32) :: digits fuel (n / 32)

def encode (n : Int) : List Char :=
  let m := zigzag n
  digits m m

end JsPrune.Vlq
