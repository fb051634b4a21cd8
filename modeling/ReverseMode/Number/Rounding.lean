/-!
Rounding of quotients of natural numbers and of scaled integers.

`nearestEven` is the one rounding rule of the library: the nearest integer, and
of two equally near ones the even one. Binary formats and decimal texts both
round with it.
-/

namespace ReverseMode.Number

/-- The integer nearest to `n / d`; a half goes to the even neighbour. -/
def nearestEven (n d : Nat) : Nat :=
  let q := n / d
  let r := n % d
  if 2 * r < d then q
  else if d < 2 * r then q + 1
  else if q % 2 = 0 then q else q + 1

/-- `n · 2^e` as a quotient of natural numbers. -/
def dyadicFraction (n : Nat) (e : Int) : Nat × Nat :=
  (n * Nat.pow 2 e.toNat, Nat.pow 2 (-e).toNat)

/-- `n · 10^e` as a quotient of natural numbers. -/
def decimalFraction (n : Nat) (e : Int) : Nat × Nat :=
  (n * Nat.pow 10 e.toNat, Nat.pow 10 (-e).toNat)

/-- A quotient that is an integer is not changed. -/
theorem nearestEven_mul_self (n d : Nat) (pos : 0 < d) : nearestEven (n * d) d = n := by
  simp [nearestEven, Nat.mul_div_cancel _ pos, pos]

end ReverseMode.Number
