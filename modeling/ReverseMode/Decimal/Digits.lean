import ReverseMode.Number.Binary

/-!
Decimal digits of a positive quotient.

`significant` keeps a given number of significant digits, rounding to nearest with
ties to even; `fixed` keeps a given number of places. Both work on the exact
quotient, so there is one rounding and no intermediate precision.
-/

namespace ReverseMode

/-- The number `digits · 10^exponent`. -/
structure Decimal where
  digits : Nat
  exponent : Int
deriving DecidableEq, Repr, Inhabited

namespace Decimal

open Number

/-- How many decimal digits a natural number is written with (none for zero). -/
def width (n : Nat) : Nat :=
  if n = 0 then 0 else (Nat.toDigits 10 n).length

/-- The position of the leading digit of `n / d`: the `k` with `10^k ≤ n / d < 10^(k+1)`. -/
def leading (n d : Nat) : Int :=
  let guess : Int := (width n : Int) - width d
  let (p, q) := decimalFraction d guess
  if p ≤ n * q then guess else guess - 1

/-- `n / d` times a power of ten, as a quotient. -/
def scaled (n d : Nat) (places : Int) : Nat × Nat :=
  (n * Nat.pow 10 places.toNat, d * Nat.pow 10 (-places).toNat)

/-- The nearest number to `n / d` with `count` significant digits. -/
def significant (count n d : Nat) : Decimal :=
  if n = 0 then ⟨0, 0⟩
  else
    let places : Int := (count : Int) - 1 - leading n d
    let (p, q) := scaled n d places
    let kept := nearestEven p q
    if kept = Nat.pow 10 count then ⟨Nat.pow 10 (count - 1), 1 - places⟩ else ⟨kept, -places⟩

/-- `n / d` in units of `10^-places`, to the nearest unit. -/
def fixed (places n d : Nat) : Nat :=
  nearestEven (n * Nat.pow 10 places) d

/-- The decimal text of a natural number, at least `least` digits long. -/
def padded (least n : Nat) : String :=
  let text := String.ofList (Nat.toDigits 10 n)
  "".pushn '0' (least - text.length) ++ text

/-- A count of units of `10^-places` written with a point (none when `places` is zero). -/
def pointed (places units : Nat) : String :=
  if places = 0 then padded 1 units
  else padded 1 (units / Nat.pow 10 places) ++ "." ++ padded places (units % Nat.pow 10 places)

/-- A double with a fixed number of places; the sign of a negative zero is kept. -/
def fixedText (places : Nat) (x : Float) : String :=
  match read x with
  | .nan => "nan"
  | .infinite negative => if negative then "-inf" else "inf"
  | .finite v =>
    let (n, d) := v.fraction
    (if v.negative then "-" else "") ++ pointed places (fixed places n d)

end Decimal

end ReverseMode
