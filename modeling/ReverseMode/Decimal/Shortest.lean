import ReverseMode.Decimal.Digits

/-!
The shortest decimal that reads back as a given value of a binary format.

A decimal reads back as the value when it lies in the rounding interval of the value; the
ends belong to the interval when the significand is even. For one digit, two digits and
so on, only the two grid points next to the value have to be tried: if any grid point
lies in the interval, one of these does.

`text` lays the digits of a double out: positional from `10^-4` up to `10^16`, with a
fraction always shown, and with an exponent of at least two digits elsewhere.
-/

namespace ReverseMode.Decimal

open ReverseMode.Number

/-- The reals that round to one value of a format, in units that make the ends whole. -/
structure Interval where
  low : Nat
  value : Nat
  high : Nat
  exponent : Int
  closed : Bool

/-- The rounding interval of a positive value of a format. Below a power of two the neighbour
is half as far away. -/
def Interval.around (f : Format) (v : Finite) : Interval :=
  let v := v.within f
  let m := v.significand
  let narrow : Bool := m = Nat.pow 2 (f.precision - 1) ∧ f.least < v.exponent
  { low := if narrow then 4 * m - 1 else 4 * m - 2
    value := 4 * m
    high := 4 * m + 2
    exponent := v.exponent - 2
    closed := m % 2 = 0 }

/-- Whether `k · 10^-places` lies in the interval. -/
def Interval.holds (i : Interval) (k : Nat) (places : Int) : Bool :=
  let (n, d) := dyadicFraction 1 i.exponent
  let (p, q) := decimalFraction k (-places)
  let at_ (bound : Nat) : Nat := bound * n * q
  let point := p * d
  if i.closed then at_ i.low ≤ point && point ≤ at_ i.high
  else at_ i.low < point && point < at_ i.high

/-- The grid point with `count` digits that reads back, the nearer one if both do. -/
def Interval.gridPoint? (i : Interval) (count : Nat) : Option Decimal :=
  let (n, d) := dyadicFraction i.value i.exponent
  let places : Int := (count : Int) - 1 - leading n d
  let (p, q) := scaled n d places
  let below := p / q
  let above := below + 1
  match i.holds below places, i.holds above places with
  | true, true => some ⟨nearestEven p q, -places⟩
  | true, false => some ⟨below, -places⟩
  | false, true => some ⟨above, -places⟩
  | false, false => none

/-- The shortest decimal that reads back as a positive value of a format. -/
def shortest (f : Format) (v : Finite) : Decimal :=
  let i := Interval.around f v
  let found := (List.range 17).findSome? fun k => i.gridPoint? (k + 1)
  let (n, d) := v.fraction
  found.getD (significant 17 n d)

/-- A decimal without trailing zeros in its digits. -/
def reduced (x : Decimal) : Decimal :=
  let kept := (Nat.toDigits 10 x.digits).reverse.dropWhile (· == '0')
  let dropped := width x.digits - kept.length
  if x.digits = 0 then ⟨0, 0⟩ else ⟨x.digits / Nat.pow 10 dropped, x.exponent + dropped⟩

/-- The exponent part of scientific notation: a sign and at least `least` digits. -/
def exponentText (least : Nat) (e : Int) : String :=
  (if e < 0 then "e-" else "e+") ++ padded least e.natAbs

/-- Digits laid out with the point after `point` of them. -/
def positional (digits : String) (point : Int) : String :=
  let count : Int := digits.length
  if point ≤ 0 then "0." ++ "".pushn '0' (-point).toNat ++ digits
  else if count ≤ point then digits ++ "".pushn '0' (point - count).toNat ++ ".0"
  else
    let whole := point.toNat
    String.ofList (digits.toList.take whole) ++ "." ++ String.ofList (digits.toList.drop whole)

/-- A decimal with all its places written out. -/
def positionalText (x : Decimal) : String :=
  let r := x.reduced
  let digits := padded 1 r.digits
  positional digits (digits.length + r.exponent)

/-- A decimal with one digit before the point and an exponent. -/
def scientificText (x : Decimal) : String :=
  let r := x.reduced
  let digits := padded 1 r.digits
  let rest := String.ofList (digits.toList.drop 1)
  String.ofList (digits.toList.take 1) ++ (if rest.isEmpty then "" else "." ++ rest) ++
    exponentText 2 (digits.length + r.exponent - 1)

/-- The number of digits before the point; zero or negative for a number below one. -/
def point (x : Decimal) : Int :=
  let r := x.reduced
  (padded 1 r.digits).length + r.exponent

/-- A positive decimal as text. -/
def laidOut (x : Decimal) : String :=
  if -4 < x.point ∧ x.point ≤ 16 then x.positionalText else x.scientificText

/-- A double as text, given how its magnitude is written if it is finite and not zero. -/
def signed (magnitude : Finite → String) (x : Float) : String :=
  match read x with
  | .nan => "nan"
  | .infinite negative => if negative then "-inf" else "inf"
  | .finite v =>
    (if v.negative then "-" else "") ++ (if v.significand = 0 then "0.0" else magnitude v)

/-- The shortest text of a double that reads back as it. -/
def text (x : Float) : String :=
  signed (fun v => (shortest .double v).laidOut) x

end ReverseMode.Decimal
