import ReverseMode.Number.Rounding

/-!
Doubles read as exact binary numbers.

A finite double is `± significand · 2^exponent`. Everything that has to be exact
(rounding to half precision, decimal digits, truncation to an integer) starts
from this reading and works in natural numbers.
-/

namespace ReverseMode.Number

/-- A finite double, exactly: `significand · 2^exponent`, negated if `negative`. -/
structure Finite where
  negative : Bool
  significand : Nat
  exponent : Int
deriving DecidableEq, Repr, Inhabited

/-- What the bits of a double stand for. -/
inductive Reading where
  | finite (value : Finite)
  | infinite (negative : Bool)
  | nan
deriving DecidableEq, Repr, Inhabited

/-- The exact value of a double. -/
def read (x : Float) : Reading :=
  let bits : Nat := x.toBits.toNat
  let negative : Bool := Nat.pow 2 63 ≤ bits
  let field : Nat := bits / Nat.pow 2 52 % Nat.pow 2 11
  let fraction : Nat := bits % Nat.pow 2 52
  if field = 2047 then
    if fraction = 0 then .infinite negative else .nan
  else if field = 0 then .finite ⟨negative, fraction, -1074⟩
  else .finite ⟨negative, Nat.pow 2 52 + fraction, (field : Int) - 1075⟩

/-- The double with this exact value, where there is one. -/
def Finite.toFloat (v : Finite) : Float :=
  let magnitude := Float.scaleB (Float.ofNat v.significand) v.exponent
  if v.negative then -magnitude else magnitude

/-- A binary format: its significant bits, and the exponent of its smallest positive value. -/
structure Format where
  precision : Nat
  least : Int
deriving DecidableEq, Repr, Inhabited

namespace Format

def double : Format := ⟨53, -1074⟩

def single : Format := ⟨24, -149⟩

def half : Format := ⟨11, -24⟩

/-- The exponent of the last bit kept when a value is rounded to a format. -/
def quantum (f : Format) (v : Finite) : Int :=
  max f.least (v.exponent + (Nat.log2 v.significand : Int) + 1 - f.precision)

end Format

/-- A value of a format with the significand and the exponent it has there. -/
def Finite.within (f : Format) (v : Finite) : Finite :=
  let (n, d) := dyadicFraction v.significand (v.exponent - f.quantum v)
  { v with significand := n / d, exponent := f.quantum v }

/-- The magnitude of a finite value as a quotient. -/
def Finite.fraction (v : Finite) : Nat × Nat :=
  dyadicFraction v.significand v.exponent

/-- The integer left when the fractional part is dropped. -/
def Finite.truncate (v : Finite) : Int :=
  let (n, d) := v.fraction
  let whole : Int := (n / d : Nat)
  if v.negative then -whole else whole

/-- Whether the value is an integer. -/
def Finite.isWhole (v : Finite) : Bool :=
  let (n, d) := v.fraction
  n % d = 0

/-- A finite double without its fractional part; none for an infinity or a NaN. -/
def truncate? (x : Float) : Option Int :=
  match read x with
  | .finite v => some v.truncate
  | _ => none

/-- Whether a double is a finite integer. -/
def isWhole (x : Float) : Bool :=
  match read x with
  | .finite v => v.isWhole
  | _ => false

/-- The double nearest to an integer, infinite beyond the finite range. -/
def ofInt (n : Int) : Float :=
  let magnitude := Float.ofScientific n.natAbs false 0
  if n < 0 then -magnitude else magnitude

/-- The double nearest to an integer; none if that is beyond the finite range. -/
def ofInt? (n : Int) : Option Float :=
  let x := ofInt n
  if x.isInf then none else some x

/-- The double nearest to `n · 2^e`, where that is not below the normal range; infinite
beyond the finite range. -/
def ofScaled (n : Nat) (e : Int) : Float :=
  let dropped := Nat.log2 n + 1 - Format.double.precision
  Float.scaleB (Float.ofNat (nearestEven n (Nat.pow 2 dropped))) (dropped + e)

end ReverseMode.Number
