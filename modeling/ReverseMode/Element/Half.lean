import ReverseMode.Number.Binary

/-!
Half precision: eleven significant bits, quantum at least `2^-24`, largest finite
value 65504.

A half is held as the single of the same value. `round` takes a double to the
nearest half directly, so no intermediate precision is passed through.
-/

namespace ReverseMode.Half

open ReverseMode.Number

/-- First magnitude that is too large for a half, as a whole number. -/
def limit : Nat := 65536

/-- The half nearest to a finite value, as multiples of its quantum. -/
def roundFinite (v : Finite) : Nat :=
  let (n, d) := dyadicFraction v.significand (v.exponent - Format.half.quantum v)
  nearestEven n d

/-- The half nearest to a double, ties to even; magnitudes that round to 65536 or
more become infinite. -/
def round (x : Float) : Float32 :=
  match read x with
  | .finite v =>
    let units := roundFinite v
    let (n, d) := dyadicFraction units (Format.half.quantum v)
    let rounded : Float :=
      if limit * d ≤ n then 1.0 / 0.0 else Float.scaleB (Float.ofNat units) (Format.half.quantum v)
    (if v.negative then -rounded else rounded).toFloat32
  | _ => x.toFloat32

/-- The half nearest to a single. -/
def roundSingle (x : Float32) : Float32 :=
  round x.toFloat

end ReverseMode.Half
