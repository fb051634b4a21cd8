import Mathlib.Analysis.SpecialFunctions.Log.Basic
import Mathlib.Analysis.SpecialFunctions.Sqrt
import Mathlib.Analysis.SpecialFunctions.Trigonometric.Basic
import Mathlib.Data.Real.Sign
import ReverseMode.Proofs.Comparisons

/-!
Real numbers as elements.

Nothing is rounded and nothing is refused: every operation is the one of the real numbers, a double
is the number that it is, and an element names the place of an axis that its integral part names.
-/

namespace ReverseMode

open scoped Element

noncomputable instance : Element ℝ where
  literal
    | .whole n | .int _ n => n
    | .bool b => if b then 1 else 0
    | .real x | .float64 x => Number.rational x
    | _ => 0
  store _ x := x
  like _ x := x
  replace _ x := x
  refusal? _ := none
  add := (· + ·)
  sub := (· - ·)
  mul := (· * ·)
  div := (· / ·)
  max := max
  min := min
  clamp low high x := min (max x low) high
  neg := (- ·)
  abs x := |x|
  sign := Real.sign
  exp := Real.exp
  log := Real.log
  sin := Real.sin
  cos := Real.cos
  tan := Real.tan
  tanh := Real.tanh
  sqrt := Real.sqrt
  pow := (· ^ ·)
  logaddexp x y := Real.log (Real.exp x + Real.exp y)
  lt x y := decide (x < y)
  le x y := decide (x ≤ y)
  eq x y := decide (x = y)
  sum runs := runs.flatten.sum
  prod _ xs := xs.prod
  mean xs := xs.sum / xs.length
  dot xs ys := (List.zipWith (· * ·) xs ys).sum
  position x := ⌊x⌋
  position? x := if ⌊x⌋ = x then some ⌊x⌋ else none
  toFloat _ := 0

/-- Elements that are read as real numbers are computed with as these are: exponentials, logarithms
of positive numbers and square roots of numbers that are not negative are those of real numbers, and
a quotient is never refused. -/
structure Element.Reading.Analytic {α : Type} [Element α] {type : StorageType}
    (ρ : Element.Reading α ℝ type) : Prop extends ρ.Arithmetic, ρ.Divides, ρ.Compares where
  exp {x : α} : ρ.carrier x → ρ.carrier (Element.exp x) ∧ ρ.val (Element.exp x) = Real.exp (ρ.val x)
  log {x : α} : ρ.carrier x → 0 < ρ.val x →
    ρ.carrier (Element.log x) ∧ ρ.val (Element.log x) = Real.log (ρ.val x)
  sqrt {x : α} : ρ.carrier x → 0 ≤ ρ.val x →
    ρ.carrier (Element.sqrt x) ∧ ρ.val (Element.sqrt x) = √(ρ.val x)
  real (c : Float) : ρ.carrier (Element.real c)
  one : ρ.val (Element.real 1.0) = 1
  replace {x y : α} : ρ.carrier x → ρ.carrier y →
    ρ.carrier (Element.replace x y) ∧ ρ.val (Element.replace x y) = ρ.val y
  unrefused {x y z : α} : ρ.carrier x → ρ.carrier y → ρ.carrier z →
    Element.refusal? (Element.replace x (y / z)) = none

namespace Element

/-- Real numbers stand for themselves, whatever the type. -/
noncomputable def reals (type : StorageType) : Element.Reading ℝ ℝ type where
  carrier _ := True
  val x := x
  refusal? _ := rfl
  add _ _ := ⟨trivial, rfl⟩
  mul _ _ := ⟨trivial, rfl⟩
  like _ _ := ⟨trivial, rfl⟩
  store _ := ⟨trivial, rfl⟩
  zero := ⟨trivial, Int.cast_zero⟩
  sum _ _ := ⟨trivial, by rw [List.map_id']; rfl⟩

variable (type : StorageType)

theorem reals_arithmetic : (reals type).Arithmetic where
  neg _ := ⟨trivial, rfl⟩
  sub _ _ := ⟨trivial, rfl⟩
  whole n := ⟨trivial, Int.cast_natCast n⟩
  two := by
    refine ⟨trivial, ?_⟩
    change ((Number.rational 2.0 : ℚ) : ℝ) = 2
    rw [Number.rational_two]
    norm_num
  prod _ _ := ⟨trivial, congrArg List.prod (List.map_id _).symm⟩

theorem reals_divides : (reals type).Divides where
  div _ _ unit := ⟨trivial, div_mul_cancel₀ _ unit.ne_zero⟩
  mean _ _ unit := ⟨trivial, (div_mul_cancel₀ _ unit.ne_zero).trans
    (congrArg List.sum (List.map_id _).symm)⟩

theorem reals_compares : (reals type).Compares where
  lt _ _ := rfl
  le _ _ := rfl
  eq _ _ := rfl
  max _ _ := ⟨trivial, rfl⟩
  min _ _ := ⟨trivial, rfl⟩
  mask {x} b _ := by
    refine ⟨trivial, ?_⟩
    cases b with
    | true => exact mul_one x
    | false => exact mul_zero x

theorem reals_analytic : (reals type).Analytic where
  toArithmetic := reals_arithmetic type
  toDivides := reals_divides type
  toCompares := reals_compares type
  exp _ := ⟨trivial, rfl⟩
  log _ _ := ⟨trivial, rfl⟩
  sqrt _ _ := ⟨trivial, rfl⟩
  real _ := trivial
  one := by
    change ((Number.rational 1.0 : ℚ) : ℝ) = 1
    rw [Number.rational_one, Rat.cast_one]
  replace _ _ := ⟨trivial, rfl⟩
  unrefused _ _ _ := rfl

variable {type}

/-- Every array of real numbers is read. -/
theorem holds_reals (t : Tensor ℝ) : (reals type).Holds t := fun _ _ => trivial

end Element

/-- An array of the real numbers `0`, `1`, `2`, … in row-major order. -/
noncomputable def Sample.enumerated (shape : List Nat) : Tensor ℝ :=
  .ofFn shape fun pos => (offset shape pos : ℝ)

end ReverseMode
