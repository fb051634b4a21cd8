import Mathlib.Algebra.DualNumber
import Mathlib.Algebra.Field.Rat
import Mathlib.Tactic.NormNum
import ReverseMode.Number.Binary
import ReverseMode.Proofs.RingReading

/-!
Elements whose arithmetic is that of a ring.

A reading in a ring speaks of sums and products. Where differences, quotients, means and the
numbers that formulas name are those of the ring as well, a formula of elements is the formula of
what they stand for. Members of a ring are such elements themselves: rational numbers are, and so
are numbers with an infinitesimal part, which carry the direction in which they change.
-/

namespace ReverseMode

open scoped Element

namespace Element.Reading

variable {α R : Type} [Element α] [CommRing R] {type : StorageType}

/-- A row is multiplied with a column as in the ring. -/
def Dots (ρ : Element.Reading α R type) : Prop :=
  ∀ {xs ys : List α}, xs.length = ys.length → xs ≠ [] → (∀ x ∈ xs, ρ.carrier x) →
    (∀ y ∈ ys, ρ.carrier y) → ρ.carrier (Element.dot xs ys) ∧
      ρ.val (Element.dot xs ys) = (List.zipWith (fun x y => ρ.val x * ρ.val y) xs ys).sum

/-- The arithmetic of elements is that of the ring. -/
structure Arithmetic (ρ : Element.Reading α R type) : Prop where
  neg {x : α} : ρ.carrier x → ρ.carrier (-x) ∧ ρ.val (-x) = -ρ.val x
  sub {x y : α} : ρ.carrier x → ρ.carrier y →
    ρ.carrier (x - y) ∧ ρ.val (x - y) = ρ.val x - ρ.val y
  whole (n : Nat) : ρ.carrier (whole n) ∧ ρ.val (whole n) = n
  two : ρ.carrier (real 2.0) ∧ ρ.val (real 2.0) = 2
  prod {dense : Bool} {xs : List α} : xs ≠ [] → (∀ x ∈ xs, ρ.carrier x) →
    ρ.carrier (Element.prod dense xs) ∧ ρ.val (Element.prod dense xs) = (xs.map ρ.val).prod

/-- Elements are divided where the ring can be. -/
structure Divides (ρ : Element.Reading α R type) : Prop where
  div {x y : α} : ρ.carrier x → ρ.carrier y → IsUnit (ρ.val y) →
    ρ.carrier (x / y) ∧ ρ.val (x / y) * ρ.val y = ρ.val x
  mean {xs : List α} : xs ≠ [] → (∀ x ∈ xs, ρ.carrier x) → IsUnit (xs.length : R) →
    ρ.carrier (Element.mean xs) ∧ ρ.val (Element.mean xs) * xs.length = (xs.map ρ.val).sum

/-- Quotients of elements that are read in a field. -/
theorem Divides.quotient {F : Type} [Field F] {ρ : Element.Reading α F type} (divides : ρ.Divides)
    {x y : α} (first : ρ.carrier x) (second : ρ.carrier y) (divisor : ρ.val y ≠ 0) :
    ρ.carrier (x / y) ∧ ρ.val (x / y) = ρ.val x / ρ.val y := by
  obtain ⟨carried, quotient⟩ := divides.div first second (IsUnit.mk0 _ divisor)
  exact ⟨carried, eq_div_of_mul_eq divisor quotient⟩

end Element.Reading

/-! ### Members of a ring -/

/-- Members of a ring as elements; what a ring cannot say is zero. -/
@[reducible]
def Element.ofRing {R : Type} [CommRing R] (divide : R → R → R) (number : Float → R) :
    Element R where
  literal
    | .whole n | .int _ n => n
    | .bool b => if b then 1 else 0
    | .real x | .float64 x => number x
    | _ => 0
  store _ x := x
  like _ x := x
  replace _ x := x
  refusal? _ := none
  add := (· + ·)
  sub := (· - ·)
  mul := (· * ·)
  div := divide
  max x _ := x
  min x _ := x
  clamp _ _ x := x
  neg := (- ·)
  abs x := x
  sign _ := 0
  exp _ := 0
  log _ := 0
  sin _ := 0
  cos _ := 0
  tan _ := 0
  tanh _ := 0
  sqrt _ := 0
  pow := (· ^ ·)
  logaddexp _ _ := 0
  lt _ _ := false
  le _ _ := false
  eq _ _ := false
  sum runs := runs.flatten.sum
  prod _ xs := xs.prod
  mean xs := divide xs.sum xs.length
  dot xs ys := (List.zipWith (· * ·) xs ys).sum
  position _ := 0
  position? _ := none
  toFloat _ := 0

namespace Element.Reading

variable {R : Type} [CommRing R] {divide : R → R → R} {number : Float → R}

/-- Members of a ring stand for themselves. -/
def ofRing (divide : R → R → R) (number : Float → R) (type : StorageType) :
    @Element.Reading R R (Element.ofRing divide number) _ type :=
  letI := Element.ofRing divide number
  { carrier _ := True
    val x := x
    refusal? _ := rfl
    add _ _ := ⟨trivial, rfl⟩
    mul _ _ := ⟨trivial, rfl⟩
    like _ _ := ⟨trivial, rfl⟩
    store _ := ⟨trivial, rfl⟩
    zero := ⟨trivial, Int.cast_zero⟩
    sum _ _ := ⟨trivial, by rw [List.map_id']; rfl⟩ }

theorem dots_ofRing (type : StorageType) :
    letI := Element.ofRing divide number
    (ofRing divide number type).Dots :=
  fun _ _ _ _ => ⟨trivial, rfl⟩

theorem arithmetic_ofRing (two : number 2.0 = 2) (type : StorageType) :
    letI := Element.ofRing divide number
    (ofRing divide number type).Arithmetic :=
  letI := Element.ofRing divide number
  { neg _ := ⟨trivial, rfl⟩
    sub _ _ := ⟨trivial, rfl⟩
    whole n := ⟨trivial, Int.cast_natCast n⟩
    two := ⟨trivial, two⟩
    prod _ _ := ⟨trivial, congrArg List.prod (List.map_id _).symm⟩ }

theorem divides_ofRing (quotient : ∀ x y, IsUnit y → divide x y * y = x) (type : StorageType) :
    letI := Element.ofRing divide number
    (ofRing divide number type).Divides :=
  letI := Element.ofRing divide number
  { div _ _ unit := ⟨trivial, quotient _ _ unit⟩
    mean _ _ unit :=
      ⟨trivial, (quotient _ _ unit).trans (congrArg List.sum (List.map_id _).symm)⟩ }

end Element.Reading

/-! ### Rational numbers -/

/-- The rational number that a double is; infinities and what is no number are read as zero. -/
def Number.rational (x : Float) : ℚ :=
  match Number.read x with
  | .finite v => (if v.negative then -1 else 1) * v.significand * 2 ^ v.exponent
  | _ => 0

theorem Number.rational_two : Number.rational 2.0 = 2 := by
  have read : Number.read 2.0 = .finite ⟨false, 2 ^ 52, -51⟩ := by decide +kernel
  rw [rational, read]
  norm_num

theorem Number.rational_one : Number.rational 1.0 = 1 := by
  have read : Number.read 1.0 = .finite ⟨false, 2 ^ 52, -52⟩ := by decide +kernel
  rw [rational, read]
  norm_num

instance : Element ℚ := .ofRing (· / ·) Number.rational

/-- Rational numbers stand for themselves, whatever the type. -/
def Element.rationals (type : StorageType) : Element.Reading ℚ ℚ type := .ofRing _ _ type

theorem Element.rationals_arithmetic (type : StorageType) : (Element.rationals type).Arithmetic :=
  Element.Reading.arithmetic_ofRing Number.rational_two type

theorem Element.rationals_divides (type : StorageType) : (Element.rationals type).Divides :=
  Element.Reading.divides_ofRing (fun x _ unit => div_mul_cancel₀ x unit.ne_zero) type

/-- An array of the rational numbers `0`, `1`, `2`, … in row-major order. -/
def Sample.numbered (shape : List Nat) : Tensor ℚ := .ofFn shape fun pos => (offset shape pos : ℚ)

open DualNumber

/-- Rational numbers with an infinitesimal part. -/
instance : Element ℚ[ε] :=
  .ofRing (fun x y => x * y⁻¹) fun c => TrivSqZeroExt.inl (Number.rational c)

/-- Rational numbers with an infinitesimal part stand for themselves, whatever the type. -/
def Element.infinitesimals (type : StorageType) : Element.Reading ℚ[ε] ℚ[ε] type :=
  .ofRing _ _ type

theorem Element.infinitesimals_arithmetic (type : StorageType) :
    (Element.infinitesimals type).Arithmetic :=
  Element.Reading.arithmetic_ofRing (congrArg TrivSqZeroExt.inl Number.rational_two) type

theorem Element.infinitesimals_divides (type : StorageType) :
    (Element.infinitesimals type).Divides := by
  refine Element.Reading.divides_ofRing ?_ type
  intro x y unit
  have finite := (TrivSqZeroExt.isUnit_iff_isUnit_fst.mp unit).ne_zero
  rw [mul_assoc, TrivSqZeroExt.inv_mul_cancel finite, mul_one]

end ReverseMode
