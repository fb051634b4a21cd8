import Mathlib.Order.Compare
import Mathlib.Tactic.Linarith
import Mathlib.Tactic.Ring
import ReverseMode.Proofs.WholeFloats

/-!
The order of floats.

The floats of a format stand in one row, from its negative infinity through the two zeros to the
positive one. `steps` counts how far from zero a number stands in this row. Numbers compare as their
places do, and negation exchanges the two sides of the row.
-/

namespace ReverseMode

namespace Number

open Float.Model.UnpackedFloat

open Float.Model (UnpackedFloat)

section Formats

variable {spec : Float.Model.Format} {u v : UnpackedFloat}

/-! ### Representations -/

/-- The numbers of a format. The mantissa of a finite one has all its digits, unless the exponent is
the least one. -/
inductive Canonical (spec : Float.Model.Format) : UnpackedFloat → Prop
  | infinity (s : Sign) : Canonical spec (.infinity s)
  | zero (s : Sign) : Canonical spec (.zero s)
  | finite {s : Sign} {m : Nat} {e : Int} {positive : 0 < m} (least : spec.minExponent ≤ e)
      (largest : e - spec.minExponent + 2 < 2 ^ spec.exponentBits)
      (short : m < 2 ^ (spec.mantissaBitsWithoutImplicit + 1))
      (normal : 2 ^ spec.mantissaBitsWithoutImplicit ≤ m ∨ e = spec.minExponent) :
      Canonical spec (.finite s m e positive)

theorem minExponent_eq (spec : Float.Model.Format) :
    spec.minExponent = 1 - (spec.exponentBias + spec.mantissaBitsWithoutImplicit) := by
  have power : 1 ≤ 2 ^ (spec.exponentBits - 1) := Nat.one_le_two_pow
  unfold Float.Model.Format.minExponent Float.Model.Format.exponentBias
    Float.Model.Format.mantissaBits
  push_cast [power]
  ring

theorem toNat_implicit {n : Nat} (mantissa : BitVec n) :
    (1#1 ++ mantissa).toNat = 2 ^ n + mantissa.toNat := by
  rw [BitVec.toNat_append, ← Nat.shiftLeft_add_eq_or_of_lt mantissa.isLt]
  simp [Nat.shiftLeft_eq]

/-- An exponent that is not the last one, by its number. -/
theorem ne_last {n : Nat} {b : BitVec n} : b ≠ -1#n ↔ b.toNat + 1 < 2 ^ n := by
  have bound := b.isLt
  rw [BitVec.neg_one_eq_allOnes, ne_eq, ← BitVec.toNat_inj, BitVec.toNat_allOnes]
  omega

theorem canonical_unpack (wide : 2 ≤ spec.exponentBits) {b : BitVec spec.numBits}
    (number : UnpackedFloat.unpack spec b ≠ .notANumber) :
    Canonical spec (UnpackedFloat.unpack spec b) := by
  have small := (unpackMantissa b).isLt
  have room : 2 ^ 2 ≤ 2 ^ spec.exponentBits := Nat.pow_le_pow_right Nat.two_pos wide
  unfold UnpackedFloat.unpack at *
  dsimp only at *
  split_ifs at * with top none bottom none
  · exact .infinity _
  · exact absurd rfl number
  · exact .zero _
  · -- the least exponent is written as zero
    have exponent : ((unpackExponent b).toNat : Int) -
        (spec.exponentBias + spec.mantissaBitsWithoutImplicit) + 1 = spec.minExponent := by
      rw [minExponent_eq, bottom, BitVec.toNat_ofNat, Nat.zero_mod]
      ring
    zify at room
    refine .finite exponent.ge ?_ ?_ (.inr exponent)
    · rw [exponent]
      omega
    · rw [pow_succ]
      omega
  · have some : 0 < (unpackExponent b).toNat :=
      Nat.pos_of_ne_zero fun zero => bottom (BitVec.eq_of_toNat_eq zero)
    have below := ne_last.mp top
    zify at some below
    refine .finite ?_ ?_ ?_ (.inl ?_)
    · rw [minExponent_eq]
      omega
    · rw [minExponent_eq]
      omega
    · rw [toNat_implicit, pow_succ]
      omega
    · rw [toNat_implicit]
      omega

/-- A number is unpacked from its three parts. -/
theorem unpack_packComponents (s : Sign) (exponent : BitVec spec.exponentBits)
    (mantissa : BitVec spec.mantissaBitsWithoutImplicit) :
    UnpackedFloat.unpack spec (packComponents spec s exponent mantissa) =
      if exponent = -1#_ then
        if mantissa = 0#_ then .infinity s else .notANumber
      else if exponent = 0#_ then
        if h : mantissa = 0#_ then .zero s
        else .finite s mantissa.toNat spec.minExponent
          (Nat.pos_of_ne_zero fun zero => h (BitVec.eq_of_toNat_eq zero))
      else .finite s (1#1 ++ mantissa).toNat
        (exponent.toNat - (spec.exponentBias + spec.mantissaBitsWithoutImplicit))
        (by rw [toNat_implicit]; positivity) := by
  unfold UnpackedFloat.unpack
  simp only [unpackExponent_packComponents, unpackMantissa_packComponents,
    sign_packComponents]
  split_ifs with top none bottom none
  · rfl
  · rfl
  · rfl
  · have scale : (exponent.toNat : Int) -
        (spec.exponentBias + spec.mantissaBitsWithoutImplicit) + 1 = spec.minExponent := by
      rw [minExponent_eq, bottom, BitVec.toNat_ofNat, Nat.zero_mod]
      ring
    simp only [scale]
  · rfl

/-- A mantissa has all its digits if it is large enough. -/
theorem log2_eq_mantissaBits {m : Nat} (positive : 0 < m)
    (short : m < 2 ^ (spec.mantissaBitsWithoutImplicit + 1)) :
    m.log2 + 1 = spec.mantissaBits ↔ 2 ^ spec.mantissaBitsWithoutImplicit ≤ m := by
  have bound := (Nat.log2_lt positive.ne').mpr short
  rw [← Nat.le_log2 positive.ne', Float.Model.Format.mantissaBits]
  omega

/-- Nothing is lost where a number is packed and unpacked again. -/
theorem Canonical.unpack_pack (canonical : Canonical spec u) (wide : 2 ≤ spec.exponentBits) :
    UnpackedFloat.unpack spec (UnpackedFloat.pack spec u) = u := by
  have room : 2 ^ 2 ≤ 2 ^ spec.exponentBits := Nat.pow_le_pow_right Nat.two_pos wide
  have apart : (0#(spec.exponentBits)) ≠ -1#_ := ne_last.mpr (by simp; omega)
  cases canonical with
  | infinity s =>
    refine (unpack_packComponents s (-1#_) 0#_).trans ?_
    rw [if_pos rfl, if_pos rfl]
  | zero s =>
    refine (unpack_packComponents s 0#_ 0#_).trans ?_
    rw [if_neg apart, if_pos rfl, dif_pos rfl]
  | @finite s m e positive least largest short normal =>
    obtain ⟨k, exponent⟩ := Int.eq_ofNat_of_zero_le (Int.sub_nonneg.mpr least)
    obtain rfl : e = spec.minExponent + k := by omega
    have biased : (spec.minExponent + k + spec.exponentBias +
        spec.mantissaBitsWithoutImplicit).toNat = k + 1 := by
      rw [minExponent_eq]
      omega
    have below : k + 1 + 1 < 2 ^ spec.exponentBits := by
      zify
      omega
    unfold UnpackedFloat.pack
    dsimp only
    rw [biased, if_neg (by omega)]
    simp only [log2_eq_mantissaBits positive short]
    split_ifs with full
    · have exponent : (BitVec.ofNat spec.exponentBits (k + 1)).toNat = k + 1 :=
        Nat.mod_eq_of_lt (by omega)
      have mantissa : (1#1 ++ BitVec.ofNat spec.mantissaBitsWithoutImplicit m).toNat = m := by
        rw [pow_succ] at short
        rw [toNat_implicit, BitVec.toNat_ofNat, Nat.mod_eq_sub_mod full,
          Nat.mod_eq_of_lt (by omega)]
        omega
      have some : BitVec.ofNat spec.exponentBits (k + 1) ≠ 0#_ := by
        intro none
        rw [none] at exponent
        simp at exponent
      rw [unpack_packComponents, if_neg (ne_last.mpr (by omega)), if_neg some]
      simp only [mantissa, exponent]
      congr 1
      rw [minExponent_eq]
      omega
    · have less : m < 2 ^ spec.mantissaBitsWithoutImplicit := Nat.lt_of_not_le full
      obtain rfl : k = 0 := by omega
      have mantissa : (BitVec.ofNat spec.mantissaBitsWithoutImplicit m).toNat = m :=
        Nat.mod_eq_of_lt less
      have some : BitVec.ofNat spec.mantissaBitsWithoutImplicit m ≠ 0#_ := by
        intro none
        rw [none] at mantissa
        simp at mantissa
        omega
      rw [unpack_packComponents, if_neg apart, if_pos rfl, dif_neg some]
      simp only [mantissa]
      congr 1
      omega

theorem Canonical.neg (canonical : Canonical spec u) : Canonical spec u.neg := by
  cases canonical with
  | infinity s => exact .infinity _
  | zero s => exact .zero _
  | finite least largest short normal => exact .finite least largest short normal

/-! ### Places -/

/-- How many steps a number of a format is above zero. -/
def stepsIn (spec : Float.Model.Format) : UnpackedFloat → Int
  | .notANumber | .zero _ => 0
  | .infinity s => s.apply ((2 ^ spec.exponentBits - 1) * 2 ^ spec.mantissaBitsWithoutImplicit)
  | .finite s m e _ =>
    s.apply (m + (e - spec.minExponent) * 2 ^ spec.mantissaBitsWithoutImplicit)

theorem apply_neg (s : Sign) (n : Int) : (-s).apply n = -s.apply n := by
  cases s with
  | positive => rfl
  | negative => exact (neg_neg n).symm

theorem stepsIn_neg (spec : Float.Model.Format) (u : UnpackedFloat) :
    stepsIn spec u.neg = -stepsIn spec u := by
  cases u with
  | notANumber => rfl
  | zero s => rfl
  | infinity s => exact apply_neg s _
  | finite s m e => exact apply_neg s _

section Finite

variable {m n : Nat} {e f : Int} {positive : 0 < m} {positive' : 0 < n} {s t : Sign}

/-- A number of a larger exponent is further from zero. -/
theorem magnitude_lt (first : Canonical spec (.finite s m e positive))
    (second : Canonical spec (.finite t n f positive')) (less : e < f) :
    (m + (e - spec.minExponent) * 2 ^ spec.mantissaBitsWithoutImplicit : Int) <
      n + (f - spec.minExponent) * 2 ^ spec.mantissaBitsWithoutImplicit := by
  cases first with
  | finite least _ short _ =>
    cases second with
    | finite _ _ _ normal =>
      have long := normal.resolve_right (by omega)
      rw [pow_succ] at short
      zify at short long
      have next : (e - spec.minExponent + 1) * 2 ^ spec.mantissaBitsWithoutImplicit ≤
          (f - spec.minExponent) * 2 ^ spec.mantissaBitsWithoutImplicit :=
        Int.mul_le_mul_of_nonneg_right (by omega) (by positivity)
      linarith

theorem compare_magnitude (first : Canonical spec (.finite s m e positive))
    (second : Canonical spec (.finite t n f positive')) :
    (compare e f).then (compare m n) =
      compare (m + (e - spec.minExponent) * 2 ^ spec.mantissaBitsWithoutImplicit : Int)
        (n + (f - spec.minExponent) * 2 ^ spec.mantissaBitsWithoutImplicit) := by
  rcases lt_trichotomy e f with less | rfl | more
  · rw [compare_lt_iff_lt.mpr less, compare_lt_iff_lt.mpr (magnitude_lt first second less)]
    rfl
  · rw [compare_eq_iff_eq.mpr rfl, Ordering.then]
    rcases lt_trichotomy m n with less | rfl | more
    · rw [compare_lt_iff_lt.mpr less, compare_lt_iff_lt.mpr (by omega)]
    · rw [compare_eq_iff_eq.mpr rfl, compare_eq_iff_eq.mpr rfl]
    · rw [compare_gt_iff_gt.mpr more, compare_gt_iff_gt.mpr (by omega)]
  · rw [compare_gt_iff_gt.mpr more, compare_gt_iff_gt.mpr (magnitude_lt second first more)]
    rfl

/-- A finite number stands between zero and infinity. -/
theorem magnitude_between (canonical : Canonical spec (.finite s m e positive)) :
    (0 : Int) < m + (e - spec.minExponent) * 2 ^ spec.mantissaBitsWithoutImplicit ∧
      (m + (e - spec.minExponent) * 2 ^ spec.mantissaBitsWithoutImplicit : Int) <
        (2 ^ spec.exponentBits - 1) * 2 ^ spec.mantissaBitsWithoutImplicit := by
  cases canonical with
  | finite least largest short normal =>
    rw [pow_succ] at short
    zify at short positive
    have bottom : 0 ≤ (e - spec.minExponent) * 2 ^ spec.mantissaBitsWithoutImplicit :=
      Int.mul_nonneg (by omega) (by positivity)
    have top : (e - spec.minExponent + 2) * 2 ^ spec.mantissaBitsWithoutImplicit ≤
        (2 ^ spec.exponentBits - 1) * 2 ^ spec.mantissaBitsWithoutImplicit :=
      Int.mul_le_mul_of_nonneg_right (by omega) (by positivity)
    constructor <;> linarith

end Finite

theorem compare_neg_neg (a b : Int) : compare (-a) (-b) = (compare a b).swap := by
  rcases lt_trichotomy a b with less | rfl | more
  · rw [compare_lt_iff_lt.mpr less, compare_gt_iff_gt.mpr (Int.neg_lt_neg less)]
    rfl
  · rw [compare_eq_iff_eq.mpr rfl, compare_eq_iff_eq.mpr rfl]
    rfl
  · rw [compare_gt_iff_gt.mpr more, compare_lt_iff_lt.mpr (Int.neg_lt_neg more)]
    rfl

/-- Numbers compare as their places do. -/
theorem compare_stepsIn (first : Canonical spec u) (second : Canonical spec v) :
    u.compare v = some (compare (stepsIn spec u) (stepsIn spec v)) := by
  have below {a b : Int} (less : a < b) : some Ordering.lt = some (compare a b) :=
    congrArg some (compare_lt_iff_lt.mpr less).symm
  have above {a b : Int} (more : b < a) : some Ordering.gt = some (compare a b) :=
    congrArg some (compare_gt_iff_gt.mpr more).symm
  have equal (a : Int) : some Ordering.eq = some (compare a a) :=
    congrArg some (compare_eq_iff_eq.mpr rfl).symm
  have top : (0 : Int) <
      (2 ^ spec.exponentBits - 1) * 2 ^ spec.mantissaBitsWithoutImplicit := by
    have power : (1 : Int) < 2 ^ spec.exponentBits := one_lt_pow₀ one_lt_two spec.he.ne'
    exact Int.mul_pos (by omega) (by positivity)
  cases u with
  | notANumber => cases first
  | infinity s =>
    cases v with
    | notANumber => cases second
    | infinity t =>
      cases s <;> cases t <;> simp only [stepsIn, Sign.apply] <;>
        first | exact equal _ | exact below (by omega) | exact above (by omega)
    | zero t =>
      cases s <;> simp only [stepsIn, Sign.apply] <;>
        first | exact below (by omega) | exact above (by omega)
    | finite t n f =>
      have between := magnitude_between second
      cases s <;> cases t <;> simp only [stepsIn, Sign.apply] <;>
        first | exact below (by omega) | exact above (by omega)
  | zero s =>
    cases v with
    | notANumber => cases second
    | infinity t =>
      cases t <;> simp only [stepsIn, Sign.apply] <;>
        first | exact below (by omega) | exact above (by omega)
    | zero t => exact equal _
    | finite t n f =>
      have between := magnitude_between second
      cases t <;> simp only [stepsIn, Sign.apply] <;>
        first | exact below (by omega) | exact above (by omega)
  | finite s m e =>
    have between := magnitude_between first
    cases v with
    | notANumber => cases second
    | infinity t =>
      cases s <;> cases t <;> simp only [stepsIn, Sign.apply] <;>
        first | exact below (by omega) | exact above (by omega)
    | zero t =>
      cases s <;> simp only [stepsIn, Sign.apply] <;>
        first | exact below (by omega) | exact above (by omega)
    | finite t n f =>
      have between' := magnitude_between second
      have magnitudes := compare_magnitude first second
      cases s with
      | positive =>
        cases t with
        | positive => exact congrArg some magnitudes
        | negative => exact above ((Int.neg_neg_of_pos between'.1).trans between.1)
      | negative =>
        cases t with
        | positive => exact below ((Int.neg_neg_of_pos between.1).trans between'.1)
        | negative =>
          simp only [stepsIn, Sign.apply]
          rw [compare_neg_neg, ← magnitudes]
          rfl

theorem lt_stepsIn (first : Canonical spec u) (second : Canonical spec v) :
    u.lt v = true ↔ stepsIn spec u < stepsIn spec v := by
  rw [UnpackedFloat.lt, compare_stepsIn first second, beq_iff_eq, Option.some_inj]
  exact compare_lt_iff_lt

theorem beq_stepsIn (first : Canonical spec u) (second : Canonical spec v) :
    u.beq v = true ↔ stepsIn spec u = stepsIn spec v := by
  rw [UnpackedFloat.beq, compare_stepsIn first second, beq_iff_eq, Option.some_inj]
  exact compare_eq_iff_eq

/-- What is equal to itself is a number. -/
theorem canonical_of_beq (wide : 2 ≤ spec.exponentBits) {b : BitVec spec.numBits}
    (equal : (UnpackedFloat.unpack spec b).beq (UnpackedFloat.unpack spec b) = true) :
    Canonical spec (UnpackedFloat.unpack spec b) := by
  refine canonical_unpack wide fun none => ?_
  rw [none] at equal
  cases equal

end Formats

/-! ### Doubles and singles -/

section Doubles

variable {x y : Float}

/-- How many steps a double is above zero. -/
def steps (x : Float) : Int := stepsIn .binary64 x.toModel.unpack

theorem canonical_double (number : (x == x) = true) : Canonical .binary64 x.toModel.unpack :=
  canonical_of_beq (by decide) number

theorem lt_iff_steps (first : (x == x) = true) (second : (y == y) = true) :
    x < y ↔ steps x < steps y :=
  decide_eq_true_iff.trans (lt_stepsIn (canonical_double first) (canonical_double second))

theorem beq_iff_steps (first : (x == x) = true) (second : (y == y) = true) :
    (x == y) = true ↔ steps x = steps y :=
  beq_stepsIn (canonical_double first) (canonical_double second)

theorem steps_neg (number : (x == x) = true) : (-x == -x) = true ∧ steps (-x) = -steps x := by
  have canonical := canonical_double number
  have opposite : (-x).toModel.unpack = x.toModel.unpack.neg :=
    canonical.neg.unpack_pack (by decide)
  constructor
  · change (-x).toModel.unpack.beq (-x).toModel.unpack = true
    rw [opposite]
    exact (beq_stepsIn canonical.neg canonical.neg).mpr rfl
  · rw [steps, opposite]
    exact stepsIn_neg _ _

end Doubles

section Singles

variable {x y : Float32}

/-- How many steps a single is above zero. -/
def stepsSingle (x : Float32) : Int := stepsIn .binary32 x.toModel.unpack

theorem canonical_single (number : (x == x) = true) : Canonical .binary32 x.toModel.unpack :=
  canonical_of_beq (by decide) number

theorem lt_iff_stepsSingle (first : (x == x) = true) (second : (y == y) = true) :
    x < y ↔ stepsSingle x < stepsSingle y :=
  decide_eq_true_iff.trans (lt_stepsIn (canonical_single first) (canonical_single second))

theorem beq_iff_stepsSingle (first : (x == x) = true) (second : (y == y) = true) :
    (x == y) = true ↔ stepsSingle x = stepsSingle y :=
  beq_stepsIn (canonical_single first) (canonical_single second)

theorem stepsSingle_neg (number : (x == x) = true) :
    (-x == -x) = true ∧ stepsSingle (-x) = -stepsSingle x := by
  have canonical := canonical_single number
  have opposite : (-x).toModel.unpack = x.toModel.unpack.neg :=
    canonical.neg.unpack_pack (by decide)
  constructor
  · change (-x).toModel.unpack.beq (-x).toModel.unpack = true
    rw [opposite]
    exact (beq_stepsIn canonical.neg canonical.neg).mpr rfl
  · rw [stepsSingle, opposite]
    exact stepsIn_neg _ _

end Singles

end Number

end ReverseMode
