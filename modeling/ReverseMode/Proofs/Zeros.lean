import Mathlib

/-!
Equality of floats as numbers, and as representations.

Numbers that are equal have one representation, apart from zero, which has one for each sign.
-/

namespace ReverseMode

namespace Zeros

open Float.Model Float.Model.UnpackedFloat Float.Model.Format

section Components

variable {b c : BitVec binary64.numBits}

theorem toNat_unpackMantissa (b : BitVec binary64.numBits) :
    (unpackMantissa b).toNat = b.toNat % 2 ^ 52 := by
  simp [unpackMantissa, BitVec.extractLsb_toNat]

theorem toNat_unpackExponent (b : BitVec binary64.numBits) :
    (unpackExponent b).toNat = b.toNat / 2 ^ 52 % 2 ^ 11 := by
  simp [unpackExponent, BitVec.extractLsb_toNat, Nat.shiftRight_eq_div_pow]

theorem toNat_unpackSign (b : BitVec binary64.numBits) :
    (unpackSign b).toNat = b.toNat / 2 ^ 63 % 2 := by
  simp [unpackSign, BitVec.extractLsb_toNat, Nat.shiftRight_eq_div_pow]

/-- Sign, exponent and mantissa make up the representation. -/
theorem eq_of_components (sign : unpackSign b = unpackSign c)
    (exponent : unpackExponent b = unpackExponent c)
    (mantissa : unpackMantissa b = unpackMantissa c) : b = c := by
  have signs := congrArg BitVec.toNat sign
  have exponents := congrArg BitVec.toNat exponent
  have mantissas := congrArg BitVec.toNat mantissa
  rw [toNat_unpackSign, toNat_unpackSign] at signs
  rw [toNat_unpackExponent, toNat_unpackExponent] at exponents
  rw [toNat_unpackMantissa, toNat_unpackMantissa] at mantissas
  have small : b.toNat < 2 ^ 64 := b.isLt
  have small' : c.toNat < 2 ^ 64 := c.isLt
  apply BitVec.eq_of_toNat_eq
  omega

theorem sign_inj {p q : BitVec 1} (same : Sign.ofBitVec p = Sign.ofBitVec q) : p = q := by
  have small := p.isLt
  have small' := q.isLt
  apply BitVec.eq_of_toNat_eq
  unfold Sign.ofBitVec at same
  by_cases first : p = 0#1
  · by_cases second : q = 0#1
    · rw [first, second]
    · rw [if_pos first, if_neg second] at same
      cases same
  · by_cases second : q = 0#1
    · rw [if_neg first, if_pos second] at same
      cases same
    · have := mt BitVec.eq_of_toNat_eq first
      have := mt BitVec.eq_of_toNat_eq second
      simp only [BitVec.toNat_ofNat] at *
      omega

end Components

/-- The parts of an unpacked number, as they are packed. -/
inductive Parts (b : BitVec binary64.numBits) : UnpackedFloat → Prop
  | infinity (exponent : unpackExponent b = -1#_) (mantissa : unpackMantissa b = 0#_) :
      Parts b (.infinity (.ofBitVec (unpackSign b)))
  | notANumber : Parts b .notANumber
  | zero (exponent : unpackExponent b = 0#_) (mantissa : unpackMantissa b = 0#_) :
      Parts b (.zero (.ofBitVec (unpackSign b)))
  | subnormal {m : Nat} {e : Int} (positive : 0 < m) (exponent : unpackExponent b = 0#_)
      (mantissa : m = (unpackMantissa b).toNat) (scale : e = -1074) :
      Parts b (.finite (.ofBitVec (unpackSign b)) m e positive)
  | normal {m : Nat} {e : Int} (positive : 0 < m)
      (mantissa : m = 2 ^ 52 + (unpackMantissa b).toNat)
      (scale : e = ((unpackExponent b).toNat : Int) - 1075) :
      Parts b (.finite (.ofBitVec (unpackSign b)) m e positive)

theorem parts_unpack (b : BitVec binary64.numBits) : Parts b (UnpackedFloat.unpack binary64 b) := by
  unfold UnpackedFloat.unpack
  by_cases top : unpackExponent b = -1#_
  · rw [if_pos top]
    by_cases none : unpackMantissa b = 0#_
    · rw [if_pos none]
      exact .infinity top none
    · rw [if_neg none]
      exact .notANumber
  · rw [if_neg top]
    by_cases bottom : unpackExponent b = 0#_
    · rw [if_pos bottom]
      by_cases none : unpackMantissa b = 0#_
      · rw [dif_pos none]
        exact .zero bottom none
      · rw [dif_neg none]
        refine .subnormal _ bottom rfl ?_
        rw [bottom]
        rfl
    · rw [if_neg bottom]
      refine .normal _ ?_ rfl
      rw [BitVec.toNat_append, Nat.shiftLeft_eq, Nat.mul_comm,
        ← Nat.two_pow_add_eq_or_of_lt (unpackMantissa b).isLt]
      rfl

/-- Representations of one number are equal, unless they are not of a number. -/
theorem unpack_inj {b c : BitVec binary64.numBits}
    (same : UnpackedFloat.unpack binary64 b = UnpackedFloat.unpack binary64 c)
    (number : UnpackedFloat.unpack binary64 b ≠ .notANumber) : b = c := by
  have first := parts_unpack b
  have second := parts_unpack c
  rw [← same] at second
  generalize UnpackedFloat.unpack binary64 b = u at first second number
  cases first with
  | infinity exponent mantissa =>
    generalize equal : UnpackedFloat.infinity _ = v at second
    cases second with
    | infinity exponent' mantissa' =>
      exact eq_of_components (sign_inj (UnpackedFloat.infinity.inj equal))
        (exponent.trans exponent'.symm) (mantissa.trans mantissa'.symm)
    | _ => cases equal
  | notANumber => exact absurd rfl number
  | zero exponent mantissa =>
    generalize equal : UnpackedFloat.zero _ = v at second
    cases second with
    | zero exponent' mantissa' =>
      exact eq_of_components (sign_inj (UnpackedFloat.zero.inj equal))
        (exponent.trans exponent'.symm) (mantissa.trans mantissa'.symm)
    | _ => cases equal
  | subnormal positive exponent mantissa scale =>
    generalize equal : UnpackedFloat.finite _ _ _ _ = v at second
    cases second with
    | subnormal positive' exponent' mantissa' scale' =>
      obtain ⟨sign, m, -⟩ := UnpackedFloat.finite.inj equal
      exact eq_of_components (sign_inj sign) (exponent.trans exponent'.symm)
        (BitVec.eq_of_toNat_eq (by omega))
    | normal positive' mantissa' scale' =>
      obtain ⟨-, m, -⟩ := UnpackedFloat.finite.inj equal
      have small : (unpackMantissa b).toNat < 2 ^ 52 := (unpackMantissa b).isLt
      omega
    | _ => cases equal
  | normal positive mantissa scale =>
    generalize equal : UnpackedFloat.finite _ _ _ _ = v at second
    cases second with
    | subnormal positive' exponent' mantissa' scale' =>
      obtain ⟨-, m, -⟩ := UnpackedFloat.finite.inj equal
      have small : (unpackMantissa c).toNat < 2 ^ 52 := (unpackMantissa c).isLt
      omega
    | normal positive' mantissa' scale' =>
      obtain ⟨sign, m, e⟩ := UnpackedFloat.finite.inj equal
      exact eq_of_components (sign_inj sign) (BitVec.eq_of_toNat_eq (by omega))
        (BitVec.eq_of_toNat_eq (by omega))
    | _ => cases equal

/-- Two unpacked numbers that compare as equal are the same, or both zero. -/
theorem eq_or_zero_of_compare {u v : UnpackedFloat} (equal : u.compare v = some .eq) :
    (u = v ∧ u ≠ .notANumber) ∨ ∃ s t, u = .zero s ∧ v = .zero t := by
  cases u with
  | infinity s => cases v with
    | infinity t =>
      cases s <;> cases t <;> first | exact .inl ⟨rfl, nofun⟩ | cases equal
    | notANumber => cases equal
    | _ => cases s <;> cases equal
  | notANumber => cases equal
  | zero s => cases v with
    | infinity t => cases t <;> cases equal
    | notANumber => cases equal
    | zero t => exact .inr ⟨s, t, rfl, rfl⟩
    | finite t => cases t <;> cases equal
  | finite s m e positive => cases v with
    | infinity t => cases s <;> cases t <;> cases equal
    | notANumber => cases s <;> cases equal
    | zero t => cases s <;> cases equal
    | finite t m' e' positive' =>
      have parts : s = t ∧ compare e e' = .eq ∧ compare m m' = .eq := by
        cases s <;> cases t <;>
          simp_all [UnpackedFloat.compare, Ordering.then_eq_eq, Ordering.swap_eq_eq]
      obtain ⟨rfl, exponent, mantissa⟩ := parts
      cases Int.compare_eq_eq.mp exponent
      cases Nat.compare_eq_eq.mp mantissa
      exact .inl ⟨rfl, nofun⟩

/-- The two zeros. -/
def Opposite (x y : Float) : Prop := x = 0.0 ∧ y = -0.0 ∨ x = -0.0 ∧ y = 0.0

theorem toModel_inj {x y : Float} (same : x.toModel.unpack = y.toModel.unpack)
    (number : x.toModel.unpack ≠ .notANumber) : x = y := by
  obtain ⟨⟨bits, valid⟩⟩ := x
  obtain ⟨⟨bits', valid'⟩⟩ := y
  have : bits = bits' := UInt64.toBitVec_inj.mp (unpack_inj same number)
  subst this
  rfl

theorem zero_of_unpack {x : Float} {s : Sign} (zero : x.toModel.unpack = .zero s) :
    x = 0.0 ∨ x = -0.0 := by
  cases s with
  | positive => exact .inl (toModel_inj zero (by rw [zero]; nofun))
  | negative => exact .inr (toModel_inj zero (by rw [zero]; nofun))

/-- Floats that are equal as numbers are the same float, or the two zeros. -/
theorem eq_or_opposite {x y : Float} (equal : (x == y) = true) : x = y ∨ Opposite x y := by
  have compared : x.toModel.unpack.compare y.toModel.unpack = some .eq := beq_iff_eq.mp equal
  rcases eq_or_zero_of_compare compared with ⟨same, number⟩ | ⟨s, t, first, second⟩
  · exact .inl (toModel_inj same number)
  · rcases zero_of_unpack first with rfl | rfl <;> rcases zero_of_unpack second with rfl | rfl
    · exact .inl rfl
    · exact .inr (.inl ⟨rfl, rfl⟩)
    · exact .inr (.inr ⟨rfl, rfl⟩)
    · exact .inl rfl

end Zeros

end ReverseMode
