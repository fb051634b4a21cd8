import ReverseMode.Proofs.FloatNumbers
import ReverseMode.Proofs.Zeros

/-!
Counts as floats.

The number of elements of an array takes part in means. It is far below the largest double, so
however often it is rounded on its way to a double, the result is finite.
-/

namespace ReverseMode

namespace Number

open Float.Model Float.Model.UnpackedFloat Float.Model.Format

/-- A number that is not infinite, of a limited mantissa and a limited exponent. -/
inductive Below (mantissa : Nat) (exponent : Int) : UnpackedFloat → Prop
  | notANumber : Below mantissa exponent .notANumber
  | zero (s : Sign) : Below mantissa exponent (.zero s)
  | finite {s : Sign} {m : Nat} {e : Int} {positive : 0 < m} (small : m < mantissa)
      (low : e ≤ exponent) : Below mantissa exponent (.finite s m e positive)

/-! ### Rounding -/

theorem mantissa_shiftRight (em : ExtendedMantissa) (n : Nat) :
    (em >>> n).mantissa ≤ em.mantissa := by
  change (n.repeat ExtendedMantissa.shiftRightOne em).mantissa ≤ em.mantissa
  induction n with
  | zero => exact Nat.le_refl _
  | succ n ih => exact (Nat.div_le_self _ 2).trans ih

theorem mantissa_shiftToExponent (m : Nat) (e : Int) (accuracy : Accuracy) (target : Int) :
    (shiftToExponent m e accuracy target).1.mantissa ≤ m := by
  refine (mantissa_shiftRight _ _).trans (Nat.le_of_eq ?_)
  cases accuracy with
  | exact => rfl
  | inexact relative => cases relative <;> rfl

theorem exponent_shiftToExponent (m : Nat) (e : Int) (accuracy : Accuracy) (target : Int) :
    (shiftToExponent m e accuracy target).2 = max e target := by
  change e + ((target - e).toNat : Int) = max e target
  omega

theorem roundedMantissa_le (em : ExtendedMantissa) : em.roundedMantissa ≤ em.mantissa + 1 := by
  unfold ExtendedMantissa.roundedMantissa
  cases em.accuracy with
  | exact => exact Nat.le_succ _
  | inexact relative =>
    cases relative with
    | lt => exact Nat.le_succ _
    | eq =>
      have := Nat.mod_lt em.mantissa (show 0 < 2 by decide)
      change em.mantissa + em.mantissa % 2 ≤ em.mantissa + 1
      omega
    | gt => exact Nat.le_refl _

/-- The exponent that a mantissa of at most `bits` digits is shifted to. -/
theorem targetExponent_le {m bits : Nat} {e : Int} (small : m < 2 ^ bits) :
    binary64.targetExponent (totalExponent m e) ≤ max (bits + e - 52) (-1074) := by
  have log : m.log2 ≤ bits := by
    by_cases zero : m = 0
    · rw [zero]
      exact Nat.zero_le _
    · exact Nat.le_of_lt ((Nat.log2_lt zero).mpr small)
  change max ((m.log2 : Int) + 1 + e - 53) (-1074) ≤ _
  omega

/-- Rounding a number of moderate size gives one of moderate size. The bounds are far from what a
double can hold and far from what a count needs, so that they may be rough. -/
theorem below_round (sign : Sign) {m : Nat} {e k : Int} (small : m < 2 ^ 200) (low : e ≤ k)
    (positive : 0 ≤ k) :
    Below (2 ^ 201) (k + 300) (roundWithAccuracy binary64 sign m e .exact) := by
  have first := targetExponent_le (e := e) small
  unfold roundWithAccuracy shiftToTargetExponent
  dsimp only
  rw [exponent_shiftToExponent]
  have rounded := roundedMantissa_le
    (shiftToExponent m e .exact (binary64.targetExponent (totalExponent m e))).1
  have shifted := mantissa_shiftToExponent m e .exact
    (binary64.targetExponent (totalExponent m e))
  generalize ExtendedMantissa.roundedMantissa _ = r at rounded ⊢
  generalize binary64.targetExponent (totalExponent m e) = t at first shifted rounded ⊢
  -- a mantissa that has grown by rounding is shifted once more
  have second := targetExponent_le (e := max e t) (show r < 2 ^ 201 by omega)
  have last := mantissa_shiftToExponent r (max e t) .exact
    (binary64.targetExponent (totalExponent r (max e t)))
  split
  · exact .zero sign
  · rw [exponent_shiftToExponent]
    exact .finite (by omega) (by omega)

theorem Below.mono {m m' : Nat} {e e' : Int} {u : UnpackedFloat} (below : Below m e u)
    (mantissa : m ≤ m') (exponent : e ≤ e') : Below m' e' u := by
  cases below with
  | notANumber => exact .notANumber
  | zero s => exact .zero s
  | finite small low => exact .finite (small.trans_le mantissa) (low.trans exponent)

theorem below_mul {u v : UnpackedFloat} {a b : Int} (first : Below (2 ^ 120) a u)
    (second : Below (2 ^ 60) b v) (positive : 0 ≤ a + b) :
    Below (2 ^ 201) (a + b + 300) (UnpackedFloat.mul binary64 u v) := by
  cases first with
  | notANumber => cases second <;> exact .notANumber
  | zero s =>
    cases second with
    | notANumber => exact .notANumber
    | _ => exact .zero _
  | @finite s m _ _ small low =>
    cases second with
    | notANumber => exact .notANumber
    | zero => exact .zero _
    | @finite t n _ _ small' low' =>
      have product : m * n < 2 ^ 120 * 2 ^ 60 := Nat.mul_lt_mul'' small small'
      exact below_round _ (by omega) (Int.add_le_add low low') positive

/-- A number that fits 64 bits, rounded to a double. -/
theorem below_ofNat {n : Nat} (small : n < 2 ^ 64) :
    Below (2 ^ 201) 300 (UnpackedFloat.ofNat binary64 n) := by
  cases n with
  | zero => exact .zero _
  | succ n =>
    change Below _ _ (UnpackedFloat.round binary64 .positive (n + 1) 0)
    unfold UnpackedFloat.round decreaseExponent
    dsimp only
    have shift : (0 - binary64.targetExponent (totalExponent (n + 1) 0)).toNat ≤ 52 := by
      change (0 - max (((n + 1).log2 : Int) + 1 + 0 - 53) (-1074)).toNat ≤ 52
      omega
    generalize (0 - binary64.targetExponent (totalExponent (n + 1) 0)).toNat = k at shift ⊢
    have power : 2 ^ k ≤ 2 ^ 52 := Nat.pow_le_pow_right (by decide) shift
    have product : (n + 1) * 2 ^ k < 2 ^ 64 * 2 ^ 52 :=
      Nat.mul_lt_mul_of_lt_of_le small power (by decide)
    rw [Nat.shiftLeft_eq]
    exact below_round _ (by omega) (by omega) (Int.le_refl 0)

/-! ### Representations -/

/-- A number of moderate size is unpacked as one. -/
theorem below_unpack {mantissa : Nat} {e : Int} {u : UnpackedFloat} (below : Below mantissa e u)
    (least : -1074 ≤ e) (most : e ≤ 900) :
    Below (2 ^ 53) e (UnpackedFloat.unpack binary64 (UnpackedFloat.pack binary64 u)) := by
  cases below with
  | notANumber => exact .notANumber
  | zero s => cases s <;> exact .zero _
  | @finite s m e' positive _ low =>
    have exponent : (unpackExponent (UnpackedFloat.pack binary64 (.finite s m e' positive))).toNat ≤
        (e + 1075).toNat := by
      have biased : e' + binary64.exponentBias + binary64.mantissaBitsWithoutImplicit =
          e' + 1075 := by
        change e' + 1023 + 52 = e' + 1075
        omega
      unfold UnpackedFloat.pack
      dsimp only
      rw [biased, if_neg (by omega)]
      split
      · rw [unpackExponent_packComponents, BitVec.toNat_ofNat]
        exact (Nat.mod_le _ _).trans (by omega)
      · rw [unpackExponent_packComponents]
        exact Nat.zero_le _
    have parts := Zeros.parts_unpack (UnpackedFloat.pack binary64 (.finite s m e' positive))
    generalize UnpackedFloat.unpack binary64 _ = v at parts ⊢
    generalize UnpackedFloat.pack binary64 _ = b at exponent parts
    have small : (unpackMantissa b).toNat < 2 ^ 52 := (unpackMantissa b).isLt
    cases parts with
    | infinity top =>
      rw [top] at exponent
      have last : (-1#_ : BitVec binary64.exponentBits).toNat = 2047 := rfl
      omega
    | notANumber => exact .notANumber
    | zero => exact .zero _
    | subnormal positive bottom mantissa scale => exact .finite (by omega) (by omega)
    | normal positive mantissa scale => exact .finite (by omega) (by omega)

/-- A double that represents a number of moderate size is not infinite. -/
theorem isInf_pack {mantissa : Nat} {e : Int} {u : UnpackedFloat} (below : Below mantissa e u)
    (least : -1074 ≤ e) (most : e ≤ 900) : (Float.ofModel (.pack u)).isInf = false := by
  have finite := below_unpack below least most
  change (UnpackedFloat.unpack binary64 (UnpackedFloat.pack binary64 u)).isInf = false
  cases unpacked : UnpackedFloat.unpack binary64 (UnpackedFloat.pack binary64 u) with
  | infinity s =>
    rw [unpacked] at finite
    cases finite
  | _ => rfl

theorem below_ofScientific {n : Nat} (positive : n ≠ 0) (small : n < 2 ^ 64) :
    Below (2 ^ 201) 300 (UnpackedFloat.ofScientific binary64 n 0) := by
  have shifted : n <<< binary64.mantissaBits < 2 ^ 120 := by
    rw [Nat.shiftLeft_eq]
    change n * 2 ^ 53 < 2 ^ 120
    omega
  have above : (0 : Int) ≤ 2 ^ binary64.exponentBits := by decide
  unfold UnpackedFloat.ofScientific
  rw [dif_neg positive, if_neg (by omega), if_neg (by omega), if_pos (Int.le_refl 0)]
  have first : ∀ above, Below (2 ^ 120) 0
      (.finite .positive (n <<< binary64.mantissaBits) (-binary64.mantissaBits) above) :=
    fun _ => .finite shifted (by decide)
  have second : ∀ above, Below (2 ^ 60) 0 (.finite .positive (10 ^ (0 : Int).toNat) 0 above) :=
    fun _ => .finite (by decide) (Int.le_refl 0)
  exact below_mul (first _) (second _) (Int.le_refl 0)

/-- A natural number of 64 bits has a finite double next to it. -/
theorem isInf_ofNat {n : Nat} (small : n < 2 ^ 64) :
    (Float.ofScientific n false 0).isInf = false := by
  unfold Float.ofScientific
  -- one that fits an exact conversion is a single product, a larger one goes through a power of ten
  split
  next exact =>
    have first := below_unpack (below_ofNat n.toUInt64.toNat_lt) (by decide) (by decide)
    have one : Below (2 ^ 60) 0 (Float.ofBits 0x3FF0000000000000).toModel.unpack := by
      have unpacked : (Float.ofBits 0x3FF0000000000000).toModel.unpack =
          .finite .positive (2 ^ 52) (-52) (by decide) := rfl
      rw [unpacked]
      exact .finite (by decide) (by decide)
    exact isInf_pack (below_mul (first.mono (by decide) (Int.le_refl 300)) one (by decide))
      (by decide) (by decide)
  next large =>
    have positive : n ≠ 0 := by
      rintro rfl
      exact large (by decide)
    exact isInf_pack (below_ofScientific positive small) (by decide) (by decide)

/-- Counts of 64 bits take part in the arithmetic of floats. -/
theorem amenable_count {n : Nat} (small : n < 2 ^ 64) :
    (Element.whole n : Scalar).Amenable := by
  have finite : (ofInt n).isInf = false := by
    unfold ofInt
    rw [if_neg (by omega)]
    exact isInf_ofNat small
  have held : ofInt? n = some (ofInt n) := by
    unfold ofInt?
    dsimp only
    rw [finite]
    rfl
  refine Scalar.amenable_whole ?_
  change (ofInt? n).isSome = true
  rw [held]
  rfl

end Number

end ReverseMode
