import ReverseMode.Element.Scalar
import ReverseMode.Proofs.Fractions

/-!
Integers as doubles.

A double keeps 53 digits. `rounded` is the integer that is left of an integer: the nearest one that
has no more digits before its zeros, and of two equally near ones the even one. Sums and products of
doubles that are integers are the rounded sums and products, unless they are infinite.
-/

namespace ReverseMode

namespace Number

open Float.Model Float.Model.UnpackedFloat Float.Model.Format

/-! ### Rounding of integers -/

section Rounding

variable {n m d c j : Nat}

/-- How many digits of a number a double has no place for. -/
def excess (n : Nat) : Nat := Nat.log2 n + 1 - Number.Format.double.precision

/-- A natural number without the digits that a double has no place for. -/
def roundedNat (n : Nat) : Nat := nearestEven n (2 ^ excess n) * 2 ^ excess n

/-- The integer that a double next to an integer stands for. -/
def rounded (n : Int) : Int := n.sign * roundedNat n.natAbs

theorem excess_eq (n : Nat) : excess n = n.log2 - 52 :=
  Nat.add_sub_add_right n.log2 1 52

/-- Rounding a quotient does not depend on its scale. -/
theorem nearestEven_scale (n d : Nat) (positive : 0 < c) :
    nearestEven (n * c) (d * c) = nearestEven n d := by
  have double (x : Nat) : 2 * (x * c) = 2 * x * c := by rw [Nat.mul_assoc]
  unfold nearestEven
  simp only [Nat.mul_div_mul_right _ _ positive, Nat.mul_mod_mul_right, double,
    Nat.mul_lt_mul_right positive]

theorem nearestEven_one (n : Nat) : nearestEven n 1 = n := by
  simpa using nearestEven_mul_self n 1 Nat.one_pos

theorem nearestEven_bounds (n d : Nat) : n / d ≤ nearestEven n d ∧ nearestEven n d ≤ n / d + 1 := by
  unfold nearestEven
  dsimp only
  split_ifs <;> omega

theorem log2_mul_pow (positive : 0 < m) (j : Nat) : (m * 2 ^ j).log2 = m.log2 + j := by
  have least := Nat.log2_self_le positive.ne'
  have most := @Nat.lt_log2_self m
  rw [Nat.log2_eq_iff (by positivity), Nat.pow_add, Nat.add_right_comm, Nat.pow_add _ (m.log2 + 1)]
  exact ⟨Nat.mul_le_mul_right _ least, Nat.mul_lt_mul_of_pos_right most (by positivity)⟩

theorem log2_of_long (long : 2 ^ 52 ≤ m) : 52 ≤ m.log2 :=
  (Nat.le_log2 (by omega)).mpr long

/-- A long number with zeros behind it is rounded like the number. -/
theorem roundedNat_mul_pow (long : 2 ^ 52 ≤ m) (j : Nat) :
    roundedNat (m * 2 ^ j) = nearestEven m (2 ^ excess m) * 2 ^ excess m * 2 ^ j := by
  have digits := log2_of_long long
  have dropped : excess (m * 2 ^ j) = excess m + j := by
    rw [excess_eq, excess_eq, log2_mul_pow (by omega)]
    omega
  rw [roundedNat, dropped, pow_add, nearestEven_scale _ _ (by positivity), mul_assoc]

/-- A number with zeros behind it that is long is rounded like the number. -/
theorem nearestEven_mul_pow (long : 2 ^ 52 ≤ n * 2 ^ j) :
    nearestEven (n * 2 ^ j) (2 ^ excess (n * 2 ^ j)) * 2 ^ excess (n * 2 ^ j) =
      roundedNat n * 2 ^ j := by
  have digits := log2_of_long long
  have some : 0 < n := Nat.pos_of_mul_pos_right (Nat.lt_of_lt_of_le (by positivity) long)
  have dropped : excess (n * 2 ^ j) = n.log2 + j - 52 := by rw [excess_eq, log2_mul_pow some]
  rw [log2_mul_pow some] at digits
  rw [roundedNat, dropped, excess_eq]
  rcases Nat.le_total j (n.log2 + j - 52) with less | less
  · -- all the zeros are dropped, and maybe more
    rw [show n.log2 + j - 52 = n.log2 - 52 + j by omega, pow_add,
      nearestEven_scale _ _ (by positivity), mul_assoc]
  · -- only zeros are dropped
    obtain ⟨i, rest⟩ := Nat.exists_eq_add_of_le less
    have none : n.log2 - 52 = 0 := by omega
    generalize n.log2 + j - 52 = k at rest
    rw [none, rest, pow_zero, nearestEven_one, Nat.mul_one, Nat.add_comm, pow_add, ← mul_assoc,
      nearestEven_mul_self _ _ (by positivity)]

/-- A long number times a power of two, rounded. -/
theorem roundedNat_value {e : Int} {n : Nat} (long : 2 ^ 52 ≤ m) (value : (m : ℚ) * 2 ^ e = n) :
    (nearestEven m (2 ^ excess m) : ℚ) * 2 ^ (e + excess m) = roundedNat n := by
  obtain ⟨j, rfl | rfl⟩ := Int.eq_nat_or_neg e
  · have value : m * 2 ^ j = n := by exact_mod_cast value
    rw [← value, roundedNat_mul_pow long, zpow_add₀ two_ne_zero, zpow_natCast, zpow_natCast]
    push_cast
    ring
  · have value : m = n * 2 ^ j := by
      have value : (m : ℚ) = n * 2 ^ j := by
        rw [← value, zpow_neg, zpow_natCast, inv_mul_cancel_right₀ (by positivity)]
      exact_mod_cast value
    rw [value] at long ⊢
    have kept := nearestEven_mul_pow long
    rw [zpow_add₀ two_ne_zero, zpow_neg, zpow_natCast, zpow_natCast, mul_left_comm,
      inv_mul_eq_iff_eq_mul₀ (by positivity), mul_comm _ (roundedNat n : ℚ)]
    exact_mod_cast kept

theorem nearestEven_dvd (whole : d ∣ n) (positive : 0 < d) : nearestEven n d * d = n := by
  obtain ⟨q, rfl⟩ := whole
  rw [Nat.mul_comm d q, nearestEven_mul_self q d positive]

/-- What has no more than 53 digits before its zeros is kept. -/
theorem roundedNat_short (short : m < 2 ^ 53) (j : Nat) : roundedNat (m * 2 ^ j) = m * 2 ^ j := by
  refine nearestEven_dvd ?_ (by positivity)
  rcases Nat.eq_zero_or_pos m with rfl | some
  · simp
  · have digits : m.log2 < 53 := (Nat.log2_lt some.ne').mpr short
    have dropped : excess (m * 2 ^ j) ≤ j := by
      rw [excess_eq, log2_mul_pow some]
      omega
    exact Dvd.dvd.mul_left (pow_dvd_pow 2 dropped) m

/-- Rounding at most doubles. -/
theorem roundedNat_le (n : Nat) : roundedNat n ≤ 2 * n := by
  rcases Nat.eq_zero_or_pos n with rfl | some
  · simp [roundedNat, nearestEven]
  · have unit : 2 ^ excess n ≤ n := by
      rw [excess_eq]
      exact (Nat.pow_le_pow_right Nat.two_pos (Nat.sub_le _ _)).trans (Nat.log2_self_le some.ne')
    calc roundedNat n ≤ (n / 2 ^ excess n + 1) * 2 ^ excess n :=
        Nat.mul_le_mul_right _ (nearestEven_bounds n _).2
      _ = n / 2 ^ excess n * 2 ^ excess n + 2 ^ excess n := by rw [Nat.add_mul, Nat.one_mul]
      _ ≤ n + n := Nat.add_le_add (Nat.div_mul_le_self n _) unit
      _ = 2 * n := (Nat.two_mul n).symm

theorem rounded_neg (n : Int) : rounded (-n) = -rounded n := by
  simp [rounded]

theorem rounded_apply (s : Sign) (n : Int) : rounded (s.apply n) = s.apply (rounded n) := by
  cases s with
  | positive => rfl
  | negative => exact rounded_neg n

theorem rounded_natCast (n : Nat) : rounded n = roundedNat n := by
  rcases Nat.eq_zero_or_pos n with rfl | some
  · rfl
  · rw [rounded, Int.sign_natCast_of_ne_zero some.ne', Int.natAbs_natCast, one_mul]

/-- An integer of at most 53 digits is kept. -/
theorem rounded_short {n : Int} (short : n.natAbs ≤ 2 ^ 53) : rounded n = n := by
  have kept : roundedNat n.natAbs = n.natAbs := by
    rcases Nat.lt_or_eq_of_le short with less | equal
    · simpa using roundedNat_short less 0
    · rw [equal]
      simpa using roundedNat_short (m := 1) (by decide) 53
  rw [rounded, kept, Int.sign_mul_natAbs]

end Rounding

/-! ### Doubles that are integers -/

/-- A double that is not below its normal range stands for an integer, or it is zero. -/
inductive Means : UnpackedFloat → Int → Prop
  | zero (s : Sign) : Means (.zero s) 0
  | finite {s : Sign} {m : Nat} {e n : Int} {positive : 0 < m} (long : 2 ^ 52 ≤ m)
      (short : m < 2 ^ 53) (value : (s.apply m : ℚ) * 2 ^ e = n) : Means (.finite s m e positive) n

/-- The sign and the magnitude of what a double stands for. -/
theorem magnitude {s : Sign} {m : Nat} {e n : Int} (positive : 0 < m)
    (value : (s.apply m : ℚ) * 2 ^ e = n) : ∃ k : Nat, n = s.apply k ∧ (m : ℚ) * 2 ^ e = k := by
  have power : (0 : ℚ) < m * 2 ^ e := by positivity
  cases s with
  | positive =>
    have value : (m : ℚ) * 2 ^ e = n := by simpa [Sign.apply] using value
    have some : 0 < n := by exact_mod_cast value ▸ power
    obtain ⟨k, rfl⟩ := Int.eq_ofNat_of_zero_le some.le
    exact ⟨k, rfl, by simpa using value⟩
  | negative =>
    have value : (m : ℚ) * 2 ^ e = -n := by
      rw [← value]
      simp [Sign.apply]
    have some : 0 < -n := by exact_mod_cast value ▸ power
    obtain ⟨k, same⟩ := Int.eq_ofNat_of_zero_le some.le
    exact ⟨k, by simp [Sign.apply, ← same], by rw [value]; exact_mod_cast same⟩

theorem apply_value {s : Sign} {m k : Nat} {e : Int} (value : (m : ℚ) * 2 ^ e = k) :
    (s.apply m : ℚ) * 2 ^ e = (s.apply k : Int) := by
  cases s with
  | positive => simpa [Sign.apply] using value
  | negative => simp [Sign.apply, ← value]

/-- What one more digit changes in the remainder of a number. -/
theorem remainder_digit {r d a : Nat} (small : r < d) (digit : a < 2) :
    (2 * d ≤ 2 * (r + d * a) ↔ a ≠ 0) ∧
      (2 * (r + d * a) % (2 * d) ≠ 0 ↔ d ≤ 2 * r ∨ 2 * r % d ≠ 0) := by
  constructor
  · obtain rfl | rfl : a = 0 ∨ a = 1 := by omega
    · simpa using small
    · simp
  · rw [Nat.mul_mod_mul_left, Nat.add_mul_mod_self_left, Nat.mod_eq_of_lt small]
    constructor
    · intro some
      by_cases half : d ≤ 2 * r
      · exact .inl half
      · exact .inr (by rwa [Nat.mod_eq_of_lt (by omega)])
    · rintro (half | rest) none
      · omega
      · rw [none] at rest
        exact rest (Nat.zero_mod d)

/-- An integer is not below one. -/
theorem log2_add_nonneg {m k : Nat} {e : Int} (positive : 0 < m) (value : (m : ℚ) * 2 ^ e = k) :
    0 ≤ m.log2 + e := by
  have some : (0 : ℚ) < k := value ▸ by positivity
  have one : (1 : ℚ) ≤ k := by exact_mod_cast (show 0 < k by exact_mod_cast some)
  have bound : (m : ℚ) < 2 ^ (m.log2 + 1 : Int) := by exact_mod_cast @Nat.lt_log2_self m
  have above : (1 : ℚ) < 2 ^ (m.log2 + 1 + e : Int) := by
    calc (1 : ℚ) ≤ m * 2 ^ e := value ▸ one
      _ < 2 ^ (m.log2 + 1 : Int) * 2 ^ e := by gcongr
      _ = 2 ^ (m.log2 + 1 + e : Int) := by rw [← zpow_add₀ two_ne_zero]
  have := (one_lt_zpow_iff_right₀ one_lt_two).mp above
  omega

/-- Shifting right keeps what decides the rounding: whether half a unit and whether something else
has been shifted out. -/
theorem shiftRight_exact (m k : Nat) :
    ExtendedMantissa.ofMantissaAndAccuracy m .exact >>> k = ⟨m / 2 ^ k,
      decide (2 ^ k ≤ 2 * (m % 2 ^ k)), decide (2 * (m % 2 ^ k) % 2 ^ k ≠ 0)⟩ := by
  change k.repeat ExtendedMantissa.shiftRightOne ⟨m, false, false⟩ = _
  induction k with
  | zero => simp [Nat.repeat, Nat.mod_one]
  | succ k ih =>
    have small : m % 2 ^ k < 2 ^ k := Nat.mod_lt m (by positivity)
    obtain ⟨half, rest⟩ := remainder_digit small (Nat.mod_lt (m / 2 ^ k) Nat.two_pos)
    rw [Nat.repeat, ih, Nat.mod_pow_succ, pow_succ', ExtendedMantissa.shiftRightOne]
    congr 1
    · rw [Nat.div_div_eq_div_mul, Nat.mul_comm]
    · rw [Bool.eq_iff_iff, decide_eq_true_iff, half, bne_iff_ne]
    · rw [Bool.eq_iff_iff, decide_eq_true_iff, rest]
      simp

theorem roundedMantissa_exact (m k : Nat) :
    (ExtendedMantissa.ofMantissaAndAccuracy m .exact >>> k).roundedMantissa =
      nearestEven m (2 ^ k) := by
  have small : m % 2 ^ k < 2 ^ k := Nat.mod_lt m (by positivity)
  rw [shiftRight_exact, nearestEven]
  generalize m % 2 ^ k = r at small ⊢
  generalize m / 2 ^ k = q
  generalize 2 ^ k = d at small ⊢
  rcases Nat.lt_trichotomy (2 * r) d with less | equal | more
  · have none : ¬ d ≤ 2 * r := by omega
    rw [if_pos less, Nat.mod_eq_of_lt less, decide_eq_false none]
    cases decide (2 * r ≠ 0) <;> rfl
  · rw [if_neg (by omega), if_neg (by omega), equal]
    have half :
        (⟨q, decide (d ≤ d), decide (d % d ≠ 0)⟩ : ExtendedMantissa) = ⟨q, true, false⟩ := by
      simp
    rw [half]
    change q + q % 2 = _
    split_ifs <;> omega
  · have rest : 2 * r % d ≠ 0 := by
      rw [Nat.mod_eq_sub_mod more.le, Nat.mod_eq_of_lt (by omega)]
      omega
    rw [if_neg (by omega), if_pos more, decide_eq_true more.le, decide_eq_true rest]
    rfl

/-- What is left of a long number without its excess has 53 digits. -/
theorem div_excess {m : Nat} (long : 2 ^ 52 ≤ m) :
    2 ^ 52 ≤ m / 2 ^ excess m ∧ m / 2 ^ excess m < 2 ^ 53 := by
  have digits := log2_of_long long
  have least := Nat.log2_self_le (n := m) (by omega)
  have most := Nat.lt_log2_self (n := m)
  rw [Nat.le_div_iff_mul_le (by positivity), Nat.div_lt_iff_lt_mul (by positivity), ← pow_add,
    ← pow_add, excess_eq]
  rw [show 52 + (m.log2 - 52) = m.log2 by omega, show 53 + (m.log2 - 52) = m.log2 + 1 by omega]
  exact ⟨least, most⟩

/-- A long number is shifted by its excess, unless it is tiny. -/
theorem shiftToTarget_long {m : Nat} {e : Int} (long : 2 ^ 52 ≤ m) (least : 0 ≤ m.log2 + e) :
    shiftToTargetExponent binary64 m e .exact =
      (ExtendedMantissa.ofMantissaAndAccuracy m .exact >>> excess m, e + excess m) := by
  have digits := log2_of_long long
  have target : binary64.targetExponent (totalExponent m e) = e + excess m := by
    rw [excess_eq]
    change max ((m.log2 : Int) + 1 + e - 53) (-1074) = _
    omega
  unfold shiftToTargetExponent shiftToExponent
  dsimp only
  rw [target, add_sub_cancel_left, Int.toNat_natCast]

/-- A long number is rounded to the nearest double. -/
theorem means_round_long (s : Sign) {m : Nat} {e n : Int} (long : 2 ^ 52 ≤ m)
    (value : (s.apply m : ℚ) * 2 ^ e = n) :
    Means (roundWithAccuracy binary64 s m e .exact) (rounded n) := by
  obtain ⟨k, rfl, size⟩ := magnitude (by omega) value
  have product := roundedNat_value long size
  have least := log2_add_nonneg (by omega) size
  have digits := log2_of_long long
  have bounds := nearestEven_bounds m (2 ^ excess m)
  have between := div_excess long
  rw [rounded_apply, rounded_natCast]
  unfold roundWithAccuracy
  rw [shiftToTarget_long long least]
  dsimp only
  rw [roundedMantissa_exact]
  have scale := excess_eq m
  generalize nearestEven m (2 ^ excess m) = r at bounds product ⊢
  -- a mantissa that has grown to `2 ^ 53` is shifted once more, which drops a zero
  have long' : 2 ^ 52 ≤ r := by omega
  have whole : 2 ^ excess r ∣ r := by
    rcases Nat.lt_or_eq_of_le (show r ≤ 2 ^ 53 by omega) with short | rfl
    · have : r.log2 < 53 := (Nat.log2_lt (by omega)).mpr short
      rw [excess_eq, show r.log2 - 52 = 0 by omega]
      exact one_dvd r
    · decide
  have digits' := log2_of_long long'
  obtain ⟨long'', short⟩ := div_excess long'
  rw [shiftToTarget_long long' (by omega), shiftRight_exact]
  dsimp only
  rw [dif_neg (by omega)]
  refine .finite long'' short (apply_value ?_)
  rw [← product, zpow_add₀ two_ne_zero _ (excess r : Int), zpow_natCast,
    mul_comm _ ((2 : ℚ) ^ excess r), ← mul_assoc]
  congr 1
  exact_mod_cast Nat.div_mul_cancel whole

/-- Zeros behind a mantissa and a lower exponent. -/
theorem shiftLeft_value (s : Sign) (m j : Nat) (e : Int) :
    (s.apply (m <<< j : Nat) : ℚ) * 2 ^ (e - j) = s.apply m * 2 ^ e := by
  have power : (2 : ℚ) ^ j * 2 ^ (e - j) = 2 ^ e := by
    rw [← zpow_natCast, ← zpow_add₀ two_ne_zero, add_sub_cancel]
  rw [← power, Nat.shiftLeft_eq]
  cases s <;> simp [Sign.apply, mul_assoc]

/-- A number that is not long gets zeros behind it first. -/
theorem means_round (s : Sign) {m : Nat} {e n : Int} (positive : 0 < m)
    (value : (s.apply m : ℚ) * 2 ^ e = n) :
    Means (UnpackedFloat.round binary64 s m e) (rounded n) := by
  obtain ⟨k, -, size⟩ := magnitude positive value
  have least := log2_add_nonneg positive size
  have target : binary64.targetExponent (totalExponent m e) = m.log2 + e - 52 := by
    change max ((m.log2 : Int) + 1 + e - 53) (-1074) = _
    omega
  unfold UnpackedFloat.round decreaseExponent
  dsimp only
  rw [target]
  have zeros : 52 ≤ m.log2 + (e - (m.log2 + e - 52)).toNat := by omega
  generalize (e - (m.log2 + e - 52)).toNat = j at zeros
  refine means_round_long s ?_ ?_
  · rw [Nat.shiftLeft_eq]
    calc 2 ^ 52 ≤ 2 ^ (m.log2 + j) := Nat.pow_le_pow_right Nat.two_pos zeros
      _ = 2 ^ m.log2 * 2 ^ j := pow_add 2 _ _
      _ ≤ m * 2 ^ j := Nat.mul_le_mul_right _ (Nat.log2_self_le positive.ne')
  · rw [← value, shiftLeft_value]

theorem means_normalize (m : Int) {e n : Int} (s : Sign) (value : (m : ℚ) * 2 ^ e = n) :
    Means (UnpackedFloat.normalize binary64 m e s) (rounded n) := by
  unfold UnpackedFloat.normalize
  split
  next less =>
    have negative := Int.compare_eq_lt.mp less
    refine means_round .negative (by omega) ?_
    rw [← value, Sign.apply, Int.toNat_of_nonneg (by omega), Int.neg_neg]
  next equal =>
    obtain rfl := Int.compare_eq_eq.mp equal
    have none : n = 0 := by
      rw [Int.cast_zero, zero_mul] at value
      exact_mod_cast value.symm
    rw [none]
    exact .zero s
  next more =>
    have positive := Int.compare_eq_gt.mp more
    refine means_round .positive (by omega) ?_
    rw [← value, Sign.apply, Int.toNat_of_nonneg (by omega)]

section Arithmetic

variable {u v : UnpackedFloat} {n k : Int}

/-- What a double stands for is not changed by rounding. -/
theorem Means.rounded_eq (means : Means u n) : rounded n = n := by
  cases means with
  | zero => rfl
  | @finite s m e _ positive long short value =>
    obtain ⟨k, rfl, size⟩ := magnitude positive value
    have digits : m.log2 < 53 := (Nat.log2_lt positive.ne').mpr short
    have product := roundedNat_value long size
    rw [excess_eq, show m.log2 - 52 = 0 by omega, pow_zero, nearestEven_one] at product
    rw [rounded_apply, rounded_natCast]
    congr 1
    have same : (roundedNat k : ℚ) = k := by rw [← product, ← size]; simp
    exact_mod_cast same

theorem Means.neg (means : Means u n) : Means u.neg (-n) := by
  cases means with
  | zero s => exact .zero _
  | @finite s m e _ positive long short value =>
    refine .finite long short ?_
    rw [Int.cast_neg, ← value]
    cases s <;> simp [Sign.apply]

theorem Means.add (first : Means u n) (second : Means v k) :
    Means (UnpackedFloat.add binary64 u v) (rounded (n + k)) := by
  cases first with
  | zero s =>
    cases second with
    | zero t =>
      change Means (if s == t then _ else _) _
      split <;> exact .zero _
    | @finite t m e _ positive long short value =>
      have means : Means (.finite t m e positive) k := .finite long short value
      rwa [zero_add, means.rounded_eq]
  | @finite s m e _ positive long short value =>
    cases second with
    | zero t =>
      have means : Means (.finite s m e positive) n := .finite long short value
      rwa [add_zero, means.rounded_eq]
    | @finite t m' e' _ positive' long' short' value' =>
      refine means_normalize _ .positive ?_
      have shifted (s : Sign) (m : Nat) (e i : Int) (less : i ≤ e) :
          (s.apply (m <<< (e - i).toNat : Nat) : ℚ) * 2 ^ i = s.apply m * 2 ^ e := by
        have exponent : e - (e - i).toNat = i := by omega
        rw [← shiftLeft_value s m (e - i).toNat e, exponent]
      rw [Int.cast_add, Int.cast_add, add_mul, ← value, ← value']
      congr 1
      · exact shifted s m e _ (min_le_left _ _)
      · exact shifted t m' e' _ (min_le_right _ _)

/-- The product of mantissas that are long together. -/
theorem means_mul_long {s t : Sign} {m m' : Nat} {e e' : Int} {p : 0 < m} {q : 0 < m'}
    (long : 2 ^ 52 ≤ m * m') (value : ((s * t).apply (m * m' : Nat) : ℚ) * 2 ^ (e + e') = n) :
    Means (UnpackedFloat.mul binary64 (.finite s m e p) (.finite t m' e' q)) (rounded n) :=
  means_round_long (s * t) long value

theorem Means.mul (first : Means u n) (second : Means v k) :
    Means (UnpackedFloat.mul binary64 u v) (rounded (n * k)) := by
  cases first with
  | zero s =>
    rw [zero_mul]
    cases second <;> exact .zero _
  | @finite s m e _ positive long short value =>
    cases second with
    | zero t =>
      rw [mul_zero]
      exact .zero _
    | @finite t m' e' _ positive' long' short' value' =>
      refine means_mul_long ?_ ?_
      · calc 2 ^ 52 ≤ 2 ^ 52 * 2 ^ 52 := by decide
          _ ≤ m * m' := Nat.mul_le_mul long long'
      · rw [Int.cast_mul, ← value, ← value', zpow_add₀ two_ne_zero]
        cases s <;> cases t <;> simp [Sign.apply] <;> ring

end Arithmetic

/-! ### Representations -/

theorem sign_packComponents {spec : Float.Model.Format} (s : Sign)
    (exponent : BitVec spec.exponentBits) (mantissa : BitVec spec.mantissaBitsWithoutImplicit) :
    Sign.ofBitVec (unpackSign (packComponents spec s exponent mantissa)) = s := by
  have bit : unpackSign (packComponents spec s exponent mantissa) = s.toBitVec := by
    refine BitVec.eq_of_getLsbD_eq fun i small => ?_
    obtain rfl : i = 0 := by omega
    simp [unpackSign, packComponents, BitVec.getLsbD_append, BitVec.getElem_append]
  rw [bit]
  cases s <;> rfl

theorem unpack_components (s : Sign) {exponent : BitVec binary64.exponentBits}
    {mantissa : BitVec binary64.mantissaBitsWithoutImplicit} (top : exponent ≠ -1#_)
    (bottom : exponent ≠ 0#_) :
    UnpackedFloat.unpack binary64 (packComponents binary64 s exponent mantissa) =
      .finite s (2 ^ 52 + mantissa.toNat) (exponent.toNat - 1075) (by positivity) := by
  have full : (1#1 ++ mantissa).toNat = 2 ^ 52 + mantissa.toNat := by
    rw [BitVec.toNat_append, Nat.shiftLeft_eq, Nat.mul_comm,
      ← Nat.two_pow_add_eq_or_of_lt mantissa.isLt]
    rfl
  unfold UnpackedFloat.unpack
  simp only [unpackExponent_packComponents, unpackMantissa_packComponents, sign_packComponents,
    if_neg top, if_neg bottom, full]
  rfl

/-- A double that stands for an integer is represented, or infinite where the integer is large. -/
theorem unpack_pack {u : UnpackedFloat} {n : Int} (means : Means u n) :
    UnpackedFloat.unpack binary64 (UnpackedFloat.pack binary64 u) = u ∨
      (∃ s, UnpackedFloat.unpack binary64 (UnpackedFloat.pack binary64 u) = .infinity s) ∧
        2 ^ 200 ≤ n.natAbs := by
  cases means with
  | zero s => cases s <;> exact .inl rfl
  | @finite s m e _ positive long short value =>
    obtain ⟨k, rfl, size⟩ := magnitude positive value
    have least := log2_add_nonneg positive size
    have digits : m.log2 = 52 := (Nat.log2_eq_iff positive.ne').mpr ⟨long, short⟩
    have packed : UnpackedFloat.pack binary64 (.finite s m e positive) =
        if 2048 ≤ (e + 1023 + 52).toNat + 1 then packedInfinity binary64 s
        else if m.log2 + 1 = 53 then
          packComponents binary64 s (BitVec.ofNat 11 (e + 1023 + 52).toNat) (BitVec.ofNat 52 m)
        else packComponents binary64 s 0#11 (BitVec.ofNat 52 m) := rfl
    by_cases large : 2048 ≤ (e + 1023 + 52).toNat + 1
    · rw [packed, if_pos large]
      refine .inr ⟨⟨s, by cases s <;> rfl⟩, ?_⟩
      obtain ⟨j, rfl⟩ := Int.eq_ofNat_of_zero_le (show 0 ≤ e by omega)
      have size : m * 2 ^ j = k := by exact_mod_cast size
      have same : (s.apply k).natAbs = k := by cases s <;> simp [Sign.apply]
      rw [same, ← size]
      calc 2 ^ 200 ≤ 2 ^ (52 + j) := Nat.pow_le_pow_right Nat.two_pos (by omega)
        _ = 2 ^ 52 * 2 ^ j := pow_add 2 52 j
        _ ≤ m * 2 ^ j := Nat.mul_le_mul_right _ long
    · rw [packed, if_neg large, if_pos (by omega)]
      have exponent : (BitVec.ofNat 11 (e + 1023 + 52).toNat).toNat = (e + 1075).toNat := by
        rw [BitVec.toNat_ofNat, Nat.mod_eq_of_lt (by omega)]
        omega
      have mantissa : 2 ^ 52 + (BitVec.ofNat 52 m).toNat = m := by
        rw [BitVec.toNat_ofNat]
        omega
      refine .inl ((unpack_components s ?_ ?_).trans ?_)
      · intro top
        have top := congrArg BitVec.toNat top
        rw [exponent] at top
        change _ = 2047 at top
        omega
      · intro bottom
        have bottom := congrArg BitVec.toNat bottom
        rw [exponent] at bottom
        change _ = 0 at bottom
        omega
      · congr 1
        rw [exponent]
        omega

/-- A double stands for an integer. -/
def Whole (x : Float) (n : Int) : Prop := Means x.toModel.unpack n

/-- A double is next to an integer: it stands for it, or is infinite where the integer is large. -/
def Nears (x : Float) (n : Int) : Prop :=
  Whole x n ∨ (∃ s, x.toModel.unpack = .infinity s) ∧ 2 ^ 200 ≤ n.natAbs

theorem nears_pack {u : UnpackedFloat} {n : Int} (means : Means u n) :
    Nears (Float.ofModel (.pack u)) n := by
  rcases unpack_pack means with same | large
  · exact .inl ((congrArg (Means · n) same).mpr means)
  · exact .inr large

theorem dyadic_value {m k : Nat} {e : Int} :
    (m : ℚ) * 2 ^ e = k ↔ m * 2 ^ e.toNat = k * 2 ^ (-e).toNat := by
  obtain ⟨j, rfl | rfl⟩ := Int.eq_nat_or_neg e
  · rw [Int.toNat_natCast, Int.toNat_neg_natCast, pow_zero, mul_one, zpow_natCast]
    exact_mod_cast Iff.rfl
  · rw [neg_neg, Int.toNat_natCast, Int.toNat_neg_natCast, pow_zero, mul_one, zpow_neg,
      zpow_natCast, mul_inv_eq_iff_eq_mul₀ (by positivity)]
    exact_mod_cast Iff.rfl

/-- What is read of a double, and what it is unpacked to. -/
inductive Agrees : Reading → UnpackedFloat → Prop
  | infinite (b : Bool) (s : Sign) : Agrees (.infinite b) (.infinity s)
  | nan : Agrees .nan .notANumber
  | zero (b : Bool) (s : Sign) : Agrees (.finite ⟨b, 0, -1074⟩) (.zero s)
  | finite {b : Bool} {s : Sign} {m : Nat} {e : Int} (positive : 0 < m)
      (sign : b = true ↔ s = .negative) (normal : 2 ^ 52 ≤ m ∨ e = -1074) (short : m < 2 ^ 53) :
      Agrees (.finite ⟨b, m, e⟩) (.finite s m e positive)

theorem negative_iff (b : BitVec binary64.numBits) :
    Nat.pow 2 63 ≤ b.toNat ↔ Sign.ofBitVec (unpackSign b) = .negative := by
  have bit := Zeros.toNat_unpackSign b
  have small : b.toNat < 2 ^ 64 := b.isLt
  unfold Sign.ofBitVec
  by_cases zero : unpackSign b = 0#1
  · rw [zero] at bit
    have none : 0 = b.toNat / 2 ^ 63 % 2 := bit
    rw [if_pos zero]
    constructor
    · intro (above : 2 ^ 63 ≤ b.toNat)
      omega
    · intro impossible
      cases impossible
  · rw [if_neg zero]
    have one := mt BitVec.eq_of_toNat_eq zero
    have some : (unpackSign b).toNat ≠ 0 := one
    refine ⟨fun _ => rfl, fun _ => ?_⟩
    show 2 ^ 63 ≤ b.toNat
    omega

theorem agrees_read (x : Float) : Agrees (read x) x.toModel.unpack := by
  have field : x.toBits.toNat / Nat.pow 2 52 % Nat.pow 2 11 =
      (unpackExponent (representation x)).toNat := (Zeros.toNat_unpackExponent _).symm
  have fraction : x.toBits.toNat % Nat.pow 2 52 = (unpackMantissa (representation x)).toNat :=
    (Zeros.toNat_unpackMantissa _).symm
  have sign : decide (Nat.pow 2 63 ≤ x.toBits.toNat) = true ↔
      Sign.ofBitVec (unpackSign (representation x)) = .negative :=
    decide_eq_true_iff.trans (negative_iff (representation x))
  change Agrees (read x) (UnpackedFloat.unpack binary64 (representation x))
  unfold read UnpackedFloat.unpack
  simp only [field, fraction]
  generalize decide (Nat.pow 2 63 ≤ x.toBits.toNat) = b at sign ⊢
  generalize representation x = c at sign ⊢
  have small : (unpackMantissa c).toNat < 2 ^ 52 := (unpackMantissa c).isLt
  have last : (unpackExponent c).toNat = 2047 ↔ unpackExponent c = -1#_ :=
    ⟨fun same => BitVec.eq_of_toNat_eq same, fun same => congrArg BitVec.toNat same⟩
  have first : (unpackExponent c).toNat = 0 ↔ unpackExponent c = 0#_ :=
    ⟨fun same => BitVec.eq_of_toNat_eq same, fun same => congrArg BitVec.toNat same⟩
  have none : (unpackMantissa c).toNat = 0 ↔ unpackMantissa c = 0#_ :=
    ⟨fun same => BitVec.eq_of_toNat_eq same, fun same => congrArg BitVec.toNat same⟩
  by_cases top : unpackExponent c = -1#_
  · rw [if_pos (last.mpr top), if_pos top]
    by_cases zero : unpackMantissa c = 0#_
    · rw [if_pos (none.mpr zero), if_pos zero]
      exact .infinite b _
    · rw [if_neg (mt none.mp zero), if_neg zero]
      exact .nan
  · rw [if_neg (mt last.mp top), if_neg top]
    by_cases bottom : unpackExponent c = 0#_
    · rw [if_pos (first.mpr bottom), if_pos bottom]
      by_cases zero : unpackMantissa c = 0#_
      · rw [dif_pos zero, none.mpr zero]
        exact .zero b _
      · rw [dif_neg zero]
        simp only [bottom]
        exact .finite _ sign (.inr rfl) (by omega)
    · have full : (1#1 ++ unpackMantissa c).toNat = 2 ^ 52 + (unpackMantissa c).toNat := by
        rw [BitVec.toNat_append, Nat.shiftLeft_eq, Nat.mul_comm,
          ← Nat.two_pow_add_eq_or_of_lt (unpackMantissa c).isLt]
        rfl
      rw [if_neg (mt first.mp bottom), if_neg bottom]
      simp only [full]
      have power : Nat.pow 2 52 = 2 ^ 52 := rfl
      exact .finite _ sign (.inl (by omega)) (by omega)

theorem fraction_value {m k : Nat} {e : Int} :
    (m : ℚ) * 2 ^ e = k ↔ (dyadicFraction m e).1 = k * (dyadicFraction m e).2 := dyadic_value

/-- A number whose magnitude is an integer is read as that integer. -/
theorem Finite.read_whole {v : Finite} {k : Nat} (value : v.fraction.1 = k * v.fraction.2) :
    v.isWhole = true ∧ v.truncate = if v.negative then -(k : Int) else k := by
  have positive : 0 < v.fraction.2 := Nat.two_pow_pos _
  unfold Finite.isWhole Finite.truncate
  simp only [value, Nat.mul_mod_left, Nat.mul_div_cancel _ positive, decide_true, and_self]

theorem Finite.of_isWhole {v : Finite} (whole : v.isWhole = true) :
    ∃ k : Nat, v.fraction.1 = k * v.fraction.2 := by
  have exact : v.fraction.1 % v.fraction.2 = 0 := of_decide_eq_true whole
  exact ⟨v.fraction.1 / v.fraction.2, (Nat.div_mul_cancel (Nat.dvd_of_mod_eq_zero exact)).symm⟩

theorem signed_apply {b : Bool} {s : Sign} (sign : b = true ↔ s = .negative) (k : Nat) :
    (if b then -(k : Int) else k) = s.apply k := by
  cases s with
  | negative => rw [if_pos (sign.mpr rfl)]; rfl
  | positive => rw [if_neg fun negative => nomatch sign.mp negative]; rfl

/-- Nothing is left of an infinite double without its fraction. -/
theorem read_infinity {x : Float} {s : Sign} (infinite : x.toModel.unpack = .infinity s) :
    isWhole x = false ∧ truncate? x = none := by
  have agrees := agrees_read x
  rw [infinite] at agrees
  unfold isWhole truncate?
  generalize read x = r at agrees ⊢
  cases agrees
  exact ⟨rfl, rfl⟩

/-- A double stands for an integer exactly if it is read as that integer. -/
theorem whole_iff {x : Float} {n : Int} :
    Whole x n ↔ isWhole x = true ∧ truncate? x = some n := by
  have agrees := agrees_read x
  unfold isWhole truncate? Whole
  generalize x.toModel.unpack = u at agrees ⊢
  generalize read x = r at agrees ⊢
  cases agrees with
  | infinite =>
    refine ⟨fun impossible => ?_, fun ⟨impossible, _⟩ => ?_⟩
    · cases impossible
    · cases impossible
  | nan =>
    refine ⟨fun impossible => ?_, fun ⟨impossible, _⟩ => ?_⟩
    · cases impossible
    · cases impossible
  | zero b s =>
    have none : (⟨b, 0, -1074⟩ : Finite).fraction.1 = 0 * (⟨b, 0, -1074⟩ : Finite).fraction.2 := by
      rw [Nat.zero_mul]
      exact Nat.zero_mul _
    obtain ⟨whole, value⟩ := Finite.read_whole none
    dsimp only
    rw [whole, value]
    constructor
    · rintro ⟨⟩
      cases b <;> exact ⟨rfl, rfl⟩
    · rintro ⟨-, same⟩
      obtain rfl : n = 0 := by cases b <;> exact (Option.some.inj same).symm
      exact .zero s
  | @finite b s m e positive sign normal short =>
    dsimp only
    constructor
    · intro means
      cases means with
      | finite long short value =>
        obtain ⟨k, rfl, size⟩ := magnitude positive value
        obtain ⟨whole, value⟩ := Finite.read_whole (v := ⟨b, m, e⟩) (fraction_value.mp size)
        rw [whole, value, signed_apply sign]
        exact ⟨rfl, rfl⟩
    · rintro ⟨whole, same⟩
      obtain ⟨k, size⟩ := Finite.of_isWhole whole
      obtain ⟨-, value⟩ := Finite.read_whole size
      rw [value, signed_apply sign] at same
      obtain rfl := Option.some.inj same
      have size : (m : ℚ) * 2 ^ e = k := fraction_value.mpr size
      refine .finite (normal.resolve_right ?_) short (apply_value size)
      intro tiny
      have least := log2_add_nonneg positive size
      have digits : m.log2 < 53 := (Nat.log2_lt positive.ne').mpr short
      omega

/-! ### Arithmetic of doubles -/

section Doubles

variable {x y : Float} {n k : Int}

theorem Whole.add (first : Whole x n) (second : Whole y k) : Nears (x + y) (rounded (n + k)) :=
  nears_pack (Means.add first second)

theorem Whole.mul (first : Whole x n) (second : Whole y k) : Nears (x * y) (rounded (n * k)) :=
  nears_pack (Means.mul first second)

theorem Nears.whole (nears : Nears x n) (whole : isWhole x = true) : Whole x n := by
  rcases nears with means | ⟨⟨s, infinite⟩, -⟩
  · exact means
  · exact Bool.noConfusion (whole.symm.trans (read_infinity infinite).1)

theorem Whole.neg (whole : Whole x n) : Whole (-x) (-n) :=
  Nears.whole (nears_pack (Means.neg whole)) ((isWhole_neg x).trans (whole_iff.mp whole).1)

theorem infinity_neg {s : Sign} (infinite : x.toModel.unpack = .infinity s) :
    (-x).toModel.unpack = .infinity (-s) := by
  change UnpackedFloat.unpack binary64 (UnpackedFloat.pack binary64 x.toModel.unpack.neg) = _
  rw [infinite]
  cases s <;> rfl

theorem Nears.neg (nears : Nears x n) : Nears (-x) (-n) := by
  rcases nears with means | ⟨⟨s, infinite⟩, large⟩
  · exact .inl means.neg
  · exact .inr ⟨⟨-s, infinity_neg infinite⟩, by rwa [Int.natAbs_neg]⟩

theorem Whole.isInf (whole : Whole x n) : x.isInf = false := by
  have means : Means x.toModel.unpack n := whole
  change x.toModel.unpack.isInf = false
  cases unpacked : x.toModel.unpack with
  | infinity s =>
    rw [unpacked] at means
    cases means
  | _ => rfl

theorem Nears.finite (nears : Nears x n) (finite : x.isInf = false) : Whole x n := by
  rcases nears with means | ⟨⟨s, infinite⟩, -⟩
  · exact means
  · have impossible : x.toModel.unpack.isInf = false := finite
    rw [infinite] at impossible
    cases impossible

theorem Nears.of_small (nears : Nears x n) (small : n.natAbs < 2 ^ 200) : Whole x n :=
  nears.resolve_right fun large => Nat.not_lt.mpr large.2 small

/-- A natural number that fits 53 bits has its own double. -/
theorem whole_toFloat {m : Nat} (small : m < 2 ^ 53) : Whole m.toUInt64.toFloat m := by
  have same : m.toUInt64.toNat = m := Nat.mod_eq_of_lt (by omega)
  have nears : Nears m.toUInt64.toFloat (rounded m.toUInt64.toNat) :=
    nears_pack (means_normalize (m.toUInt64.toNat : Int) .positive (by simp))
  rw [same, rounded_short (by omega)] at nears
  exact nears.of_small (by omega)

/-- A large number is multiplied by the power of ten with the exponent zero. -/
theorem means_ofScientific {m : Nat} (some : m ≠ 0) :
    Means (UnpackedFloat.ofScientific binary64 m 0) (rounded m) := by
  have above : (0 : Int) ≤ 2 ^ binary64.exponentBits := by decide
  have bits : binary64.mantissaBits = 53 := rfl
  have long : 2 ^ 52 ≤ m <<< binary64.mantissaBits * 10 ^ (0 : Int).toNat := by
    rw [bits, Int.toNat_zero, pow_zero, Nat.mul_one, Nat.shiftLeft_eq]
    omega
  have value :
      (Sign.positive.apply (m <<< binary64.mantissaBits * 10 ^ (0 : Int).toNat : Nat) : ℚ) *
        2 ^ (-(binary64.mantissaBits : Int) + 0) = (m : Int) := by
    have shifted := shiftLeft_value .positive m binary64.mantissaBits 0
    rw [zero_sub, zpow_zero, mul_one] at shifted
    rw [Int.toNat_zero, pow_zero, Nat.mul_one, add_zero]
    exact shifted
  unfold UnpackedFloat.ofScientific
  rw [dif_neg some, if_neg (by omega), if_neg (by omega), if_pos (Int.le_refl 0)]
  exact means_mul_long long value

/-- A natural number is taken to the double next to it. -/
theorem nears_ofScientific (m : Nat) : Nears (Float.ofScientific m false 0) (rounded m) := by
  unfold Float.ofScientific
  split
  next exact =>
    have one : Whole (Float.ofBits 0x3FF0000000000000) 1 := whole_iff.mpr (by decide +kernel)
    have product := (whole_toFloat exact.1).mul one
    rwa [mul_one] at product
  next large =>
    have some : m ≠ 0 := by
      rintro rfl
      exact large (by decide)
    exact nears_pack (means_ofScientific some)

/-- An integer is taken to the double next to it. -/
theorem nears_ofInt (n : Int) : Nears (ofInt n) (rounded n) := by
  have magnitude := nears_ofScientific n.natAbs
  unfold ofInt
  dsimp only
  split
  next negative =>
    rw [show n = -(n.natAbs : Int) by omega, rounded_neg, Int.natAbs_neg, Int.natAbs_natCast]
    exact magnitude.neg
  next positive =>
    rwa [show (n.natAbs : Int) = n by omega] at magnitude

/-- An integer of 64 bits has a double next to it. -/
theorem whole_ofInt {n : Int} (small : n.natAbs < 2 ^ 64) : Whole (ofInt n) (rounded n) := by
  refine (nears_ofInt n).of_small ?_
  have size : (rounded n).natAbs = n.sign.natAbs * roundedNat n.natAbs := by
    rw [rounded, Int.natAbs_mul, Int.natAbs_natCast]
  have sign : n.sign.natAbs ≤ 1 := by
    rw [Int.natAbs_sign]
    split_ifs <;> omega
  calc (rounded n).natAbs ≤ 1 * roundedNat n.natAbs := size ▸ Nat.mul_le_mul_right _ sign
    _ ≤ 2 * n.natAbs := by rw [Nat.one_mul]; exact roundedNat_le _
    _ < 2 ^ 200 := by omega

theorem ofInt?_eq_some {n : Int} {x : Float} :
    ofInt? n = some x ↔ ofInt n = x ∧ (ofInt n).isInf = false := by
  unfold ofInt?
  cases infinite : (ofInt n).isInf <;> simp [infinite]

theorem whole_ofInt? {n : Int} {x : Float} (held : ofInt? n = some x) : Whole x (rounded n) := by
  obtain ⟨rfl, finite⟩ := ofInt?_eq_some.mp held
  exact (nears_ofInt n).finite finite

/-- An integer is taken to a double where its negation is. -/
theorem ofInt?_neg {n : Int} {x : Float} (held : ofInt? n = some x) :
    ∃ y, ofInt? (-n) = some y := by
  refine ⟨_, ofInt?_eq_some.mpr ⟨rfl, ?_⟩⟩
  have finite := (ofInt?_eq_some.mp held).2
  have magnitude : Whole (Float.ofScientific n.natAbs false 0) (rounded n.natAbs) := by
    refine (nears_ofScientific n.natAbs).resolve_right fun ⟨⟨s, infinite⟩, _⟩ => ?_
    have isInf {x : Float} {s : Sign} (infinite : x.toModel.unpack = .infinity s) :
        x.isInf = true := by
      change x.toModel.unpack.isInf = true
      rw [infinite]
      rfl
    unfold ofInt at finite
    dsimp only at finite
    split at finite
    · exact Bool.noConfusion (finite.symm.trans (isInf (infinity_neg infinite)))
    · exact Bool.noConfusion (finite.symm.trans (isInf infinite))
  unfold ofInt
  dsimp only
  rw [Int.natAbs_neg]
  split
  · exact magnitude.neg.isInf
  · exact magnitude.isInf

/-- The two zeros stand for the same. -/
theorem Whole.opposite (whole : Whole x n) (opposite : Zeros.Opposite x y) : Whole y n := by
  have zero {z : Float} (zero : z = 0.0 ∨ z = -0.0) : Whole z 0 := by
    rcases zero with rfl | rfl <;> exact whole_iff.mpr (by decide +kernel)
  have none := zero (opposite.imp And.left And.left)
  obtain rfl : n = 0 :=
    Option.some.inj ((whole_iff.mp whole).2.symm.trans (whole_iff.mp none).2)
  exact zero (opposite.symm.imp And.right And.right)

end Doubles

end Number

end ReverseMode
