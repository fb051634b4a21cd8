import Mathlib.Data.Nat.Digits.Defs
import ReverseMode.Plain.Functions
import ReverseMode.Proofs.WholeFloats

/-!
Samples of arrays in reports.

Of an array with more elements than a report may show, the first and the last ones are shown, half
of the limit each, the odd one among the last. So no element is shown twice, and as a number is
written with a bounded number of digits, a line is bounded by the limit, however many elements there
are (`Report.valueText_samples`). The exception is a limit of zero: the place to cut at is counted
from the end, and none from the end is the start, so that all elements are shown behind the dots.
-/

namespace ReverseMode

/-! ### Widths of texts -/

namespace Number

/-- A finite double is less than `2 ^ 1024`. -/
theorem fraction_lt {x : Float} {v : Finite} (finite : read x = .finite v) :
    v.fraction.1 < 2 ^ 1024 * v.fraction.2 := by
  obtain ⟨significand, exponent⟩ : v.significand < 2 ^ 53 ∧ v.exponent ≤ 971 := by
    have field := Nat.mod_lt (x.toBits.toNat / 2 ^ 52) (show 0 < 2 ^ 11 by decide)
    have fraction := Nat.mod_lt x.toBits.toNat (show 0 < 2 ^ 52 by decide)
    rw [read] at finite
    simp only [Nat.pow_eq] at finite
    split_ifs at finite <;> cases finite
    all_goals
      dsimp only
      omega
  have power {e : Nat} (le : v.exponent.toNat ≤ e) : 2 ^ v.exponent.toNat ≤ 2 ^ e :=
    Nat.pow_le_pow_right Nat.two_pos le
  calc v.significand * 2 ^ v.exponent.toNat
      < 2 ^ 53 * 2 ^ 971 :=
        Nat.mul_lt_mul_of_lt_of_le significand (power (by omega)) (by positivity)
    _ = 2 ^ 1024 * 1 := by rw [← pow_add, Nat.mul_one]
    _ ≤ 2 ^ 1024 * 2 ^ (-v.exponent).toNat := Nat.mul_le_mul_left _ Nat.one_le_two_pow

end Number

namespace Decimal

open Number

theorem length_padded_le (least : Nat) {n k : Nat} (some : 0 < k) (le : least ≤ k) (less : n < 10 ^ k) :
    (padded least n).length ≤ k := by
  have digits := (Nat.length_toDigits_le_iff (by decide) some).mpr less
  simp only [padded, String.length_append, String.length_pushn, String.length_ofList,
    String.length_empty]
  omega

theorem fixed_div_lt {places n d : Nat} (less : n < 2 ^ 1024 * d) :
    fixed places n d / 10 ^ places < 10 ^ 309 := by
  have positive : 0 < d := Nat.pos_of_mul_pos_left (Nat.lt_of_le_of_lt (Nat.zero_le n) less)
  have quotient : n * 10 ^ places / d < 2 ^ 1024 * 10 ^ places := by
    rw [Nat.div_lt_iff_lt_mul positive, Nat.mul_right_comm]
    exact Nat.mul_lt_mul_of_pos_right less (by positivity)
  have rounded := (nearestEven_bounds (n * 10 ^ places) d).2
  have powers : 2 ^ 1024 * 10 ^ places < 10 ^ 309 * 10 ^ places :=
    Nat.mul_lt_mul_of_pos_right (by decide +kernel) (by positivity)
  rw [Nat.div_lt_iff_lt_mul (by positivity)]
  exact Nat.lt_of_le_of_lt (rounded.trans quotient) powers

/-- A double is written with at most 309 digits before the point. -/
theorem length_fixedText_le (places : Nat) (x : Float) :
    (fixedText places x).length ≤ 311 + places := by
  unfold fixedText
  split
  · exact Nat.le_add_right_of_le (by decide)
  · split
    · exact Nat.le_add_right_of_le (by decide)
    · exact Nat.le_add_right_of_le (by decide)
  next v finite =>
    have less : fixed places v.fraction.1 v.fraction.2 / 10 ^ places < 10 ^ 309 :=
      fixed_div_lt (fraction_lt finite)
    have sign : (if v.negative then "-" else "").length ≤ 1 := by split <;> decide
    have point : (".").length = 1 := rfl
    suffices pointed : (pointed places (fixed places v.fraction.1 v.fraction.2)).length ≤
        310 + places by
      rw [String.length_append]
      omega
    unfold Decimal.pointed
    split
    next none =>
      subst none
      rw [pow_zero, Nat.div_one] at less
      exact (length_padded_le 1 (by decide) (by decide) less).trans (by decide)
    next some =>
      have whole := length_padded_le 1 (by decide) (by decide) less
      have part := length_padded_le places (by omega) le_rfl
        (Nat.mod_lt (fixed places v.fraction.1 v.fraction.2) (show 0 < 10 ^ places by positivity))
      simp only [String.length_append, point, Nat.pow_eq]
      omega

end Decimal

/-- Texts with commas between, each with its comma and a blank. -/
theorem Text.length_commas_le {items : List String} {width : Nat}
    (short : ∀ s ∈ items, s.length ≤ width) :
    (commas items).length ≤ items.length * (width + 2) := by
  induction items with
  | nil => exact Nat.zero_le _
  | cons s rest ih =>
    have here := short s (by simp)
    have later := ih fun s mem => short s (by simp [mem])
    rw [List.length_cons, Nat.succ_mul]
    cases rest with
    | nil =>
      rw [commas, String.intercalate_singleton]
      omega
    | cons r rest =>
      have comma : (", ").length = 2 := rfl
      rw [commas, String.intercalate_cons_of_ne_nil (by simp), String.length_append,
        String.length_append, comma, ← commas]
      omega

namespace Report

/-! ### Samples -/

section Samples

variable {xs : List String} {m : Nat}

theorem samples_few (few : xs.length ≤ m) : samples (.ofInt m) xs = .ok (Text.commas xs) := by
  rw [SampleLimit.ofInt, samples, if_pos (by exact_mod_cast few)]

/-- A cut that is counted from the end, unless it is there. -/
theorem startingAt_neg {β : Type} {xs : List β} {k : Nat} (some : 0 < k) (le : k ≤ xs.length) :
    startingAt (-k : Int) xs = xs.drop (xs.length - k) := by
  rw [startingAt, if_neg (by omega)]
  congr 1
  omega

/-- Half of the limit is shown from the start, the other half from the end. -/
theorem samples_many (some : 0 < m) (many : m < xs.length) :
    samples (.ofInt m) xs = .ok (Text.commas (xs.take (m / 2)) ++ ", ..., " ++
      Text.commas (xs.drop (xs.length - (m + 1) / 2))) := by
  have front : (m : Int) / 2 = (m / 2 : Nat) := rfl
  have back : -(m : Int) / 2 = -((m + 1) / 2 : Nat) := by omega
  rw [SampleLimit.ofInt, samples, if_neg (by omega), front, back,
    startingAt_neg (by omega) (by omega), upTo, if_pos (by omega), Int.toNat_natCast]

/-- None counted from the end is the start. -/
theorem samples_zero (some : 0 < xs.length) :
    samples (.ofInt (0 : Nat)) xs = .ok (", ..., " ++ Text.commas xs) := by
  rw [SampleLimit.ofInt, samples, if_neg (by omega)]
  simp [upTo, startingAt, Text.commas]

end Samples

/-! ### Arrays -/

section Arrays

variable {α : Type} [Element α]

/-- The texts of some elements. -/
def sampleTexts (xs : List α) : List String :=
  xs.map fun x => Decimal.fixedText 6 (Element.toFloat x)

theorem length_sampleTexts (xs : List α) : (sampleTexts xs).length = xs.length :=
  List.length_map _

theorem length_commas_sampleTexts (xs : List α) :
    (Text.commas (sampleTexts xs)).length ≤ 319 * xs.length := by
  have short : ∀ s ∈ sampleTexts xs, s.length ≤ 317 := by
    intro s mem
    obtain ⟨x, _, rfl⟩ := List.mem_map.mp mem
    exact Decimal.length_fixedText_le 6 (Element.toFloat x)
  have bound := Text.length_commas_le short
  rw [length_sampleTexts] at bound
  omega

theorem valueText_of_samples {limit : SampleLimit} {t : Tensor α} {text : String}
    (shown : samples limit (sampleTexts t.toList) = .ok text) :
    valueText limit (some t) = .ok ("[" ++ text ++ "]") := by
  rw [valueText, arrayText, List.map_map]
  exact bind_eq_ok.mpr ⟨text, shown, rfl⟩

/-- The line of a text between brackets. -/
theorem lineOf_bracketed (start text : String) {bound : Nat} (short : text.length ≤ bound) :
    ∃ line, lineOf start (.ok ("[" ++ text ++ "]")) = .ok line ∧
      line.length ≤ start.length + bound + 3 := by
  refine ⟨_, rfl, ?_⟩
  have marks : ("[").length = 1 ∧ ("]").length = 1 ∧ ("\n").length = 1 := ⟨rfl, rfl, rfl⟩
  simp only [lined, String.length_append, marks]
  omega

/-- The first elements of an array are shown, half of a limit, and the last ones, the other half, in
their order and with dots for all that stand between. -/
def ShowsEnds (m : Nat) (t : Tensor α) : Prop :=
  ∃ front hidden back, t.toList = front ++ hidden ++ back ∧ front.length = m / 2 ∧
    back.length = (m + 1) / 2 ∧ valueText (.ofInt m) (some t) =
      .ok ("[" ++ (Text.commas (sampleTexts front) ++ ", ..., " ++
        Text.commas (sampleTexts back)) ++ "]")

section Array

variable {t : Tensor α} {m : Nat}

omit [Element α] in
theorem length_toList (t : Tensor α) : t.toList.length = t.size := Array.length_toList

theorem valueText_few (few : t.size ≤ m) :
    valueText (.ofInt m) (some t) = .ok ("[" ++ Text.commas (sampleTexts t.toList) ++ "]") := by
  refine valueText_of_samples (samples_few ?_)
  rwa [length_sampleTexts, length_toList]

theorem valueText_many (positive : 0 < m) (many : m < t.size) : ShowsEnds m t := by
  have count := length_toList t
  have hidden : ((t.toList.drop (m / 2)).take (t.size - m)) ++
      t.toList.drop (t.size - (m + 1) / 2) = t.toList.drop (m / 2) := by
    have place : t.size - (m + 1) / 2 = m / 2 + (t.size - m) := by omega
    rw [place, ← List.drop_drop, List.take_append_drop]
  refine ⟨t.toList.take (m / 2), (t.toList.drop (m / 2)).take (t.size - m),
    t.toList.drop (t.size - (m + 1) / 2), ?_, ?_, ?_, valueText_of_samples ?_⟩
  · rw [List.append_assoc, hidden, List.take_append_drop]
  · rw [List.length_take]
    omega
  · rw [List.length_drop]
    omega
  · have long : m < (sampleTexts t.toList).length := by rwa [length_sampleTexts, count]
    have shown := samples_many positive long
    rwa [length_sampleTexts, count, sampleTexts, ← List.map_take, ← List.map_drop] at shown

theorem valueText_zero (some : 0 < t.size) : valueText (.ofInt (0 : Nat)) (.some t) =
    .ok ("[" ++ (", ..., " ++ Text.commas (sampleTexts t.toList)) ++ "]") := by
  refine valueText_of_samples (samples_zero ?_)
  rwa [length_sampleTexts, length_toList]

/-- The line that shows an array is bounded by the limit. -/
theorem length_line_le (start : String) (shown : 0 < m ∨ t.size = 0) :
    ∃ line, lineOf start (valueText (.ofInt m) (some t)) = .ok line ∧
      line.length ≤ start.length + 319 * m + 10 := by
  have count := length_toList t
  by_cases few : t.size ≤ m
  · rw [valueText_few few]
    have short := length_commas_sampleTexts t.toList
    obtain ⟨line, made, bound⟩ := lineOf_bracketed start _ short
    exact ⟨line, made, by omega⟩
  · obtain ⟨front, hidden, back, _, first, last, text⟩ :=
      valueText_many (t := t) (m := m) (by omega) (by omega)
    have short : (Text.commas (sampleTexts front) ++ ", ..., " ++
        Text.commas (sampleTexts back)).length ≤ 319 * m + 7 := by
      have dots : (", ..., ").length = 7 := rfl
      have short := length_commas_sampleTexts front
      have short' := length_commas_sampleTexts back
      rw [String.length_append, String.length_append, dots]
      omega
    rw [text]
    obtain ⟨line, made, bound⟩ := lineOf_bracketed start _ short
    exact ⟨line, made, by omega⟩

/-- An array is shown as a whole if it has no more elements than the limit. Of a longer one the two
ends are shown, and as many elements as the limit allows. The line that shows it is bounded by the
limit. A limit of zero is no limit: all elements are shown behind the dots. -/
theorem valueText_samples (t : Tensor α) (m : Nat) :
    (t.size ≤ m → valueText (.ofInt m) (some t) =
      .ok ("[" ++ Text.commas (sampleTexts t.toList) ++ "]")) ∧
    (0 < m → m < t.size → ShowsEnds m t) ∧
    (0 < m ∨ t.size = 0 → ∀ start, ∃ line,
      lineOf start (valueText (.ofInt m) (some t)) = .ok line ∧
        line.length ≤ start.length + 319 * m + 10) ∧
    (m = 0 → 0 < t.size → valueText (.ofInt m) (some t) =
      .ok ("[" ++ (", ..., " ++ Text.commas (sampleTexts t.toList)) ++ "]")) := by
  refine ⟨valueText_few, valueText_many, fun shown start => length_line_le start shown, ?_⟩
  rintro rfl some
  exact valueText_zero some

end Array

end Arrays

end Report

/-! ### Examples -/

namespace Sample

open Report

/-- Two doubles. -/
def fiveSix : Tensor Scalar := ⟨[2], #[.float64 5.0, .float64 6.0], rfl⟩

/-- Both elements are shown where the ends of no length may be. -/
theorem zero_passed : ¬ ShowsEnds 0 fiveSix ∧ Plain.formatArray (.list [.real 5.0, .real 6.0])
    (.int 0) = .ok "[, ..., 5.000000, 6.000000]" := by
  refine ⟨?_, rfl⟩
  rintro ⟨front, hidden, back, _, first, last, text⟩
  obtain rfl := List.length_eq_zero_iff.mp first
  obtain rfl := List.length_eq_zero_iff.mp last
  have shown : valueText (.ofInt 0) (some fiveSix) = .ok "[, ..., 5.000000, 6.000000]" := rfl
  exact absurd (Except.ok.inj (shown.symm.trans text)) (by decide)

end Sample

end ReverseMode
