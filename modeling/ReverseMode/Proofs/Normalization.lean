import ReverseMode.Proofs.ReductionDerivatives
import ReverseMode.Proofs.Representation
import ReverseMode.Proofs.RealElements
import ReverseMode.Proofs.ValueShapes

/-!
Spreads and normalized fibres.

Variances, standard deviations and normalizations all start from the deviations from the mean, and
these add up to zero. Their backward steps are formulas of the deviations: a variance and a standard
deviation give each element its deviation times a factor of the fibre, which for a fibre without
spread is zero; a normalization takes the mean and the projection on the normalized fibre out of the
gradient.
-/

namespace ReverseMode

open scoped Element

/-! ### Real numbers -/

section Real

variable {n : Nat} {x : Nat → ℝ}

/-- The deviation of one of `n` numbers from their mean. -/
noncomputable def deviation (n : Nat) (x : Nat → ℝ) (k : Nat) : ℝ :=
  x k - (∑ j ∈ Finset.range n, x j) / n

/-- The mean of the squared deviations. -/
noncomputable def spread (n : Nat) (x : Nat → ℝ) : ℝ :=
  (∑ k ∈ Finset.range n, deviation n x k * deviation n x k) / n

theorem spread_nonneg (n : Nat) (x : Nat → ℝ) : 0 ≤ spread n x :=
  div_nonneg (Finset.sum_nonneg fun k _ => mul_self_nonneg (deviation n x k)) n.cast_nonneg

/-- Deviations add up to zero. -/
theorem sum_deviation (some : 0 < n) (x : Nat → ℝ) :
    ∑ k ∈ Finset.range n, deviation n x k = 0 := by
  have count : (n : ℝ) ≠ 0 := Nat.cast_ne_zero.mpr some.ne'
  simp only [deviation]
  rw [Finset.sum_sub_distrib, Finset.sum_const, Finset.card_range, nsmul_eq_mul,
    mul_div_cancel₀ _ count, sub_self]

/-- What is taken out of all numbers does not change how they deviate. -/
theorem deviation_sub (some : 0 < n) (x : Nat → ℝ) (c : ℝ) (k : Nat) :
    deviation n (fun j => x j - c) k = deviation n x k := by
  have count : (n : ℝ) ≠ 0 := Nat.cast_ne_zero.mpr some.ne'
  rw [deviation, Finset.sum_sub_distrib, Finset.sum_const, Finset.card_range, nsmul_eq_mul, sub_div,
    mul_div_cancel_left₀ _ count, deviation]
  ring

theorem spread_sub (some : 0 < n) (x : Nat → ℝ) (c : ℝ) :
    spread n (fun j => x j - c) = spread n x := by
  simp only [spread, deviation_sub some]

theorem Reduction.Reduces.spread (some : 0 < n) {y : ℝ} (reduces : Reduction.var.Reduces n x y) :
    y = spread n x := by
  have count : (n : ℝ) ≠ 0 := Nat.cast_ne_zero.mpr some.ne'
  obtain ⟨m, mean, squares⟩ := reduces
  obtain rfl := eq_div_of_mul_eq count mean
  exact eq_div_of_mul_eq count squares

end Real

/-! ### Fibres -/

/-- What a normalized element is given, from the inverse deviation of its fibre, its gradient, the
total of the gradient, the element itself and the projection of the gradient. -/
def Fibre.projected {α : Type} [Element α] (n : Nat) : List α → α
  | [r, g, t, h, q] => r / Element.whole n * (Element.whole n * g - t - h * q)
  | _ => default

namespace Element.Reading

variable {α : Type} [Element α] {type : StorageType} {ρ : Element.Reading α ℝ type}

namespace Lists

variable {n : Nat} {x : Nat → ℝ} {xs : List α} {eps : Float}

theorem centered (real : ρ.Analytic) (lists : ρ.Lists n x xs) :
    ρ.Lists n (deviation n x) (Fibre.centered xs) := by
  have means : ∑ j ∈ Finset.range n, ρ.val (xs.getD j default) = ∑ j ∈ Finset.range n, x j :=
    Finset.sum_congr rfl fun k mem => lists.value k (Finset.mem_range.mp mem)
  have each : ∀ k < n, ρ.carrier ((Fibre.centered xs).getD k default) ∧
      ρ.val ((Fibre.centered xs).getD k default) = deviation n x k := by
    intro k small
    have count : (n : ℝ) ≠ 0 := Nat.cast_ne_zero.mpr (by omega)
    have centered := centered_range real.toArithmetic real.toDivides count lists.carried small
    rwa [← lists.eq_range, lists.value k small, means] at centered
  exact ⟨by simp [Fibre.centered, lists.length], fun k small => (each k small).1,
    fun k small => (each k small).2⟩

theorem variance (real : ρ.Analytic) (lists : ρ.Lists n x xs) (some : 0 < n) (dense : Bool) :
    ρ.carrier (Fibre.variance dense xs) ∧ ρ.val (Fibre.variance dense xs) = spread n x := by
  have count : (n : ℝ) ≠ 0 := Nat.cast_ne_zero.mpr some.ne'
  obtain ⟨carried, reduces⟩ := variance_range real.toArithmetic real.toDivides some
    (IsUnit.mk0 _ count) lists.carried dense
  rw [← lists.eq_range] at carried reduces
  exact ⟨carried, (reduces.congr lists.value).spread some⟩

/-- The inverse of the standard deviation, to the square of which a positive number is added. -/
theorem inverse (real : ρ.Analytic) (lists : ρ.Lists n x xs) (some : 0 < n)
    (positive : 0 < ρ.val (Element.real eps)) : ρ.carrier (Fibre.normalize eps xs).2 ∧
      ρ.val (Fibre.normalize eps xs).2 = 1 / √(spread n x + ρ.val (Element.real eps)) := by
  obtain ⟨carried, variance⟩ := lists.variance real some true
  obtain ⟨moved, sum⟩ := ρ.add carried (real.real eps)
  rw [variance] at sum
  have apart : 0 < spread n x + ρ.val (Element.real eps) :=
    add_pos_of_nonneg_of_pos (spread_nonneg n x) positive
  obtain ⟨root, value⟩ := real.sqrt moved (sum ▸ apart.le)
  rw [sum] at value
  obtain ⟨inverted, quotient⟩ :=
    real.quotient (real.real 1.0) root (value ▸ (Real.sqrt_pos.mpr apart).ne')
  exact ⟨inverted, by rw [← value, ← real.one]; exact quotient⟩

theorem normalize (real : ρ.Analytic) (lists : ρ.Lists n x xs) (some : 0 < n)
    (positive : 0 < ρ.val (Element.real eps)) :
    ρ.Lists n (fun k => deviation n x k * (1 / √(spread n x + ρ.val (Element.real eps))))
      (Fibre.normalize eps xs).1 := by
  obtain ⟨inverted, value⟩ := lists.inverse real some positive
  refine (lists.centered real).map fun k _ d carried deviates => ?_
  obtain ⟨scaled, product⟩ := ρ.mul carried inverted
  exact ⟨scaled, by rw [← deviates, ← value]; exact product⟩

end Lists

/-- The factor of a standard deviation is read, also where the spread is zero. -/
theorem spreadFactor_carried (real : ρ.Analytic) {n : Nat} (some : 0 < n) {y : α}
    (carried : ρ.carrier y) : ρ.carrier (Fibre.spreadFactor (Element.whole n) y) := by
  obtain ⟨number, value⟩ := real.whole n
  obtain ⟨zero, none⟩ := real.whole 0
  obtain ⟨divisor, product⟩ := ρ.mul number carried
  have refused := real.unrefused carried (real.real 1.0) divisor
  have positive := real.lt zero carried
  rw [none, Nat.cast_zero] at positive
  rw [Fibre.spreadFactor, refused]
  by_cases spreads : 0 < ρ.val y
  · have nonzero : ρ.val (Element.whole n * y) ≠ 0 := by
      rw [product, value]
      exact mul_ne_zero (Nat.cast_ne_zero.mpr some.ne') spreads.ne'
    have divided := (real.quotient (real.real 1.0) divisor nonzero).1
    simpa [positive, spreads] using (real.replace carried divided).1
  · simpa [positive, spreads] using (ρ.like carried zero).1

theorem projected_read (real : ρ.Analytic) {n : Nat} (some : 0 < n) {r g t h q : α}
    (inverse : ρ.carrier r) (gradient : ρ.carrier g) (total : ρ.carrier t) (hat : ρ.carrier h)
    (projection : ρ.carrier q) : ρ.carrier (Fibre.projected n [r, g, t, h, q]) ∧
      ρ.val (Fibre.projected n [r, g, t, h, q]) =
        ρ.val r / n * (n * ρ.val g - ρ.val t - ρ.val h * ρ.val q) := by
  obtain ⟨number, value⟩ := real.whole n
  have count : (n : ℝ) ≠ 0 := Nat.cast_ne_zero.mpr some.ne'
  obtain ⟨factor, quotient⟩ := real.quotient inverse number (value ▸ count)
  obtain ⟨scaled, product⟩ := ρ.mul number gradient
  obtain ⟨centred, difference⟩ := real.sub scaled total
  obtain ⟨aligned, along⟩ := ρ.mul hat projection
  obtain ⟨left, difference'⟩ := real.sub centred aligned
  obtain ⟨carried, product'⟩ := ρ.mul factor left
  refine ⟨carried, product'.trans ?_⟩
  rw [quotient, difference', difference, product, along, value]

/-- The last axis of the extents is the one that is found in the array. -/
theorem Represents.lastAxis {s : List Nat} {i : Nat} {v : List Nat → ℝ} {t : Tensor α}
    (represents : ρ.Represents s v t) (axial : i < s.length) (last : i = s.length - 1) :
    Operator.lastAxis t = .ok i := by
  have ranked : t.shape ≠ [] := List.length_pos_iff.mp (by rw [represents.shape]; omega)
  rw [(Operator.lastAxis_eq ranked).1, Tensor.rank, represents.shape, last]

end Element.Reading

/-! ### Forward and backward steps -/

namespace Operator

open Tensor Element.Reading

variable {α : Type} [Element α] {type : StorageType} {ρ : Element.Reading α ℝ type}
variable {axis : Axis} {i : Nat} {s : List Nat} {a y g gamma : Tensor α} {rest : List (Tensor α)}
variable {x w : List Nat → Nat → ℝ} {b : List Nat → ℝ} {eps : Float}

section Spread

variable (real : ρ.Analytic) (resolved : axis.resolve s.length = .ok i) (positive : ∀ e ∈ s, 0 < e)
  (input : ρ.Represents s (fibrewise i x) a)

include real resolved positive input

theorem variance_forward : ∃ y, (reduce .var axis).forward type (s.set i 1) [a] = .ok y ∧
    ρ.Represents (s.set i 1) (fun p => spread (s.getD i 1) (x p)) y := by
  have axial := Axis.resolve_lt resolved
  exact reduce_forward resolved input fun p inside =>
    (input.fibre axial inside).variance real (width_pos positive axial) _

theorem deviation_forward : ∃ y, (reduce .std axis).forward type (s.set i 1) [a] = .ok y ∧
    ρ.Represents (s.set i 1) (fun p => √(spread (s.getD i 1) (x p))) y := by
  have axial := Axis.resolve_lt resolved
  refine reduce_forward resolved input fun p inside => ?_
  obtain ⟨carried, variance⟩ := (input.fibre axial inside).variance real
    (width_pos positive axial) (Tensor.dense a.shape i)
  have root := real.sqrt carried (variance ▸ spread_nonneg _ _)
  rwa [variance] at root

/-- Each element is given its deviation times a factor of the fibre. -/
theorem variance_gradient (gradient : ρ.Represents (s.set i 1) b g) (y : Tensor α) :
    ∃ c, reduceGradient .var axis a y g = .ok c ∧ ρ.Represents s (fibrewise i fun p k =>
      b p * 2 * deviation (s.getD i 1) (x p) k / (s.getD i 1 : Nat)) c := by
  have axial := Axis.resolve_lt resolved
  have count : ((s.getD i 1 : Nat) : ℝ) ≠ 0 := Nat.cast_ne_zero.mpr (width_pos positive axial).ne'
  have centered := input.mapFibres (f := fun _ => Fibre.centered) axial
    fun _ _ _ lists => lists.centered real
  obtain ⟨two, double⟩ := real.two
  obtain ⟨number, value⟩ := real.whole (s.getD i 1)
  have scale {e d : α} (first : ρ.carrier e) (second : ρ.carrier d) :
      ρ.carrier (e * Element.real 2.0 * d / Element.whole (s.getD i 1)) ∧
        ρ.val (e * Element.real 2.0 * d / Element.whole (s.getD i 1)) =
          ρ.val e * 2 * ρ.val d / (s.getD i 1 : Nat) := by
    obtain ⟨twice, product⟩ := ρ.mul first two
    obtain ⟨scaled, product'⟩ := ρ.mul twice second
    obtain ⟨carried, quotient⟩ := real.quotient scaled number (value ▸ count)
    exact ⟨carried, by rw [quotient, product', product, double, value]⟩
  obtain ⟨c, made, represents⟩ := gradient.start_combine
    (fun e d => e * 2 * d / (s.getD i 1 : Nat)) centered axial scale
  refine ⟨c, bind_eq_ok.mpr ⟨i, input.resolve resolved, ?_⟩, represents⟩
  rw [Tensor.extent, input.shape]
  exact made

/-- Each element is given its deviation times a factor of the fibre, whatever the spread. -/
theorem deviation_gradient (gradient : ρ.Represents (s.set i 1) b g) (output : ρ.Holds y)
    (one : y.shape = s.set i 1) : ∃ (f : List Nat → ℝ) (c : Tensor α),
      reduceGradient .std axis a y g = .ok c ∧ ρ.Represents s (fibrewise i fun p k =>
        b p * deviation (s.getD i 1) (x p) k * f p) c := by
  have axial := Axis.resolve_lt resolved
  have centered := input.mapFibres (f := fun _ => Fibre.centered) axial
    fun _ _ _ lists => lists.centered real
  obtain ⟨scaled, multiplied, product⟩ := gradient.start_combine (· * ·) centered axial ρ.mul
  have factors : ρ.Holds (y.map (Fibre.spreadFactor (Element.whole (s.getD i 1)))) := by
    intro p inside
    have inside : p ∈ positions y.shape := inside
    rw [get_map _ inside]
    exact spreadFactor_carried real (width_pos positive axial) (output p inside)
  have factored : ρ.Represents (s.set i 1) (ρ.entry (y.map (Fibre.spreadFactor
      (Element.whole (s.getD i 1))))) (y.map (Fibre.spreadFactor (Element.whole (s.getD i 1)))) :=
    ⟨one, factors, fun _ _ => rfl⟩
  obtain ⟨c, made, represents⟩ := product.combine_start (· * ·) factored axial ρ.mul
  refine ⟨_, c, bind_eq_ok.mpr ⟨i, input.resolve resolved,
    bind_eq_ok.mpr ⟨scaled, multiplied, ?_⟩⟩, represents⟩
  rw [Tensor.extent, input.shape]
  exact made

end Spread

/-! ### Layer normalization -/

/-- A normalized element. -/
noncomputable def normalizedAt (ρ : Element.Reading α ℝ type) (eps : Float) (n : Nat)
    (x : Nat → ℝ) (k : Nat) : ℝ :=
  deviation n x k * (1 / √(spread n x + ρ.val (Element.real eps)))

/-- What is added to a normalized and scaled element. -/
def shiftAt (ρ : Element.Reading α ℝ type) (rest : List (Tensor α)) (q : List Nat) : ℝ :=
  match rest with
  | [] => 0
  | beta :: _ => ρ.val (beta.read q)

section LayerNorm

variable (real : ρ.Analytic) (axial : i < s.length) (last : i = s.length - 1)
  (positive : ∀ e ∈ s, 0 < e) (input : ρ.Represents s (fibrewise i x) a)
  (above : 0 < ρ.val (Element.real eps))

include real axial positive input above

theorem normalized_hats :
    ρ.Represents s (fibrewise i fun p => normalizedAt ρ eps (s.getD i 1) (x p))
      (a.mapFibres i fun xs => (Fibre.normalize eps xs).1) :=
  input.mapFibres (f := fun _ xs => (Fibre.normalize eps xs).1) axial
    fun _ _ _ lists => lists.normalize real (width_pos positive axial) above

theorem normalized_inverses :
    ρ.Represents (s.set i 1) (fun p => 1 / √(spread (s.getD i 1) (x p) + ρ.val (Element.real eps)))
      (a.reduceAxis i fun xs => (Fibre.normalize eps xs).2) :=
  .reduceAxis input.shape fun _ inside =>
    (input.fibre axial inside).inverse real (width_pos positive axial) above

include last

theorem layerNorm_forward (scale : ρ.Holds gamma ∧ Fits gamma.shape s)
    (shift : ∀ t ∈ rest, ρ.Holds t ∧ Fits t.shape s) :
    ∃ y, (layerNorm eps).forward type s (a :: gamma :: rest) = .ok y ∧
      ρ.Represents s (fibrewise i fun p k => normalizedAt ρ eps (s.getD i 1) (x p) k *
        ρ.val (gamma.read (p.set i k)) + shiftAt ρ rest (p.set i k)) y := by
  have hats := normalized_hats real axial positive input above
  have found := input.lastAxis axial last
  obtain ⟨scaled, multiplied, product⟩ := hats.combine_fitting (· * ·) scale.1 scale.2 ρ.mul
  cases rest with
  | nil =>
    have kept : ρ.Represents s (fibrewise i fun p k => normalizedAt ρ eps (s.getD i 1) (x p) k *
        ρ.val (gamma.read (p.set i k)) + shiftAt ρ [] (p.set i k)) scaled :=
      product.congr fun q _ => (add_zero _).symm
    exact kept.stored rfl (bind_eq_ok.mpr ⟨a, rfl, bind_eq_ok.mpr ⟨i, found, multiplied⟩⟩)
  | cons beta more =>
    obtain ⟨holds, fits⟩ := shift beta (.head _)
    obtain ⟨shifted, added, sum⟩ := product.combine_fitting (· + ·) holds fits ρ.add
    exact sum.stored rfl (bind_eq_ok.mpr ⟨a, rfl, bind_eq_ok.mpr ⟨i, found,
      bind_eq_ok.mpr ⟨scaled, multiplied, added⟩⟩⟩)

/-- The mean of the gradient is taken out of it, and its projection on the normalized fibre. -/
theorem normalize_gradient (gradient : ρ.Represents s (fibrewise i w) g) :
    ∃ c, normalizeGradient eps a g = .ok c ∧ ρ.Represents s (fibrewise i fun p k =>
      1 / √(spread (s.getD i 1) (x p) + ρ.val (Element.real eps)) / (s.getD i 1 : Nat) *
        ((s.getD i 1 : Nat) * w p k - ∑ j ∈ Finset.range (s.getD i 1), w p j -
          normalizedAt ρ eps (s.getD i 1) (x p) k * ∑ j ∈ Finset.range (s.getD i 1),
            w p j * normalizedAt ρ eps (s.getD i 1) (x p) j)) c := by
  have hats := normalized_hats real axial positive input above
  have inverses := normalized_inverses real axial positive input above
  have totals := gradient.total positive axial true
  obtain ⟨products, multiplied, product⟩ := gradient.combine (· * ·) hats ρ.mul
  have projections := product.total positive axial true
  have joined : broadcast? ([a.reduceAxis i fun xs => (Fibre.normalize eps xs).2, g,
      g.reduceAxis i (Fibre.total true), a.mapFibres i fun xs => (Fibre.normalize eps xs).1,
      products.reduceAxis i (Fibre.total true)].map Tensor.shape) = some s := by
    simp only [List.map_cons, List.map_nil, inverses.shape, gradient.shape, totals.shape,
      hats.shape, projections.shape]
    refine Fits.broadcast_all (by simp) fun e mem => ?_
    simp only [List.mem_cons, List.not_mem_nil, or_false] at mem
    rcases mem with rfl | rfl | rfl | rfl | rfl
    · exact fits_set _ _
    · exact .refl _
    · exact fits_set _ _
    · exact .refl _
    · exact fits_set _ _
  obtain ⟨c, made, represents⟩ := represents_combineAll (f := Fibre.projected (s.getD i 1)) joined
    fun q inside => by
      obtain ⟨first, one⟩ := inverses.start axial inside
      obtain ⟨second, two⟩ := gradient.here inside
      obtain ⟨third, three⟩ := totals.start axial inside
      obtain ⟨fourth, four⟩ := hats.here inside
      obtain ⟨fifth, five⟩ := projections.start axial inside
      obtain ⟨carried, formed⟩ := projected_read real (width_pos positive axial) first second third
        fourth fifth
      refine ⟨carried, formed.trans ?_⟩
      rw [one, two, three, four, five]
  refine ⟨c, ?_, represents⟩
  refine bind_eq_ok.mpr ⟨(_, _), bind_eq_ok.mpr ⟨i, input.lastAxis axial last, rfl⟩, ?_⟩
  refine bind_eq_ok.mpr ⟨_, bind_eq_ok.mpr ⟨i, gradient.lastAxis axial last, rfl⟩, ?_⟩
  refine bind_eq_ok.mpr ⟨products, multiplied, ?_⟩
  refine bind_eq_ok.mpr ⟨_, bind_eq_ok.mpr ⟨i, product.lastAxis axial last, rfl⟩, ?_⟩
  have there : a.rank - 1 = i := by rw [Tensor.rank, input.shape, last]
  rw [there, Tensor.extent, input.shape]
  exact made

end LayerNorm

end Operator

end ReverseMode
