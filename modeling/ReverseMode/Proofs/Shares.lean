import Mathlib.Algebra.BigOperators.Field
import ReverseMode.Proofs.RealElements
import ReverseMode.Proofs.Representation

/-!
Shares of exponentials.

A softmax gives every element of a fibre its share of the sum of exponentials, and a log softmax the
logarithm of that. Both take the largest element out first, which changes nothing for real numbers,
because adding one number to all elements multiplies the exponentials and their sum by the same
factor. The shares of a fibre add up to one.
-/

namespace ReverseMode

open scoped Element

/-! ### Real numbers -/

section Real

variable {n : Nat}

/-- The sum of the exponentials of `n` numbers. -/
noncomputable def expTotal (n : Nat) (x : Nat → ℝ) : ℝ := ∑ j ∈ Finset.range n, Real.exp (x j)

/-- The share that the exponential of one of `n` numbers has in the sum of them. -/
noncomputable def share (n : Nat) (x : Nat → ℝ) (k : Nat) : ℝ := Real.exp (x k) / expTotal n x

/-- The logarithm of a share. -/
noncomputable def logShare (n : Nat) (x : Nat → ℝ) (k : Nat) : ℝ := x k - Real.log (expTotal n x)

theorem expTotal_pos (some : 0 < n) (x : Nat → ℝ) : 0 < expTotal n x :=
  Finset.sum_pos (fun j _ => Real.exp_pos (x j)) (Finset.nonempty_range_iff.mpr some.ne')

theorem exp_logShare (some : 0 < n) (x : Nat → ℝ) (k : Nat) :
    Real.exp (logShare n x k) = share n x k := by
  rw [logShare, Real.exp_sub, Real.exp_log (expTotal_pos some x), share]

/-- The shares of all numbers make up the whole. -/
theorem sum_share (some : 0 < n) (x : Nat → ℝ) : ∑ k ∈ Finset.range n, share n x k = 1 := by
  simp only [share]
  rw [← Finset.sum_div]
  exact div_self (expTotal_pos some x).ne'

theorem expTotal_sub (x : Nat → ℝ) (c : ℝ) :
    expTotal n (fun j => x j - c) = expTotal n x / Real.exp c := by
  simp only [expTotal, Real.exp_sub, Finset.sum_div]

/-- What is taken out of all numbers does not change their shares. -/
theorem share_sub (x : Nat → ℝ) (c : ℝ) (k : Nat) : share n (fun j => x j - c) k = share n x k := by
  rw [share, expTotal_sub, Real.exp_sub, div_div_div_cancel_right₀ (Real.exp_ne_zero c), share]

theorem logShare_sub (some : 0 < n) (x : Nat → ℝ) (c : ℝ) (k : Nat) :
    logShare n (fun j => x j - c) k = logShare n x k := by
  rw [logShare, expTotal_sub, Real.log_div (expTotal_pos some x).ne' (Real.exp_ne_zero c),
    Real.log_exp, logShare]
  ring

end Real

namespace Element.Reading

variable {α : Type} [Element α] {type : StorageType} {ρ : Element.Reading α ℝ type}

/-! ### Fibres -/

namespace Lists

variable {n : Nat} {x : Nat → ℝ} {xs : List α}

/-- The largest element is taken out of a fibre. -/
theorem lowered (real : ρ.Analytic) (lists : ρ.Lists n x xs) (some : 0 < n) :
    ∃ c, ρ.Lists n (fun k => x k - c) (xs.map fun y => y - Fibre.largest xs) := by
  have largest := largest_range real.toCompares some lists.carried
  rw [← lists.eq_range] at largest
  refine ⟨ρ.val (Fibre.largest xs), lists.map fun k _ y carried value => ?_⟩
  obtain ⟨apart, difference⟩ := real.sub carried largest
  exact ⟨apart, by rw [difference, value]⟩

theorem exps (real : ρ.Analytic) (lists : ρ.Lists n x xs) :
    ρ.Lists n (fun k => Real.exp (x k)) (xs.map Element.exp) := by
  refine lists.map fun k _ y carried value => ?_
  rw [← value]
  exact real.exp carried

/-- A softmax lists the shares. -/
theorem softmax (real : ρ.Analytic) (lists : ρ.Lists n x xs) (some : 0 < n) (dense : Bool) :
    ρ.Lists n (share n x) (Fibre.softmax dense xs) := by
  obtain ⟨c, lowered⟩ := lists.lowered real some
  have exps := lowered.exps real
  obtain ⟨carried, total⟩ := exps.total some dense
  have positive : 0 < expTotal n fun k => x k - c := expTotal_pos some _
  have opened : Fibre.softmax dense xs =
      ((xs.map fun y => y - Fibre.largest xs).map Element.exp).map fun e =>
        e / Fibre.total dense ((xs.map fun y => y - Fibre.largest xs).map Element.exp) := by
    simp only [Fibre.softmax, List.map_map]
    rfl
  rw [opened]
  refine exps.map fun k _ e given value => ?_
  obtain ⟨divided, quotient⟩ := real.quotient given carried (total ▸ positive.ne')
  refine ⟨divided, ?_⟩
  rw [quotient, value, total, ← share_sub x c k]
  rfl

/-- A log softmax lists the logarithms of the shares. -/
theorem logSoftmax (real : ρ.Analytic) (lists : ρ.Lists n x xs) (some : 0 < n) (dense : Bool) :
    ρ.Lists n (logShare n x) (Fibre.logSoftmax dense xs) := by
  obtain ⟨c, lowered⟩ := lists.lowered real some
  obtain ⟨carried, total⟩ := (lowered.exps real).total some dense
  have positive : 0 < expTotal n fun k => x k - c := expTotal_pos some _
  obtain ⟨read, logarithm⟩ := real.log carried (total ▸ positive)
  refine lowered.map fun k _ y given value => ?_
  obtain ⟨apart, difference⟩ := real.sub given read
  refine ⟨apart, ?_⟩
  rw [difference, value, logarithm, total, ← logShare_sub some x c k]
  rfl

end Lists

end Element.Reading

/-! ### Forward and backward steps -/

namespace Operator

open Tensor Element.Reading

variable {α : Type} [Element α] {type : StorageType} {ρ : Element.Reading α ℝ type}
variable {axis : Axis} {i : Nat} {s : List Nat} {a y g : Tensor α} {x w h : List Nat → Nat → ℝ}

section Forward

variable (real : ρ.Analytic) (resolved : axis.resolve s.length = .ok i) (positive : ∀ e ∈ s, 0 < e)
  (input : ρ.Represents s (fibrewise i x) a)

include real resolved positive input

theorem softmax_forward : ∃ y, (softmax axis).forward type s [a] = .ok y ∧
    ρ.Represents s (fibrewise i fun p => share (s.getD i 1) (x p)) y := by
  have axial := Axis.resolve_lt resolved
  have computed := input.mapFibres (f := fun _ => Fibre.softmax (Tensor.dense a.shape i)) axial
    fun _ _ _ lists => lists.softmax real (width_pos positive axial) _
  exact computed.stored rfl
    (bind_eq_ok.mpr ⟨a, rfl, bind_eq_ok.mpr ⟨i, input.resolve resolved, rfl⟩⟩)

theorem logSoftmax_forward : ∃ y, (logSoftmax axis).forward type s [a] = .ok y ∧
    ρ.Represents s (fibrewise i fun p => logShare (s.getD i 1) (x p)) y := by
  have axial := Axis.resolve_lt resolved
  have computed := input.mapFibres (f := fun _ => Fibre.logSoftmax (Tensor.dense a.shape i)) axial
    fun _ _ _ lists => lists.logSoftmax real (width_pos positive axial) _
  exact computed.stored rfl
    (bind_eq_ok.mpr ⟨a, rfl, bind_eq_ok.mpr ⟨i, input.resolve resolved, rfl⟩⟩)

end Forward

section Backward

variable (resolved : axis.resolve s.length = .ok i) (positive : ∀ e ∈ s, 0 < e)
  (output : ρ.Represents s (fibrewise i w) y) (gradient : ρ.Represents s (fibrewise i h) g)

include resolved positive output gradient

/-- The output is taken times the gradient less the total of their products. -/
theorem softmax_gradient (exact : ρ.Arithmetic) : ∃ c, softmaxGradient axis y g = .ok c ∧
    ρ.Represents s (fibrewise i fun p k =>
      w p k * (h p k - ∑ j ∈ Finset.range (s.getD i 1), h p j * w p j)) c := by
  have axial := Axis.resolve_lt resolved
  obtain ⟨products, multiplied, product⟩ := gradient.combine (· * ·) output ρ.mul
  have totals := product.total positive axial (Tensor.dense products.shape i)
  obtain ⟨rest, subtracted, difference⟩ := gradient.combine_start (· - ·) totals axial exact.sub
  obtain ⟨c, made, represents⟩ := output.combine (· * ·) difference ρ.mul
  exact ⟨c, bind_eq_ok.mpr ⟨i, output.resolve resolved, bind_eq_ok.mpr ⟨products, multiplied,
    bind_eq_ok.mpr ⟨rest, subtracted, made⟩⟩⟩, represents⟩

/-- Of the gradient its total is taken away, in the shares that the output is the logarithm of. -/
theorem logSoftmax_gradient (real : ρ.Analytic) : ∃ c, logSoftmaxGradient axis y g = .ok c ∧
    ρ.Represents s (fibrewise i fun p k =>
      h p k - Real.exp (w p k) * ∑ j ∈ Finset.range (s.getD i 1), h p j) c := by
  have axial := Axis.resolve_lt resolved
  have totals := gradient.total positive axial (Tensor.dense g.shape i)
  have scale {e t : α} (first : ρ.carrier e) (second : ρ.carrier t) :
      ρ.carrier (Element.exp e * t) ∧
        ρ.val (Element.exp e * t) = Real.exp (ρ.val e) * ρ.val t := by
    obtain ⟨carried, value⟩ := real.exp first
    rw [← value]
    exact ρ.mul carried second
  obtain ⟨scaled, taken, product⟩ :=
    output.combine_start (fun e t => Real.exp e * t) totals axial scale
  obtain ⟨c, made, represents⟩ := gradient.combine (· - ·) product real.sub
  have ranked : ¬(decide (g.rank ≤ i) && decide (0 < g.rank + i)) = true := by
    have wide : ¬g.rank ≤ i := by
      rw [Tensor.rank, gradient.shape]
      omega
    simp [wide]
  exact ⟨c, bind_eq_ok.mpr ⟨i, output.resolve resolved, throw_unless.mpr ⟨ranked,
    bind_eq_ok.mpr ⟨scaled, taken, made⟩⟩⟩, represents⟩

end Backward

end Operator

end ReverseMode
