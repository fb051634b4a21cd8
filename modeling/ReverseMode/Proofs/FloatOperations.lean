import Mathlib.Data.List.Basic
import ReverseMode.Proofs.FloatNumbers

/-!
What operators make of floats.

Every elementwise operator takes floats to a number, and so does every function of a fibre of floats
that is not empty. The number of elements of a fibre takes part in means, so it has to be held by a
double.
-/

namespace ReverseMode

open scoped Element
open Element (whole real)
open Scalar (Floating Amenable amenable_real amenable_zero amenable_one)

/-! ### Elementwise operators -/

theorem Unary.floating_value (f : Unary) {x : Scalar} (float : x.Floating) :
    (f.value x).Floating := by
  cases f with
  | neg => exact float.neg
  | addScalar c => exact float.add (amenable_real c)
  | mulScalar c => exact float.mul (amenable_real c)
  | sqrt eps => exact (float.add (amenable_real eps)).sqrt
  | square => exact float.mul float.amenable
  | abs => exact float.abs
  | exp => exact float.exp
  | log => exact float.log
  | sin => exact float.function Float.sin
  | cos => exact float.function Float.cos
  | tan => exact float.function Float.tan
  | sigmoid => exact float.logistic
  | swish beta => exact float.mul (float.mul_left (amenable_real beta)).logistic.amenable
  | relu => exact float.max amenable_zero
  | prelu alpha =>
    have scaled := float.mul_left (amenable_real alpha)
    unfold value
    dsimp only
    split
    · exact scaled.like float.refusal?
    · exact scaled
  | clip bound => exact float.clampTo bound

/-- A joint operator gives a number for as many floats as it takes. -/
theorem Joint.refusal?_value (f : Joint) {xs : List Scalar} (floats : ∀ x ∈ xs, x.Floating)
    (arity : ∀ n ∈ f.arity?, xs.length = n) : (f.value xs).refusal? = none := by
  have two {g : Joint} (takes : g.arity? = some 2) (arity : ∀ n ∈ g.arity?, xs.length = n) :
      ∃ a b, xs = [a, b] ∧ a.Floating ∧ b.Floating := by
    obtain ⟨a, b, rfl⟩ := List.length_eq_two.mp (arity 2 takes)
    exact ⟨a, b, rfl, floats a (by simp), floats b (by simp)⟩
  cases f with
  | tanh =>
    cases xs with
    | nil => rfl
    | cons x rest =>
      rw [List.forall_mem_cons] at floats
      have sum := Scalar.foldl_floating (fun first second => first.add second.amenable) floats.1
        floats.2
      exact (sum.function Float.tanh).refusal?
  | highway =>
    obtain ⟨y, x, t, rfl⟩ := List.length_eq_three.mp (arity 3 rfl)
    have gate := (floats t (by simp)).logistic
    have carried := (floats y (by simp)).mul_left gate.amenable
    have rest := (floats x (by simp)).mul_left (gate.sub_left amenable_one).amenable
    exact (carried.add rest.amenable).refusal?
  | compare r =>
    obtain ⟨a, b, rfl, _, _⟩ := two rfl arity
    rfl
  | _ =>
    obtain ⟨a, b, rfl, first, second⟩ := two rfl arity
    first
      | exact (first.add second.amenable).refusal?
      | exact (first.sub second.amenable).refusal?
      | exact (first.mul second.amenable).refusal?
      | exact (first.div second.amenable).refusal?
      | exact (first.max second.amenable).refusal?
      | exact (first.min second.amenable).refusal?
      | exact (Scalar.floating_logaddexp first.amenable second.amenable (.inl first)).refusal?

/-! ### Fibres -/

namespace Fibre

variable {xs : List Scalar} {dense : Bool}

theorem flatten_runs (dense : Bool) (xs : List Scalar) : (runs dense xs).flatten = xs := by
  cases dense with
  | true => simp [runs]
  | false => simp [runs, ← List.flatMap_def]

/-- The weight of a label is a literal. -/
theorem labelWeight_eq (smoothing : Float) :
    (labelWeight smoothing : Scalar) = .real (1.0 - smoothing) := by
  have reaches : (Scalar.whole 1).reaches .float64 = true := by decide +kernel
  have one : Number.ofInt 1 = 1.0 := by decide +kernel
  have made : (labelWeight smoothing : Scalar) =
      Scalar.subtraction.literal (.whole 1) (.real smoothing) := rfl
  rw [made, Scalar.Binary.literal, reaches, Scalar.reaches_real, ← one]
  · rfl
  · nofun

theorem amenable_labelWeight (smoothing : Float) : (-labelWeight smoothing : Scalar).Amenable := by
  rw [labelWeight_eq]
  exact amenable_real _

variable (some : xs ≠ []) (floats : ∀ x ∈ xs, x.Floating)

include some floats

theorem floating_total (dense : Bool) : (total dense xs).Floating := by
  obtain ⟨x, rest, rfl⟩ := List.exists_cons_of_ne_nil some
  have first := floats x (by simp)
  exact ⟨_, Scalar.type?_sum (flatten_runs dense _) fun y mem => (floats y mem).refusal?,
    Scalar.sumType_floating first.ownType⟩

omit floats in
/-- The sum of what a function makes of the elements. -/
theorem floating_total_map {f : Scalar → Scalar} (step : ∀ x ∈ xs, (f x).Floating) (dense : Bool) :
    (total dense (xs.map f)).Floating :=
  floating_total (by simpa using some) (List.forall_mem_map.mpr step) dense

theorem floating_largest : (largest xs).Floating := by
  obtain ⟨x, rest, rfl⟩ := List.exists_cons_of_ne_nil some
  rw [List.forall_mem_cons] at floats
  exact Scalar.foldl_floating (fun first second => first.max second.amenable) floats.1 floats.2

theorem floating_smallest : (smallest xs).Floating := by
  obtain ⟨x, rest, rfl⟩ := List.exists_cons_of_ne_nil some
  rw [List.forall_mem_cons] at floats
  exact Scalar.foldl_floating (fun first second => first.min second.amenable) floats.1 floats.2

/-- The elements less the largest one. -/
theorem floating_shifted : ∀ x ∈ xs, (x - largest xs).Floating := fun x mem =>
  (floats x mem).sub (floating_largest some floats).amenable

theorem floating_logSumExp (dense : Bool) : (logSumExp dense xs).Floating := by
  have exps := floating_total_map some
    (fun x mem => (floating_shifted some floats x mem).exp) dense
  exact (floating_largest some floats).add exps.log.amenable

theorem floating_softmax (dense : Bool) : ∀ x ∈ softmax dense xs, x.Floating := by
  have exps : ∀ x ∈ xs, (Element.exp (x - largest xs)).Floating := fun x mem =>
    (floating_shifted some floats x mem).exp
  refine List.forall_mem_map.mpr (List.forall_mem_map.mpr fun x mem => ?_)
  exact (exps x mem).div (floating_total_map some exps dense).amenable

theorem floating_logSoftmax (dense : Bool) : ∀ x ∈ logSoftmax dense xs, x.Floating := by
  have shifted := floating_shifted some floats
  have exps : (total dense ((xs.map fun x => x - largest xs).map Element.exp)).Floating :=
    floating_total_map (by simpa using some)
      (List.forall_mem_map.mpr fun x mem => (shifted x mem).exp) dense
  exact List.forall_mem_map.mpr (List.forall_mem_map.mpr fun x mem =>
    (shifted x mem).sub exps.log.amenable)

variable (counted : (whole xs.length : Scalar).Amenable)

include counted

theorem floating_variance (dense : Bool) : (variance dense xs).Floating := by
  have nonempty : (xs.map fun x => x / whole 1) ≠ [] := by simpa using some
  have quotients : ∀ y ∈ xs.map fun x => x / whole 1, y.Floating :=
    List.forall_mem_map.mpr fun x mem => (floats x mem).div amenable_one
  have mean := (floating_total nonempty quotients dense).div counted
  have squares := floating_total_map nonempty (fun y mem =>
    ((quotients y mem).sub mean.amenable).mul ((quotients y mem).sub mean.amenable).amenable) dense
  exact squares.div counted

/-- Every reduction of floats leaves one. -/
theorem floating_reduce (r : Reduction) (dense : Bool) : (reduce r dense xs).Floating := by
  cases r with
  | sum => exact floating_total some floats dense
  | mean => exact Scalar.floating_mean some floats counted
  | std => exact (floating_variance some floats counted dense).sqrt
  | var => exact floating_variance some floats counted dense
  | max => exact floating_largest some floats
  | min => exact floating_smallest some floats
  | prod => exact Scalar.floating_prod some floats
  | logSumExp => exact floating_logSumExp some floats dense

theorem floating_normalize (eps : Float) : ∀ x ∈ (normalize eps xs).1, x.Floating := by
  have mean := Scalar.floating_mean some floats counted
  have spread := ((floating_variance some floats counted true).add (amenable_real eps)).sqrt
  refine List.forall_mem_map.mpr (List.forall_mem_map.mpr fun x mem => ?_)
  exact ((floats x mem).sub mean.amenable).mul (spread.div_left (amenable_real 1.0)).amenable

/-- The cross entropy against a label among the classes. -/
theorem floating_crossEntropy (smoothing : Float) {label : Nat} (less : label < xs.length) :
    (crossEntropy smoothing label xs).Floating := by
  have logs := floating_logSoftmax some floats true
  have length : (logSoftmax true xs).length = xs.length := by simp [logSoftmax]
  have picked : ((logSoftmax true xs).getD label (whole 0)).Floating := by
    rw [List.getD_eq_getElem?_getD, List.getElem?_eq_getElem (by omega)]
    exact logs _ (List.getElem_mem _)
  have mean := Scalar.floating_mean (by simpa [logSoftmax] using some) logs (by rwa [length])
  exact (picked.mul_left (amenable_labelWeight _)).sub (mean.mul_left (amenable_real smoothing)).amenable

end Fibre

end ReverseMode
