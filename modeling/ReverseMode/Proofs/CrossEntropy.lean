import ReverseMode.Proofs.Picks
import ReverseMode.Proofs.ReductionDerivatives
import ReverseMode.Proofs.Shares
import ReverseMode.Proofs.ValueShapes

/-!
The cross entropy as a composition.

The cross entropy of logits is a linear expression of their log softmax: the logarithm of the share
of the label, weighted against the mean of the logarithms of all shares. The operator computes both
in one step, and its backward step subtracts the smoothed target from the shares at once. For real
numbers that is the composition: the value is the linear expression of what the log softmax returns,
and the amounts are those that the log softmax adds when it is given the gradient of the expression.
-/

namespace ReverseMode

open scoped Element

/-! ### The linear expression -/

section Expression

variable {n label k : Nat} {a : ℝ} {lp : Nat → ℝ}

/-- The cross entropy of `n` logarithms of shares against a label, smoothed by `a`. -/
noncomputable def smoothedEntropy (n : Nat) (a : ℝ) (label : Nat) (lp : Nat → ℝ) : ℝ :=
  -(1 - a) * lp label - a * ((∑ k ∈ Finset.range n, lp k) / n)

/-- The partial derivative of the cross entropy in the logarithm at place `k`. -/
noncomputable def entropySlope (n : Nat) (a : ℝ) (label k : Nat) : ℝ :=
  smoothedEntropy n a label (Pi.single k 1)

theorem entropySlope_eq (small : k < n) :
    entropySlope n a label k = -((1 - a) * (if k = label then 1 else 0) + a / n) := by
  have all : ∑ j ∈ Finset.range n, (Pi.single k 1 : Nat → ℝ) j = 1 := by
    rw [Finset.sum_pi_single', if_pos (Finset.mem_range.mpr small)]
  have here : (Pi.single k 1 : Nat → ℝ) label = if k = label then 1 else 0 := by
    simp only [Pi.single_apply, eq_comm]
  rw [entropySlope, smoothedEntropy, all, here]
  ring

/-- The expression is linear, with these partial derivatives. -/
theorem smoothedEntropy_eq_sum (listed : label < n) :
    smoothedEntropy n a label lp = ∑ k ∈ Finset.range n, lp k * entropySlope n a label k := by
  have each : ∀ k ∈ Finset.range n, lp k * entropySlope n a label k =
      -(1 - a) * (if k = label then lp k else 0) - a * (lp k / n) := by
    intro k mem
    rw [entropySlope_eq (Finset.mem_range.mp mem)]
    split <;> ring
  rw [Finset.sum_congr rfl each, Finset.sum_sub_distrib, ← Finset.mul_sum, ← Finset.mul_sum,
    Finset.sum_ite_eq', if_pos (Finset.mem_range.mpr listed), ← Finset.sum_div, smoothedEntropy]

theorem smoothedEntropy_congr {lp' : Nat → ℝ} (listed : label < n) (same : ∀ k < n, lp k = lp' k) :
    smoothedEntropy n a label lp = smoothedEntropy n a label lp' := by
  rw [smoothedEntropy_eq_sum listed, smoothedEntropy_eq_sum listed]
  exact Finset.sum_congr rfl fun k mem => by rw [same k (Finset.mem_range.mp mem)]

/-- The partial derivatives take away the whole. -/
theorem sum_entropySlope (listed : label < n) :
    ∑ k ∈ Finset.range n, entropySlope n a label k = -1 := by
  have count : (n : ℝ) ≠ 0 := Nat.cast_ne_zero.mpr (by omega)
  have one : smoothedEntropy n a label (fun _ => 1) = _ := smoothedEntropy_eq_sum listed
  simp only [one_mul] at one
  rw [← one, smoothedEntropy, Finset.sum_const, Finset.card_range, nsmul_eq_mul, mul_one, mul_one,
    div_self count]
  ring

end Expression

/-! ### Fibres -/

/-- The target that a share is compared with: one for the label, smoothed. -/
def Fibre.smoothedTarget {α : Type} [Element α] (smoothing : Float) (n label k : Nat) (x : α) : α :=
  labelWeight smoothing * Element.like x (Element.whole (if k = label then 1 else 0)) +
    Element.real smoothing / Element.whole n

namespace Element.Reading

variable {α : Type} [Element α] {type : StorageType} {ρ : Element.Reading α ℝ type}

namespace Lists

variable {n label : Nat} {x : Nat → ℝ} {xs : List α}

theorem mean (real : ρ.Analytic) (lists : ρ.Lists n x xs) (some : 0 < n) :
    ρ.carrier (Element.mean xs) ∧
      ρ.val (Element.mean xs) = (∑ k ∈ Finset.range n, x k) / n := by
  have count : (n : ℝ) ≠ 0 := Nat.cast_ne_zero.mpr some.ne'
  obtain ⟨carried, mean⟩ := mean_range real.toDivides some (IsUnit.mk0 _ count) lists.carried
  rw [← lists.eq_range] at carried mean
  refine ⟨carried, eq_div_of_mul_eq count (mean.trans (Finset.sum_congr rfl fun k mem => ?_))⟩
  exact lists.value k (Finset.mem_range.mp mem)

end Lists

/-- What the smoothing leaves for the label. -/
theorem labelWeight_read (real : ρ.Analytic) (smoothing : Float) :
    ρ.carrier (Fibre.labelWeight smoothing) ∧
      ρ.val (Fibre.labelWeight smoothing) = 1 - ρ.val (Element.real smoothing) := by
  obtain ⟨one, unit⟩ := real.whole 1
  obtain ⟨carried, difference⟩ := real.sub one (real.real smoothing)
  exact ⟨carried, difference.trans (by rw [unit, Nat.cast_one])⟩

namespace Lists

variable {n label : Nat} {x : Nat → ℝ} {xs : List α} {smoothing : Float}

theorem crossEntropy (real : ρ.Analytic) (lists : ρ.Lists n x xs) (listed : label < n) :
    ρ.carrier (Fibre.crossEntropy smoothing label xs) ∧
      ρ.val (Fibre.crossEntropy smoothing label xs) =
        smoothedEntropy n (ρ.val (Element.real smoothing)) label (logShare n x) := by
  have some : 0 < n := by omega
  have logs := lists.logSoftmax real some true
  obtain ⟨weight, share⟩ := labelWeight_read real smoothing
  obtain ⟨turned, opposite⟩ := real.neg weight
  obtain ⟨average, mean⟩ := logs.mean real some
  obtain ⟨first, picked⟩ := ρ.mul turned (logs.carried label listed)
  obtain ⟨second, spread⟩ := ρ.mul (real.real smoothing) average
  obtain ⟨carried, difference⟩ := real.sub first second
  refine ⟨carried, difference.trans ?_⟩
  rw [picked, spread, opposite, share, mean, logs.value label listed, smoothedEntropy]

/-- The smoothed target is what the partial derivatives take away. -/
theorem smoothedTarget (real : ρ.Analytic) (lists : ρ.Lists n x xs) (smoothing : Float)
    (label : Nat) {k : Nat} (small : k < n) :
    ρ.carrier (Fibre.smoothedTarget smoothing n label k (xs.getD k default)) ∧
      ρ.val (Fibre.smoothedTarget smoothing n label k (xs.getD k default)) =
        -entropySlope n (ρ.val (Element.real smoothing)) label k := by
  have count : (n : ℝ) ≠ 0 := Nat.cast_ne_zero.mpr (by omega)
  obtain ⟨weight, rest⟩ := labelWeight_read real smoothing
  obtain ⟨number, hit⟩ : ρ.carrier (Element.whole (if k = label then 1 else 0)) ∧
      ρ.val (Element.whole (if k = label then 1 else 0)) = if k = label then 1 else 0 := by
    split
    · simpa using real.whole 1
    · simpa using real.whole 0
  obtain ⟨like, same⟩ := ρ.like (lists.carried k small) number
  obtain ⟨first, product⟩ := ρ.mul weight like
  obtain ⟨length, extent⟩ := real.whole n
  obtain ⟨second, quotient⟩ := real.quotient (real.real smoothing) length (extent ▸ count)
  obtain ⟨carried, sum⟩ := ρ.add first second
  refine ⟨carried, sum.trans ?_⟩
  rw [product, quotient, rest, same, hit, extent, entropySlope_eq small, neg_neg]

/-- The shares less the smoothed target. -/
theorem crossEntropyGradient (real : ρ.Analytic) (lists : ρ.Lists n x xs) (listed : label < n) :
    ρ.Lists n (fun k => share n x k + entropySlope n (ρ.val (Element.real smoothing)) label k)
      (Fibre.crossEntropyGradient smoothing label xs) := by
  have some : 0 < n := by omega
  have logs := lists.logSoftmax real some true
  have opened : Fibre.crossEntropyGradient smoothing label xs = (List.range n).map fun k =>
      Element.exp ((Fibre.logSoftmax true xs).getD k default) -
        Fibre.smoothedTarget smoothing n label k (xs.getD k default) := by
    refine List.ext_getElem ?_ fun k bound bound' => ?_
    · simp [Fibre.crossEntropyGradient, lists.length, logs.length]
    · have small : k < n := by simpa using bound'
      have second : k < (Fibre.logSoftmax true xs).length := logs.length.symm ▸ small
      simp [Fibre.crossEntropyGradient, Fibre.smoothedTarget, small, second, lists.length]
  rw [opened]
  refine .range fun k small => ?_
  obtain ⟨exponential, value⟩ := real.exp (logs.carried k small)
  obtain ⟨target, taken⟩ := lists.smoothedTarget real smoothing label small
  obtain ⟨carried, difference⟩ := real.sub exponential target
  refine ⟨carried, difference.trans ?_⟩
  rw [value, logs.value k small, exp_logShare some, taken, sub_neg_eq_add]

end Lists

end Element.Reading

/-! ### Labels -/

namespace Tensor

theorem volume_column (batch : List Nat) : volume (batch ++ [1]) = volume batch := by
  simp [volume]

/-- An axis of extent one at the end does not move elements. -/
theorem offset_column {batch p : List Nat} (inside : p ∈ positions (batch ++ [1])) :
    p.take batch.length ∈ positions batch ∧
      offset (batch ++ [1]) p = offset batch (p.take batch.length) := by
  rw [mem_positions] at inside ⊢
  induction batch generalizing p with
  | nil =>
    obtain ⟨k, rest, small, none, rfl⟩ := List.forall₂_cons_right_iff.mp inside
    obtain rfl := List.forall₂_nil_right_iff.mp none
    obtain rfl : k = 0 := by omega
    exact ⟨.nil, rfl⟩
  | cons e batch ih =>
    obtain ⟨k, rest, small, others, rfl⟩ := List.forall₂_cons_right_iff.mp inside
    obtain ⟨placed, same⟩ := ih others
    refine ⟨.cons small placed, ?_⟩
    rw [List.cons_append, offset, volume_column, same]
    rfl

/-- Labels are laid out in one column, whichever of the two shapes they have. -/
theorem reshape_column {α : Type} [Element α] {labels : Tensor α} {batch : List Nat}
    (held : labels.shape = batch ∨ labels.shape = batch ++ [1]) :
    ∃ flat, labels.reshape (batch ++ [1]) = .ok flat ∧ flat.shape = batch ++ [1] ∧
      flat.toList = labels.toList ∧
      ∀ p ∈ positions (batch ++ [1]), flat.get p = labels.get (p.take labels.rank) := by
  have volumes : volume labels.shape = volume (batch ++ [1]) := by
    rcases held with held | held
    · rw [held, volume_column]
    · rw [held]
  refine ⟨⟨batch ++ [1], labels.data, labels.size_eq.trans volumes⟩, dif_pos volumes, rfl, rfl,
    fun p inside => ?_⟩
  have offsets : offset (batch ++ [1]) p = offset labels.shape (p.take labels.rank) := by
    rw [Tensor.rank]
    rcases held with held | held
    · rw [held]
      exact (offset_column inside).2
    · rw [held, ← (mem_positions_getD.mp inside).1, List.take_length]
  rw [Tensor.get, offsets, Tensor.get]

end Tensor

theorem Axis.last_resolve {rank : Nat} (ranked : 0 < rank) :
    last.resolve rank = .ok (rank - 1) := by
  have wrapped : wrap? (-1) rank = some (rank - 1) := by
    rw [wrap?, if_neg (by omega), if_pos (by omega)]
    exact congrArg some (by omega)
  rw [resolve, last, ofInt]
  simp only [wrapped]

namespace Operator

open Tensor Element.Reading

/-- Every label names a place among the classes. -/
theorem labelPlaces_named {α : Type} [Element α] {logits labels : Tensor α}
    (ranked : logits.shape ≠ [])
    (held : labels.shape = logits.shape.dropLast ∨ labels.shape = logits.shape.dropLast ++ [1])
    (points : ∀ x ∈ labels.toList, Element.Points (logits.extent (logits.rank - 1)) x) :
    ∃ places, labelPlaces logits labels = .ok places ∧
      ∀ p ∈ positions (logits.shape.dropLast ++ [1]),
        Axis.Names (logits.extent (logits.rank - 1))
          (Element.position (labels.get (p.take labels.rank))) (places.get p) := by
  obtain ⟨last, _⟩ := lastAxis_eq ranked
  obtain ⟨flat, reshaped, shape, listed, element⟩ := reshape_column held
  have points : ∀ x ∈ flat.toList, Element.Points (logits.extent (logits.rank - 1)) x :=
    listed.symm ▸ points
  refine ⟨flat.named (logits.extent (logits.rank - 1)), ?_, fun p inside => ?_⟩
  · refine bind_eq_ok.mpr ⟨_, last, bind_eq_ok.mpr ⟨flat, ?_, placeTensor_named points⟩⟩
    rw [Tensor.rank, set_last ranked]
    exact reshaped
  · have named := names_named points (shape.symm ▸ inside)
    rwa [element p inside] at named

/-- Where a cross entropy is inferred, the classes are on the last axis, one place of which is left,
and every label names one of them. -/
theorem crossEntropy_labels {α : Type} [Element α] {smoothing : Float} {sl sb s : Signature}
    {logits labels : Tensor α}
    (inferred : (crossEntropy smoothing : Operator α).infer [sl, sb] = .ok s)
    (ranked : logits.shape ≠ [])
    (shapes : logits.shape = sl.shape.extents ∧ labels.shape = sb.shape.extents)
    (points : ∀ x ∈ labels.toList, Element.Points (logits.extent (logits.rank - 1)) x) :
    ∃ i places, Axis.last.resolve logits.rank = .ok i ∧ i = logits.shape.length - 1 ∧
      s.shape.extents = logits.shape.set i 1 ∧ labelPlaces logits labels = .ok places ∧
      ∀ p ∈ positions (logits.shape.set i 1), Axis.Names (logits.extent i)
        (Element.position (labels.get (p.take labels.rank))) (places.get p) := by
  obtain ⟨first, second⟩ := shapes
  obtain ⟨_, given, inferred⟩ := bind_eq_ok.mp inferred
  cases given
  obtain ⟨held, extents⟩ := labelRule_eq_ok inferred
  rw [← first, ← second] at held
  rw [← first, ← set_last ranked] at extents
  obtain ⟨places, found, named⟩ := labelPlaces_named ranked held points
  rw [← set_last ranked] at named
  exact ⟨_, places, Axis.last_resolve (List.length_pos_iff.mpr ranked), rfl, extents, found, named⟩

variable {α : Type} [Element α] {type : StorageType} {ρ : Element.Reading α ℝ type}
variable {s : List Nat} {logits labels g : Tensor α} {places : Tensor Nat} {i : Nat}
variable {x : List Nat → Nat → ℝ} {b : List Nat → ℝ}

section Steps

variable (real : ρ.Analytic) (axial : i < s.length) (last : i = s.length - 1)
  (input : ρ.Represents s (fibrewise i x) logits) (found : labelPlaces logits labels = .ok places)
  (below : ∀ p ∈ positions (s.set i 1), places.get p < s.getD i 1) (smoothing : Float)

include real axial last input found below

theorem crossEntropy_forward :
    ∃ y, (crossEntropy smoothing).forward type (s.set i 1) [logits, labels] = .ok y ∧
      ρ.Represents (s.set i 1) (fun p => smoothedEntropy (s.getD i 1)
        (ρ.val (Element.real smoothing)) (places.get p) (logShare (s.getD i 1) (x p))) y := by
  have computed := Represents.leave (f := fun p => Fibre.crossEntropy smoothing (places.get p))
    input.shape axial fun p inside =>
      (input.fibre axial inside).crossEntropy real (below p inside)
  have there : logits.rank - 1 = i := by rw [Tensor.rank, input.shape, last]
  refine computed.stored rfl (bind_eq_ok.mpr ⟨(logits, labels), rfl, bind_eq_ok.mpr
    ⟨places, found, ?_⟩⟩)
  rw [there]
  rfl

theorem crossEntropy_gradient (gradient : ρ.Represents (s.set i 1) b g) :
    ∃ c, crossEntropyGradient smoothing logits labels g = .ok c ∧
      ρ.Represents s (fibrewise i fun p k => b p * (share (s.getD i 1) (x p) k +
        entropySlope (s.getD i 1) (ρ.val (Element.real smoothing)) (places.get p) k)) c := by
  have slopes := input.mapFibres
    (f := fun p => Fibre.crossEntropyGradient smoothing (places.get p)) axial
    fun p inside _ lists => lists.crossEntropyGradient real (below p inside)
  obtain ⟨c, made, represents⟩ := gradient.start_combine (· * ·) slopes axial ρ.mul
  have there : logits.rank - 1 = i := by rw [Tensor.rank, input.shape, last]
  refine ⟨c, bind_eq_ok.mpr ⟨places, found, ?_⟩, represents⟩
  rw [there]
  exact made

omit last found below in
/-- The gradient that the linear expression passes on can be laid out. -/
theorem slopes_passed (label : List Nat → Nat) (gradient : ρ.Represents (s.set i 1) b g) :
    ∃ h, ρ.Represents s (fibrewise i fun p k => b p *
      entropySlope (s.getD i 1) (ρ.val (Element.real smoothing)) (label p) k) h := by
  have slopes := input.mapFibres (f := fun p xs => (List.range (s.getD i 1)).map fun k =>
      -Fibre.smoothedTarget smoothing (s.getD i 1) (label p) k (xs.getD k default))
    (w := fun p => entropySlope (s.getD i 1) (ρ.val (Element.real smoothing)) (label p))
    axial fun p _ _ lists => .range fun k small => by
      obtain ⟨target, taken⟩ := lists.smoothedTarget real smoothing (label p) small
      obtain ⟨turned, opposite⟩ := real.neg target
      exact ⟨turned, opposite.trans (by rw [taken, neg_neg])⟩
  obtain ⟨h, _, represents⟩ := gradient.start_combine (· * ·) slopes axial ρ.mul
  exact ⟨h, represents⟩

end Steps

end Operator

/-! ### The composition -/

namespace Element.Reading

open Operator Tensor

variable {α : Type} [Element α] {type : StorageType}

/-- The gradient `h` of the log softmax that the linear expression passes on: at every place the
gradient of the fibre times the partial derivative there. -/
def PassedOn (ρ : Element.Reading α ℝ type) (smoothing : Float) (i : Nat)
    (label : List Nat → Nat) (logits g h : Tensor α) : Prop :=
  ρ.Represents logits.shape (fibrewise i fun p k => ρ.entry g p *
    entropySlope (logits.extent i) (ρ.val (Element.real smoothing)) (label p) k) h

/-- A cross entropy `y` is composed of the log softmax `lp` of the logits along the last axis `i`
and of a linear expression of that. -/
structure Composes (ρ : Element.Reading α ℝ type) (smoothing : Float) (extents : List Nat)
    (logits labels g : Tensor α) (i : Nat) (label : List Nat → Nat) (lp y : Tensor α) : Prop where
  last : Axis.last.resolve logits.rank = .ok i
  /-- The labels name places among the classes; they have the axes of the fibres, or one more. -/
  named : ∀ p ∈ positions extents, Axis.Names (logits.extent i)
    (Element.position (labels.get (p.take labels.rank))) (label p)
  logs : (logSoftmax .last).forward type logits.shape [logits] = .ok lp
  forward : (crossEntropy smoothing).forward type extents [logits, labels] = .ok y
  value : ρ.Represents extents (fun p => smoothedEntropy (logits.extent i)
    (ρ.val (Element.real smoothing)) (label p) fun k => ρ.entry lp (p.set i k)) y
  passes : ∃ h, ρ.PassedOn smoothing i label logits g h
  /-- Only the logits are given anything: what the log softmax adds to them. -/
  backward : ∃ c amount, (∀ out wanted,
      (crossEntropy smoothing).contributions [logits, labels] out g wanted = [(0, .ok c)]) ∧
    ρ.Adds c logits.shape amount ∧
    ∀ h, ρ.PassedOn smoothing i label logits g h → ∃ c',
      (∀ wanted, (logSoftmax .last).contributions [logits] lp h wanted = [(0, .ok c')]) ∧
      ρ.Adds c' logits.shape amount

end Element.Reading

namespace Operator

open Tensor Element.Reading

/-- The cross entropy agrees with its composition. -/
theorem crossEntropy_composes {α : Type} [Element α] {type : StorageType}
    {ρ : Element.Reading α ℝ type} (real : ρ.Analytic) {smoothing : Float} {sl sb s : Signature}
    {logits labels g : Tensor α}
    (inferred : (crossEntropy smoothing : Operator α).infer [sl, sb] = .ok s)
    (ranked : sl.shape.extents ≠ [])
    (shapes : logits.shape = sl.shape.extents ∧ labels.shape = sb.shape.extents ∧
      g.shape = s.shape.extents) (holds : ρ.Holds logits) (gradient : ρ.Holds g)
    (points : ∀ x ∈ labels.toList, Element.Points (logits.extent (logits.rank - 1)) x) :
    ∃ i label lp y,
      ρ.Composes smoothing s.shape.extents logits labels g i label lp y := by
  obtain ⟨first, second, third⟩ := shapes
  have positive : ∀ e ∈ logits.shape, 0 < e := first ▸ sl.shape.positive
  obtain ⟨i, places, resolved, last, extents, found, named⟩ :=
    crossEntropy_labels inferred (first ▸ ranked) ⟨first, second⟩ points
  have axial : i < logits.shape.length := Axis.resolve_lt resolved
  rw [extents] at third ⊢
  have below : ∀ p ∈ positions (logits.shape.set i 1), places.get p < logits.shape.getD i 1 :=
    fun p inside => (named p inside).1
  have input := holds.fibrewise rfl i
  have output : ρ.Represents (logits.shape.set i 1) (ρ.entry g) g :=
    ⟨third, gradient, fun _ _ => rfl⟩
  obtain ⟨lp, logged, logs⟩ := logSoftmax_forward real resolved positive input
  obtain ⟨y, ran, value⟩ :=
    crossEntropy_forward real axial last input found below smoothing
  obtain ⟨c, made, amounts⟩ :=
    crossEntropy_gradient real axial last input found below smoothing output
  refine ⟨i, places.get, lp, y, resolved, named, logged, ran, ?_, ?_, ?_⟩
  · refine value.congr fun p inside => smoothedEntropy_congr (below p inside) fun k small => ?_
    rw [logs.entry _ (place_mem inside small), fibrewise_set axial inside]
  · exact slopes_passed real axial input smoothing _ output
  · obtain ⟨dense, adds⟩ := amounts.adds positive made
    refine ⟨.dense c, _, fun out wanted => congrArg (fun c => [(0, c)]) dense, adds,
      fun h passed => ?_⟩
    obtain ⟨c', made', amounts'⟩ := logSoftmax_gradient resolved positive logs passed real
    obtain ⟨dense', adds'⟩ := amounts'.adds positive made'
    refine ⟨.dense c', fun wanted => congrArg (fun c => [(0, c)]) dense', adds'.congr ?_⟩
    intro q inside
    have start := start_mem (i := i) inside
    rw [fibrewise, fibrewise, exp_logShare (width_pos positive axial), ← Finset.mul_sum]
    have whole := sum_entropySlope (a := ρ.val (Element.real smoothing)) (below _ start)
    rw [Tensor.extent, whole]
    ring

end Operator

/-- An integer on an axis names a place as a real number. -/
theorem Element.points_intCast {extent : Nat} {n : Int} (on : OnAxis extent n) :
    Element.Points extent (n : ℝ) := by
  have whole : Element.position (n : ℝ) = n := Int.floor_intCast n
  refine ⟨if_pos ?_, whole.symm ▸ on⟩
  rw [Int.floor_intCast]

namespace Sample

open Operator

/-- Labels that count from the last class backwards. -/
noncomputable def backwards : Tensor ℝ :=
  .ofFn [2] fun pos => ((-(offset [2] pos : Int) - 1 : Int) : ℝ)

theorem backwards_points : ∀ x ∈ backwards.toList, Element.Points 3 x := by
  intro x mem
  obtain ⟨pos, inside, rfl⟩ := Tensor.mem_toList_ofFn.mp mem
  have small := offset_lt inside
  have on : OnAxis 3 (-(offset [2] pos : Int) - 1) := by
    change offset [2] pos < 2 at small
    exact ⟨by omega, by omega⟩
  exact Element.points_intCast on

/-- Two rows of logits against labels that count backwards. -/
theorem rows_composed :
    ((crossEntropy 0.25 : Operator ℝ).infer
      [⟨⟨[2, 3], by decide⟩, .float64⟩, ⟨⟨[2], by decide⟩, .int64⟩] =
        .ok ⟨⟨[2, 1], by decide⟩, .float64⟩) ∧
    (∀ x ∈ backwards.toList, Element.Points 3 x) ∧
    ∃ i label lp y, (Element.reals .float64).Composes 0.25 [2, 1] (enumerated [2, 3]) backwards
      (enumerated [2, 1]) i label lp y := by
  have inferred : (crossEntropy 0.25 : Operator ℝ).infer
      [⟨⟨[2, 3], by decide⟩, .float64⟩, ⟨⟨[2], by decide⟩, .int64⟩] =
        .ok ⟨⟨[2, 1], by decide⟩, .float64⟩ := rfl
  exact ⟨inferred, backwards_points, crossEntropy_composes (Element.reals_analytic .float64)
    inferred (by decide) ⟨rfl, rfl, rfl⟩ (Element.holds_reals _) (Element.holds_reals _)
    backwards_points⟩

end Sample

end ReverseMode
