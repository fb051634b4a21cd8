import ReverseMode.Proofs.CrossEntropy
import ReverseMode.Proofs.Normalization

/-!
Gradients of operators that a shift does not change.

Some operators only look at how the elements of a fibre differ, so that adding one number to all of
them changes nothing, or the number itself alone. What their backward steps add to a fibre sums to
zero. Each step recentres in a way of its own; the sums vanish because shares make up the whole, the
partial derivatives of the cross entropy take away the whole, and deviations add up to zero.
-/

namespace ReverseMode

open scoped Element

/-! ### Sums of fibres -/

section Sums

variable {n : Nat} {x h : Nat → ℝ}

/-- A gradient of shares, recentred by its mean under the shares. -/
theorem sum_softmax (some : 0 < n) : ∑ k ∈ Finset.range n, share n x k *
    (h k - ∑ j ∈ Finset.range n, h j * share n x j) = 0 := by
  have products : ∑ k ∈ Finset.range n, share n x k * h k =
      ∑ k ∈ Finset.range n, h k * share n x k :=
    Finset.sum_congr rfl fun k _ => mul_comm _ _
  simp only [mul_sub]
  rw [Finset.sum_sub_distrib, ← Finset.sum_mul, sum_share some, one_mul, products, sub_self]

/-- A gradient less its total, given back in shares. -/
theorem sum_logSoftmax (some : 0 < n) : ∑ k ∈ Finset.range n,
    (h k - Real.exp (logShare n x k) * ∑ j ∈ Finset.range n, h j) = 0 := by
  simp only [exp_logShare some]
  rw [Finset.sum_sub_distrib, ← Finset.sum_mul, sum_share some, one_mul, sub_self]

/-- Shares less a smoothed target. -/
theorem sum_crossEntropy {a : ℝ} {label : Nat} (listed : label < n) (b : ℝ) :
    ∑ k ∈ Finset.range n, b * (share n x k + entropySlope n a label k) = 0 := by
  rw [← Finset.mul_sum, Finset.sum_add_distrib, sum_share (by omega), sum_entropySlope listed,
    add_neg_cancel, mul_zero]

/-- Deviations times what is the same for all of them. -/
theorem sum_deviations (some : 0 < n) (b c : ℝ) :
    ∑ k ∈ Finset.range n, b * deviation n x k * c = 0 := by
  rw [← Finset.sum_mul, ← Finset.mul_sum, sum_deviation some, mul_zero, zero_mul]

/-- A gradient without its mean and its projection on deviations. -/
theorem sum_projected (some : 0 < n) (r c : ℝ) :
    ∑ k ∈ Finset.range n, r / n * (n * h k - ∑ j ∈ Finset.range n, h j -
      deviation n x k * c * ∑ j ∈ Finset.range n, h j * (deviation n x j * c)) = 0 := by
  have along : ∑ k ∈ Finset.range n, deviation n x k * c *
      ∑ j ∈ Finset.range n, h j * (deviation n x j * c) = 0 := by
    rw [← Finset.sum_mul, ← Finset.sum_mul, sum_deviation some, zero_mul, zero_mul]
  rw [← Finset.mul_sum, Finset.sum_sub_distrib, Finset.sum_sub_distrib, along, ← Finset.mul_sum,
    Finset.sum_const, Finset.card_range, nsmul_eq_mul, sub_self, sub_zero, mul_zero]

end Sums

namespace Element.Reading

open Operator Tensor

variable {α : Type} [Element α] {type : StorageType}

/-- The operators that only look at how elements along an axis differ, applied to arrays: labels
name classes, and what is added to a variance before the root is taken is positive. -/
inductive ShiftInvariant (ρ : Element.Reading α ℝ type) : Operator α → Axis → Tensor α →
    List (Tensor α) → Prop
  | softmax (axis : Axis) {a : Tensor α} : ρ.ShiftInvariant (softmax axis) axis a []
  | logSoftmax (axis : Axis) {a : Tensor α} : ρ.ShiftInvariant (logSoftmax axis) axis a []
  | variance (axis : Axis) {a : Tensor α} : ρ.ShiftInvariant (reduce .var axis) axis a []
  | deviation (axis : Axis) {a : Tensor α} : ρ.ShiftInvariant (reduce .std axis) axis a []
  | crossEntropy (smoothing : Float) {a labels : Tensor α} (ranked : a.shape ≠ [])
      (points : ∀ x ∈ labels.toList, Element.Points (a.extent (a.rank - 1)) x) :
      ρ.ShiftInvariant (crossEntropy smoothing) .last a [labels]
  | layerNorm (eps : Float) {a gamma : Tensor α} {rest : List (Tensor α)} (ranked : a.shape ≠ [])
      (above : 0 < ρ.val (Element.real eps)) (holds : ∀ t ∈ gamma :: rest, ρ.Holds t) :
      ρ.ShiftInvariant (layerNorm eps) .last a (gamma :: rest)

/-- A forward step answers with `y`, also where a number is taken out of every fibre of axis `i` of
the first input, and what the backward step then adds to the gradient of that input, where it is
wanted, sums to zero along every such fibre. -/
structure Cancels (ρ : Element.Reading α ℝ type) (op : Operator α) (extents : List Nat)
    (a : Tensor α) (rest : List (Tensor α)) (g y : Tensor α) (i : Nat) : Prop where
  forward : op.forward type extents (a :: rest) = .ok y
  unmoved : ∀ (c : List Nat → ℝ) (b : Tensor α),
    ρ.Represents a.shape (fibrewise i fun p k => ρ.entry a (p.set i k) - c p) b →
    ∃ z, op.forward type extents (b :: rest) = .ok z ∧ ρ.Represents extents (ρ.entry y) z
  backward : ∃ c amount,
    (∀ wanted, wanted[0]? = some true →
      (op.contributions (a :: rest) y g wanted).filter (fun e => e.1 = 0) = [(0, .ok c)]) ∧
    ρ.Adds c a.shape amount ∧
    ∀ p ∈ positions (a.shape.set i 1),
      ∑ k ∈ Finset.range (a.extent i), amount (p.set i k) = 0

variable {ρ : Element.Reading α ℝ type} {op : Operator α} {extents : List Nat} {i : Nat}
variable {a g y t : Tensor α} {rest : List (Tensor α)} {v : List Nat → Nat → ℝ}

/-- The gradient is an array that represents what sums to zero. -/
theorem Represents.cancels (represents : ρ.Represents a.shape (fibrewise i v) t)
    (positive : ∀ e ∈ a.shape, 0 < e) (axial : i < a.shape.length)
    (ran : op.forward type extents (a :: rest) = .ok y)
    (unmoved : ∀ (c : List Nat → ℝ) (b : Tensor α),
      ρ.Represents a.shape (fibrewise i fun p k => ρ.entry a (p.set i k) - c p) b →
      ∃ z, op.forward type extents (b :: rest) = .ok z ∧ ρ.Represents extents (ρ.entry y) z)
    {gradient : Except Fault (Tensor α)} (made : gradient = .ok t)
    (added : ∀ wanted, wanted[0]? = some true →
      (op.contributions (a :: rest) y g wanted).filter (fun e => e.1 = 0) =
        [(0, asDense gradient)])
    (zero : ∀ p ∈ positions (a.shape.set i 1),
      ∑ k ∈ Finset.range (a.shape.getD i 1), v p k = 0) :
    ρ.Cancels op extents a rest g y i := by
  obtain ⟨dense, adds⟩ := represents.adds positive made
  refine ⟨ran, unmoved, .dense t, _, fun wanted first => ?_, adds, fun p inside => ?_⟩
  · rw [added wanted first, dense]
  · rw [← zero p inside]
    exact Finset.sum_congr rfl fun k _ => fibrewise_set axial inside v k

end Element.Reading

/-! ### The operators -/

namespace Operator

open Tensor Element.Reading

variable {α : Type} [Element α] {type : StorageType} {ρ : Element.Reading α ℝ type}
variable {axis : Axis} {i : Nat} {a g labels gamma : Tensor α} {rest : List (Tensor α)}

/-- Where labels are found only depends on the extents of the logits. -/
theorem labelPlaces_shape {b : Tensor α} (same : b.shape = a.shape) :
    labelPlaces b labels = labelPlaces a labels := by
  have rank : b.rank = a.rank := congrArg List.length same
  have extent : b.extent = a.extent := funext fun k => congrArg (fun e => e.getD k 1) same
  rw [labelPlaces, labelPlaces, lastAxis, lastAxis, rank, extent, same]

section Cancel

variable (real : ρ.Analytic) (resolved : axis.resolve a.shape.length = .ok i)
  (positive : ∀ e ∈ a.shape, 0 < e) (holds : ρ.Holds a) (gradient : ρ.Holds g)

include real resolved positive holds gradient

theorem softmax_cancels (same : g.shape = a.shape) :
    ∃ y, ρ.Cancels (softmax axis) a.shape a [] g y i := by
  have axial := Axis.resolve_lt resolved
  obtain ⟨y, ran, output⟩ := softmax_forward real resolved positive (holds.fibrewise rfl i)
  obtain ⟨c, made, represents⟩ :=
    softmax_gradient resolved positive output (gradient.fibrewise same i) real.toArithmetic
  refine ⟨y, represents.cancels positive axial ran (fun c b shifted => ?_) made (fun _ _ => rfl)
    fun p _ => sum_softmax (width_pos positive axial)⟩
  obtain ⟨z, ran', output'⟩ := softmax_forward real resolved positive shifted
  refine ⟨z, ran', output.alike output' fun q inside => ?_⟩
  rw [fibrewise, fibrewise]
  exact share_sub _ _ _

theorem logSoftmax_cancels (same : g.shape = a.shape) :
    ∃ y, ρ.Cancels (logSoftmax axis) a.shape a [] g y i := by
  have axial := Axis.resolve_lt resolved
  obtain ⟨y, ran, output⟩ := logSoftmax_forward real resolved positive (holds.fibrewise rfl i)
  obtain ⟨c, made, represents⟩ :=
    logSoftmax_gradient resolved positive output (gradient.fibrewise same i) real
  refine ⟨y, represents.cancels positive axial ran (fun c b shifted => ?_) made (fun _ _ => rfl)
    fun p _ => sum_logSoftmax (width_pos positive axial)⟩
  obtain ⟨z, ran', output'⟩ := logSoftmax_forward real resolved positive shifted
  refine ⟨z, ran', output.alike output' fun q inside => ?_⟩
  rw [fibrewise, fibrewise]
  exact logShare_sub (width_pos positive axial) _ _ _

theorem variance_cancels (one : g.shape = a.shape.set i 1) :
    ∃ y, ρ.Cancels (reduce .var axis) (a.shape.set i 1) a [] g y i := by
  have axial := Axis.resolve_lt resolved
  have some := width_pos positive axial
  obtain ⟨y, ran, output⟩ := variance_forward real resolved positive (holds.fibrewise rfl i)
  obtain ⟨c, made, represents⟩ := variance_gradient real resolved positive (holds.fibrewise rfl i)
    ⟨one, gradient, fun _ _ => rfl⟩ y
  refine ⟨y, represents.cancels positive axial ran (fun c b shifted => ?_) made (fun _ _ => rfl)
    fun p _ => ?_⟩
  · obtain ⟨z, ran', output'⟩ := variance_forward real resolved positive shifted
    exact ⟨z, ran', output.alike output' fun p inside => spread_sub some _ _⟩
  · have zero := sum_deviations some (x := fun k => ρ.entry a (p.set i k)) (ρ.entry g p * 2)
      (a.shape.getD i 1 : ℝ)⁻¹
    simpa only [div_eq_mul_inv] using zero

theorem deviation_cancels (one : g.shape = a.shape.set i 1) :
    ∃ y, ρ.Cancels (reduce .std axis) (a.shape.set i 1) a [] g y i := by
  have axial := Axis.resolve_lt resolved
  obtain ⟨y, ran, output⟩ := deviation_forward real resolved positive (holds.fibrewise rfl i)
  obtain ⟨f, c, made, represents⟩ := deviation_gradient real resolved positive
    (holds.fibrewise rfl i) ⟨one, gradient, fun _ _ => rfl⟩ output.holds output.shape
  refine ⟨y, represents.cancels positive axial ran (fun c b shifted => ?_) made (fun _ _ => rfl)
    fun p _ => sum_deviations (width_pos positive axial) _ _⟩
  obtain ⟨z, ran', output'⟩ := deviation_forward real resolved positive shifted
  refine ⟨z, ran', output.alike output' fun p inside => congrArg Real.sqrt ?_⟩
  exact spread_sub (width_pos positive axial) _ _

end Cancel

section Last

variable (real : ρ.Analytic) (positive : ∀ e ∈ a.shape, 0 < e) (holds : ρ.Holds a)
  (gradient : ρ.Holds g) (axial : i < a.shape.length) (last : i = a.shape.length - 1)

include real positive holds gradient axial last

theorem crossEntropy_cancels {smoothing : Float} {places : Tensor Nat}
    (found : labelPlaces a labels = .ok places)
    (below : ∀ p ∈ positions (a.shape.set i 1), places.get p < a.shape.getD i 1)
    (one : g.shape = a.shape.set i 1) :
    ∃ y, ρ.Cancels (crossEntropy smoothing) (a.shape.set i 1) a [labels] g y i := by
  obtain ⟨y, ran, output⟩ :=
    crossEntropy_forward real axial last (holds.fibrewise rfl i) found below smoothing
  obtain ⟨c, made, represents⟩ := crossEntropy_gradient real axial last
    (holds.fibrewise rfl i) found below smoothing ⟨one, gradient, fun _ _ => rfl⟩
  refine ⟨y, represents.cancels positive axial ran (fun c b shifted => ?_) made (fun _ _ => rfl)
    fun p inside => sum_crossEntropy (below p inside) _⟩
  have found' : labelPlaces b labels = .ok places := by
    rw [labelPlaces_shape shifted.shape]
    exact found
  obtain ⟨z, ran', output'⟩ :=
    crossEntropy_forward real axial last shifted found' below smoothing
  refine ⟨z, ran', output.alike output' fun p inside => ?_⟩
  exact smoothedEntropy_congr (below p inside) fun k _ =>
    logShare_sub (width_pos positive axial) _ _ _

theorem layerNorm_cancels {eps : Float} (above : 0 < ρ.val (Element.real eps))
    (affine : ∀ t ∈ gamma :: rest, ρ.Holds t ∧ Fits t.shape a.shape) (same : g.shape = a.shape) :
    ∃ y, ρ.Cancels (layerNorm eps) a.shape a (gamma :: rest) g y i := by
  have some := width_pos positive axial
  obtain ⟨scale, shift⟩ := List.forall_mem_cons.mp affine
  obtain ⟨y, ran, output⟩ := layerNorm_forward real axial last positive
    (holds.fibrewise rfl i) above scale shift
  obtain ⟨scaled, multiplied, product⟩ :=
    (gradient.fibrewise same i).combine_fitting (· * ·) scale.1 scale.2 ρ.mul
  obtain ⟨c, made, represents⟩ := normalize_gradient real axial last positive
    (holds.fibrewise rfl i) above product
  have computed : (do normalizeGradient eps a (← g.combine (· * ·) gamma)) = .ok c :=
    bind_eq_ok.mpr ⟨scaled, multiplied, made⟩
  refine ⟨y, represents.cancels positive axial ran (fun c b shifted => ?_) computed
    (fun wanted first => ?_) fun p _ => ?_⟩
  · obtain ⟨z, ran', output'⟩ :=
      layerNorm_forward real axial last positive shifted above scale shift
    refine ⟨z, ran', output.alike output' fun q inside => ?_⟩
    simp only [fibrewise, normalizedAt, deviation_sub some, spread_sub some]
  · cases rest <;> simp [contributions, layerNormContributions, ifWanted, first]
  · exact sum_projected some _ _

end Last

omit [Element α] in
/-- A softmax leaves the extents of its input, which has the axis. -/
theorem softmax_extents {signatures : List Signature} {s : Signature}
    (inferred : (softmax axis : Operator α).infer signatures = .ok s) :
    signatures = [s] ∧ ∃ i, axis.resolve s.shape.rank = .ok i := by
  obtain ⟨sa, given, inferred⟩ := bind_eq_ok.mp inferred
  obtain ⟨_, _, inferred⟩ := bind_eq_ok.mp inferred
  obtain ⟨i, resolved, inferred⟩ := bind_eq_ok.mp inferred
  cases pure_eq_ok.mp inferred
  exact ⟨only_eq_ok given, i, resolved⟩

omit [Element α] in
/-- A layer normalization leaves the extents of its first input, which all others fit. -/
theorem layerNorm_extents {eps : Float} {sa s : Signature} {signatures : List Signature}
    (inferred : (layerNorm eps : Operator α).infer (sa :: signatures) = .ok s)
    (first : a.shape = sa.shape.extents)
    (later : List.Forall₂ (fun t σ => t.shape = σ.shape.extents) rest signatures) :
    s.shape.extents = a.shape ∧ ∀ t ∈ rest, Fits t.shape a.shape := by
  obtain ⟨_, _, given, same, joined⟩ := layerNormRule_eq_ok inferred
  cases given
  have extents : rest.map Tensor.shape = signatures.map fun σ => σ.shape.extents := by
    rw [← List.forall₂_eq_eq_eq, List.forall₂_map_left_iff, List.forall₂_map_right_iff]
    exact later
  rw [List.map_cons, ← first, ← extents] at joined
  exact ⟨by rw [same, first], fun t mem =>
    .of_broadcast joined (.tail _ (List.mem_map_of_mem mem))⟩

/-- What is added for an operator that a shift does not change sums to zero along every fibre. -/
theorem shift_gradients_cancel {α : Type} [Element α] {type : StorageType}
    {ρ : Element.Reading α ℝ type} (real : ρ.Analytic) {op : Operator α} {axis : Axis}
    {signatures : List Signature} {s : Signature} {a g : Tensor α} {rest : List (Tensor α)}
    (invariant : ρ.ShiftInvariant op axis a rest) (inferred : op.infer signatures = .ok s)
    (shapes : List.Forall₂ (fun t σ => t.shape = σ.shape.extents) (a :: rest) signatures)
    (same : g.shape = s.shape.extents) (holds : ρ.Holds a) (gradient : ρ.Holds g) :
    ∃ i y, axis.resolve a.rank = .ok i ∧ ρ.Cancels op s.shape.extents a rest g y i := by
  obtain ⟨sa, others, first, later, rfl⟩ := List.forall₂_cons_left_iff.mp shapes
  have positive : ∀ e ∈ a.shape, 0 < e := first ▸ sa.shape.positive
  cases invariant with
  | softmax =>
    obtain ⟨given, i, resolved⟩ := softmax_extents inferred
    cases given
    rw [← first] at same ⊢
    rw [Shape.rank, ← first] at resolved
    obtain ⟨y, cancels⟩ := softmax_cancels real resolved positive holds gradient same
    exact ⟨i, y, resolved, cancels⟩
  | logSoftmax =>
    obtain ⟨given, i, resolved⟩ := softmax_extents (α := α) inferred
    cases given
    rw [← first] at same ⊢
    rw [Shape.rank, ← first] at resolved
    obtain ⟨y, cancels⟩ := logSoftmax_cancels real resolved positive holds gradient same
    exact ⟨i, y, resolved, cancels⟩
  | variance =>
    obtain rfl := List.forall₂_nil_left_iff.mp later
    obtain ⟨i, resolved, _, _, extents, one⟩ := reduce_extents inferred ⟨first, same⟩
    rw [extents]
    obtain ⟨y, cancels⟩ := variance_cancels real resolved positive holds gradient one
    exact ⟨i, y, resolved, cancels⟩
  | deviation =>
    obtain rfl := List.forall₂_nil_left_iff.mp later
    obtain ⟨i, resolved, _, _, extents, one⟩ := reduce_extents inferred ⟨first, same⟩
    rw [extents]
    obtain ⟨y, cancels⟩ := deviation_cancels real resolved positive holds gradient one
    exact ⟨i, y, resolved, cancels⟩
  | crossEntropy smoothing ranked points =>
    obtain ⟨sb, none, second, empty, rfl⟩ := List.forall₂_cons_left_iff.mp later
    obtain rfl := List.forall₂_nil_left_iff.mp empty
    obtain ⟨i, places, resolved, last, extents, found, named⟩ :=
      crossEntropy_labels inferred ranked ⟨first, second⟩ points
    rw [extents] at same ⊢
    obtain ⟨y, cancels⟩ := crossEntropy_cancels real positive holds gradient
      (Axis.resolve_lt resolved) last found (fun p inside => (named p inside).1) same
    exact ⟨i, y, resolved, cancels⟩
  | layerNorm eps ranked above read =>
    obtain ⟨extents, fits⟩ := layerNorm_extents inferred first later
    rw [extents] at same ⊢
    have some : 0 < a.shape.length := List.length_pos_iff.mpr ranked
    obtain ⟨y, cancels⟩ := layerNorm_cancels real positive holds gradient (by omega) rfl above
      (fun t mem => ⟨read t mem, fits t mem⟩) same
    exact ⟨_, y, Axis.last_resolve some, cancels⟩

end Operator

namespace Sample

open Operator

/-- Rows are normalized with a scale that all of them share, and the deviations of rows without
spread are taken. -/
theorem rows_cancel :
    (∃ i y, Axis.last.resolve 2 = .ok i ∧
      (Element.reals .float64).Cancels (layerNorm 1.0) [2, 3] (enumerated [2, 3])
        [enumerated [3]] (enumerated [2, 3]) y i) ∧
    (∃ i y, Axis.last.resolve 2 = .ok i ∧
      (Element.reals .float64).Cancels (reduce .std .last) [2, 1] (.full [2, 3] 1) []
        (enumerated [2, 1]) y i) := by
  let grid : Signature := ⟨⟨[2, 3], by decide⟩, .float64⟩
  let scale : Signature := ⟨⟨[3], by decide⟩, .float64⟩
  let column : Signature := ⟨⟨[2, 1], by decide⟩, .float64⟩
  have real := Element.reals_analytic .float64
  have normal : (layerNorm 1.0 : Operator ℝ).infer [grid, scale] = .ok grid := rfl
  have spread : (reduce .std .last : Operator ℝ).infer [grid] = .ok column := rfl
  have above : 0 < (Element.reals .float64).val (Element.real 1.0) := by
    rw [real.one]
    exact one_pos
  have ranked : (enumerated [2, 3]).shape ≠ [] := List.cons_ne_nil _ _
  constructor
  · exact shift_gradients_cancel real (g := enumerated [2, 3])
      (.layerNorm 1.0 ranked above fun t _ => Element.holds_reals t) normal
      (.cons rfl (.cons rfl .nil)) rfl (Element.holds_reals _) (Element.holds_reals _)
  · exact shift_gradients_cancel real (a := .full [2, 3] 1) (g := enumerated [2, 1])
      (.deviation .last) spread (.cons rfl .nil) rfl (Element.holds_reals _)
      (Element.holds_reals _)

end Sample

end ReverseMode
