import ReverseMode.Operator.Value
import ReverseMode.Proofs.Counts
import ReverseMode.Proofs.FloatOperations
import ReverseMode.Proofs.Matrices
import ReverseMode.Proofs.Places
import ReverseMode.Proofs.Rules

/-!
Values that operators compute from arrays of floats.

Every operator answers with an array of known extents that holds no refusal, as long as axes and
extents fit, indices name places and fibres are short enough to be counted. What fits is said here
of the arrays alone; the rules of the operators see to it.
-/

namespace ReverseMode

open scoped Element Scalar
open Scalar (Amenable amenable_zero)

namespace Tensor

/-- An array of floats, every extent of which is at least one. -/
structure Floats (t : Tensor Scalar) : Prop where
  floating : ∀ x ∈ t.toList, x.Floating
  positive : ∀ e ∈ t.shape, 0 < e

variable {a b : Tensor Scalar} {axis : Nat} {pos : List Nat}

theorem Floats.proper (floats : a.Floats) : a.Proper := fun x mem =>
  (floats.floating x mem).refusal?

theorem proper_map {β : Type} {t : Tensor β} {f : β → Scalar}
    (values : ∀ x ∈ t.toList, (f x).refusal? = none) : (t.map f).Proper := by
  unfold Proper
  rw [toList_map]
  exact List.forall_mem_map.mpr values

/-- Wherever a proper array is read, there is no refusal. -/
theorem Proper.ofFn_get (proper : a.Proper) (shape : List Nat) (source : List Nat → List Nat) :
    (ofFn shape fun pos => a.get (source pos)).Proper := by
  intro x mem
  obtain ⟨pos, _, rfl⟩ := mem_toList_ofFn.mp mem
  exact proper.get rfl _

theorem agreeOutside_iff {s t : List Nat} :
    agreeOutside axis s t = true ↔ s.length = t.length ∧ s.set axis 1 = t.set axis 1 := by
  simp [agreeOutside]

/-! ### Fibres -/

theorem extent_eq (axial : axis < a.rank) : a.extent axis = a.shape[axis] := by
  simp [extent, List.getD_eq_getElem?_getD, List.getElem?_eq_getElem axial]

theorem Floats.extent_pos (floats : a.Floats) (axial : axis < a.rank) : 0 < a.extent axis := by
  rw [extent_eq axial]
  exact floats.positive _ (List.getElem_mem _)

theorem volume_pos {extents : List Nat} (positive : ∀ e ∈ extents, 0 < e) : 0 < volume extents := by
  induction extents with
  | nil => exact Nat.one_pos
  | cons d rest ih =>
    obtain ⟨here, later⟩ := List.forall_mem_cons.mp positive
    exact Nat.mul_pos here (ih later)

theorem le_volume {extents : List Nat} (positive : ∀ e ∈ extents, 0 < e) {e : Nat}
    (mem : e ∈ extents) : e ≤ volume extents := by
  induction extents with
  | nil => cases mem
  | cons d rest ih =>
    obtain ⟨here, later⟩ := List.forall_mem_cons.mp positive
    change e ≤ d * volume rest
    rcases List.mem_cons.mp mem with rfl | mem
    · exact Nat.le_mul_of_pos_right _ (volume_pos later)
    · exact Nat.le_trans (ih later mem) (Nat.le_mul_of_pos_left _ here)

/-- An axis has no more places than the array has elements. -/
theorem Floats.extent_le_size (floats : a.Floats) (axial : axis < a.rank) :
    a.extent axis ≤ a.size := by
  rw [extent_eq axial, size, a.size_eq]
  exact le_volume floats.positive (List.getElem_mem _)

theorem Floats.fibre_ne_nil (floats : a.Floats) (axial : axis < a.rank) :
    a.fibre axis pos ≠ [] := by
  have := floats.extent_pos axial
  rw [← List.length_pos_iff, length_fibre]
  exact this

theorem Floats.fibre (floats : a.Floats) (inside : pos ∈ positions (a.shape.set axis 1)) :
    ∀ x ∈ a.fibre axis pos, x.Floating := fun x mem =>
  floats.floating x (mem_fibre inside mem)

/-- What is left of every fibre is no refusal, if it is none for lists of floats. -/
theorem Floats.reduceAxis (floats : a.Floats) (axial : axis < a.rank) {f : List Scalar → Scalar}
    (values : ∀ xs : List Scalar, xs ≠ [] → (∀ x ∈ xs, x.Floating) → xs.length = a.extent axis →
      (f xs).refusal? = none) : (a.reduceAxis axis f).Proper := by
  intro x mem
  obtain ⟨pos, inside, rfl⟩ := mem_toList_ofFn.mp mem
  exact values _ (floats.fibre_ne_nil axial) (floats.fibre inside) length_fibre

/-- What fibres are replaced by is amenable, if it is so for lists of floats. -/
theorem Floats.mapFibres (floats : a.Floats) (axial : axis < a.rank)
    {f : List Scalar → List Scalar}
    (values : ∀ xs : List Scalar, xs ≠ [] → (∀ x ∈ xs, x.Floating) → xs.length = a.extent axis →
      ∀ y ∈ f xs, y.Floating) :
    (a.mapFibres axis f).shape = a.shape ∧ ∀ y ∈ (a.mapFibres axis f).toList, y.Amenable := by
  refine ⟨set_getD a.shape axis 1, all_mapAxisAt (fun pos inside y mem => ?_) amenable_zero⟩
  exact (values _ (floats.fibre_ne_nil axial) (floats.fibre inside) length_fibre y mem).amenable

end Tensor

/-! ### Computations that answer -/

/-- A computation answers with an array of some extents, without refusals. -/
def Produces (made : Except Fault (Tensor Scalar)) (extents : List Nat) : Prop :=
  ∃ t, made = .ok t ∧ t.shape = extents ∧ t.Proper

namespace Operator

open Tensor (Floats Proper)

variable {a b : Tensor Scalar} {inputs : List (Tensor Scalar)} {axis : Axis} {i rank : Nat}
  {r : List Nat}

/-! ### Elementwise operators -/

theorem unary_produces (f : Unary) (floats : a.Floats) :
    Produces ((unary f).value rank [a]) a.shape :=
  ⟨a.map f.value, rfl, rfl, Tensor.proper_map fun x mem =>
    (f.floating_value (floats.floating x mem)).refusal?⟩

theorem cast_produces (type : ElementType) (proper : a.Proper) :
    Produces ((cast type).value rank [a]) a.shape :=
  ⟨a, rfl, rfl, proper⟩

/-- How many inputs a joint operator takes. -/
def jointTakes (f : Joint) (count : Nat) : Prop :=
  match f.arity? with
  | some n => count = n
  | none => 0 < count

theorem joint_produces (f : Joint) (takes : jointTakes f inputs.length)
    (floats : ∀ t ∈ inputs, t.Floats) (joined : broadcast? (inputs.map Tensor.shape) = some r) :
    Produces ((joint f).value rank inputs) r := by
  let made : Tensor Scalar := .ofFn r fun pos => f.value (inputs.map fun t => t.read pos)
  have combined : Tensor.combineAll f.value inputs = .ok made := by
    unfold Tensor.combineAll
    rw [joined]
  refine ⟨made, ?_, rfl, fun x mem => ?_⟩
  · unfold jointTakes at takes
    unfold value
    dsimp only
    cases arity : f.arity? with
    | some n =>
      rw [arity] at takes
      exact throw_unless.mpr ⟨not_not.mpr takes, combined⟩
    | none =>
      rw [arity] at takes
      refine throw_unless.mpr ⟨?_, combined⟩
      rw [List.isEmpty_iff, ← ne_eq, ← List.length_pos_iff]
      exact takes
  · obtain ⟨pos, inside, rfl⟩ := Tensor.mem_toList_ofFn.mp mem
    refine f.refusal?_value (List.forall_mem_map.mpr fun t mem => ?_) fun n arity => ?_
    · exact (floats t mem).floating _ (Tensor.read_mem joined (List.mem_map_of_mem mem) inside)
    · rw [List.length_map]
      unfold jointTakes at takes
      rwa [arity] at takes

/-! ### Fibres -/

theorem reduce_produces (red : Reduction) (floats : a.Floats)
    (resolved : axis.resolve a.rank = .ok i)
    (short : a.extent i < 2 ^ 64) :
    Produces ((reduce red axis).value rank [a]) (a.shape.set i 1) := by
  refine ⟨a.reduceAxis i (Fibre.reduce red (Tensor.dense a.shape i)), ?_, rfl, ?_⟩
  · exact bind_eq_ok.mpr ⟨a, rfl, bind_eq_ok.mpr ⟨i, resolved, rfl⟩⟩
  · exact floats.reduceAxis (Axis.resolve_lt resolved) fun xs some floating length =>
      (Fibre.floating_reduce some floating (length ▸ Number.amenable_count short) red _).refusal?

/-- Every fibre along an axis replaced by as many floats. -/
theorem mapFibres_produces {f : Nat → List Scalar → List Scalar} (floats : a.Floats)
    (resolved : axis.resolve a.rank = .ok i)
    (values : ∀ xs : List Scalar, xs ≠ [] → (∀ x ∈ xs, x.Floating) → ∀ y ∈ f i xs, y.Floating) :
    Produces (do let i ← axis.resolve a.rank; pure (a.mapFibres i (f i))) a.shape := by
  obtain ⟨shape, amenable⟩ := floats.mapFibres (Axis.resolve_lt resolved)
    fun xs some floating _ => values xs some floating
  exact ⟨_, bind_eq_ok.mpr ⟨i, resolved, rfl⟩, shape, fun y mem => (amenable y mem).refusal?⟩

theorem softmax_produces (floats : a.Floats) (resolved : axis.resolve a.rank = .ok i) :
    Produces ((softmax axis).value rank [a]) a.shape :=
  mapFibres_produces (f := fun i => Fibre.softmax (Tensor.dense a.shape i)) floats resolved
    fun _ some floating => Fibre.floating_softmax some floating _

theorem logSoftmax_produces (floats : a.Floats) (resolved : axis.resolve a.rank = .ok i) :
    Produces ((logSoftmax axis).value rank [a]) a.shape :=
  mapFibres_produces (f := fun i => Fibre.logSoftmax (Tensor.dense a.shape i)) floats resolved
    fun _ some floating => Fibre.floating_logSoftmax some floating _

/-- Two arrays whose extents combine are combined in these. -/
theorem combine_total {f : Scalar → Scalar → Scalar}
    (joined : broadcast? [a.shape, b.shape] = some r) :
    ∃ c, a.combine f b = .ok c ∧ c.shape = r := by
  unfold Tensor.combine
  rw [joined]
  exact ⟨_, rfl, rfl⟩

theorem scalarProduct_produces (first : a.Floats) (second : b.Floats)
    (joined : broadcast? [a.shape, b.shape] = some r) (positive : ∀ e ∈ r, 0 < e)
    (resolved : axis.resolve r.length = .ok i) :
    Produces ((scalarProduct axis).value rank [a, b]) (r.set i 1) := by
  obtain ⟨c, combined, rfl⟩ := combine_total (f := (· * ·)) joined
  have products : c.Floats := by
    refine ⟨fun z mem => ?_, positive⟩
    obtain ⟨x, left, y, right, rfl⟩ := (Tensor.combine_eq_ok combined).2 z mem
    exact (first.floating x left).mul (second.floating y right).amenable
  refine ⟨c.reduceAxis i (Fibre.total (Tensor.dense c.shape i)), ?_, rfl, ?_⟩
  · exact bind_eq_ok.mpr ⟨(a, b), rfl, bind_eq_ok.mpr ⟨c, combined,
      bind_eq_ok.mpr ⟨i, resolved, rfl⟩⟩⟩
  · exact products.reduceAxis (Axis.resolve_lt resolved) fun xs some floating _ =>
      (Fibre.floating_total some floating _).refusal?

/-- The last axis of an array that has one. -/
theorem lastAxis_eq {α : Type} [Element α] {a : Tensor α} (ranked : a.shape ≠ []) :
    lastAxis a = .ok (a.rank - 1) ∧ a.rank - 1 < a.rank := by
  have positive : 0 < a.rank := List.length_pos_iff.mpr ranked
  refine ⟨?_, by omega⟩
  unfold lastAxis
  rw [if_neg (by omega)]

/-- Scale and shift leave the extents of the first input. -/
theorem layerNorm_produces (eps : Float) {gamma : Tensor Scalar} {rest : List (Tensor Scalar)}
    (floats : a.Floats) (others : ∀ t ∈ gamma :: rest, t.Floats) (ranked : a.shape ≠ [])
    (absorbed : ∀ t ∈ gamma :: rest, broadcast? [a.shape, t.shape] = some a.shape)
    (short : a.extent (a.rank - 1) < 2 ^ 64) :
    Produces ((layerNorm eps).value rank (a :: gamma :: rest)) a.shape := by
  obtain ⟨last, axial⟩ := lastAxis_eq ranked
  obtain ⟨shape, amenable⟩ := floats.mapFibres axial fun xs some floating length =>
    Fibre.floating_normalize some floating (length ▸ Number.amenable_count short) eps
  obtain ⟨scaled, product, extents⟩ := combine_total (f := (· * ·))
    (shape.symm ▸ absorbed gamma (by simp))
  have scaling : ∀ z ∈ scaled.toList, z.Floating := by
    intro z mem
    obtain ⟨x, left, y, right, rfl⟩ := (Tensor.combine_eq_ok product).2 z mem
    exact ((others gamma (by simp)).floating y right).mul_left (amenable x left)
  have opened {t : Tensor Scalar} (made : (match rest with
      | [] => .ok scaled
      | beta :: _ => scaled.combine (· + ·) beta : Except Fault (Tensor Scalar)) = .ok t) :
      (layerNorm eps).value rank (a :: gamma :: rest) = .ok t := by
    refine bind_eq_ok.mpr ⟨a, rfl, bind_eq_ok.mpr ⟨_, last, ?_⟩⟩
    cases rest with
    | nil => exact product.trans made
    | cons beta more => exact bind_eq_ok.mpr ⟨scaled, product, made⟩
  cases rest with
  | nil =>
    exact ⟨scaled, opened rfl, extents.trans shape, fun z mem => (scaling z mem).refusal?⟩
  | cons beta more =>
    obtain ⟨moved, sum, extents'⟩ := combine_total (f := (· + ·))
      ((extents.trans shape).symm ▸ absorbed beta (by simp))
    refine ⟨moved, opened sum, extents'.trans (extents.trans shape), fun z mem => ?_⟩
    obtain ⟨x, left, y, right, rfl⟩ := (Tensor.combine_eq_ok sum).2 z mem
    exact ((scaling x left).add ((others beta (by simp)).floating y right).amenable).refusal?

theorem set_last {extents : List Nat} (some : extents ≠ []) (e : Nat) :
    extents.set (extents.length - 1) e = extents.dropLast ++ [e] := by
  obtain ⟨front, last, rfl⟩ := (List.eq_nil_or_concat extents).resolve_left some
  simp

/-- Labels, one for every fibre of the logits along the last axis. -/
theorem labelPlaces_total {logits labels : Tensor Scalar} (ranked : logits.shape ≠ [])
    (held : labels.shape = logits.shape.dropLast ∨ labels.shape = logits.shape.dropLast ++ [1])
    (names : ∀ x ∈ labels.toList, x.Names (logits.extent (logits.rank - 1)))
    (short : logits.extent (logits.rank - 1) < 2 ^ 63) :
    ∃ places, labelPlaces logits labels = .ok places ∧
      places.shape = logits.shape.set (logits.rank - 1) 1 ∧
      ∀ p ∈ places.toList, p < logits.extent (logits.rank - 1) := by
  obtain ⟨last, _⟩ := lastAxis_eq ranked
  have volumes : volume labels.shape = volume (logits.shape.set (logits.rank - 1) 1) := by
    rw [Tensor.rank, set_last ranked]
    rcases held with held | held <;> rw [held]
    simp [volume]
  obtain ⟨flat, reshaped⟩ :
      ∃ flat, labels.reshape (logits.shape.set (logits.rank - 1) 1) = .ok flat := by
    unfold Tensor.reshape
    rw [dif_pos volumes]
    exact ⟨_, rfl⟩
  obtain ⟨same, extents⟩ := Tensor.toList_reshape reshaped
  obtain ⟨places, found, shape, less⟩ := Tensor.placeTensor_total (same ▸ names) short
  refine ⟨places, ?_, shape.trans extents, less⟩
  exact bind_eq_ok.mpr ⟨_, last, bind_eq_ok.mpr ⟨flat, reshaped, found⟩⟩

theorem crossEntropy_produces (smoothing : Float) {logits labels : Tensor Scalar}
    (floats : logits.Floats) (ranked : logits.shape ≠ [])
    (held : labels.shape = logits.shape.dropLast ∨ labels.shape = logits.shape.dropLast ++ [1])
    (names : ∀ x ∈ labels.toList, x.Names (logits.extent (logits.rank - 1)))
    (short : logits.extent (logits.rank - 1) < 2 ^ 63) :
    Produces ((crossEntropy smoothing).value rank [logits, labels])
      (logits.shape.set (logits.rank - 1) 1) := by
  obtain ⟨_, axial⟩ := lastAxis_eq ranked
  obtain ⟨places, found, shape, less⟩ := labelPlaces_total ranked held names short
  refine ⟨logits.mapAxisAt (logits.rank - 1) 1 fun pos xs =>
    [Fibre.crossEntropy smoothing (places.get pos) xs], ?_, rfl, ?_⟩
  · exact bind_eq_ok.mpr ⟨(logits, labels), rfl, bind_eq_ok.mpr ⟨places, found, rfl⟩⟩
  · refine Tensor.all_mapAxisAt (P := fun x => Element.refusal? x = none)
      (fun pos inside => List.forall_mem_singleton.mpr ?_) rfl
    refine (Fibre.floating_crossEntropy (floats.fibre_ne_nil axial) (floats.fibre inside) ?_
      smoothing ?_).refusal?
    · rw [Tensor.length_fibre]
      exact Number.amenable_count (by omega)
    · rw [Tensor.length_fibre]
      exact less _ (Tensor.get_mem (shape ▸ inside))

/-! ### Elements that move -/

theorem topK_produces {k : Int} (descending indices : Bool) (floats : a.Floats)
    (resolved : axis.resolve a.rank = .ok i) (enough : k ≤ a.extent i) :
    Produces ((topK k axis descending indices).value rank [a]) (a.shape.set i k.toNat) := by
  have keys : (a.map (Fibre.rankingKey descending)).Proper := by
    refine Tensor.proper_map fun x mem => ?_
    cases descending with
    | true => exact (floats.floating x mem).neg.refusal?
    | false => exact (floats.floating x mem).refusal?
  let places := a.mapAxis i k.toNat (Fibre.topPlaces k.toNat descending)
  have found : topPlaces k axis descending a = .ok places := by
    refine bind_eq_ok.mpr ⟨i, resolved, bind_eq_ok.mpr ⟨_, Tensor.sound_eq_ok.mpr ⟨rfl, keys⟩, ?_⟩⟩
    exact throw_unless.mpr ⟨by omega, rfl⟩
  refine ⟨topKValue.ofPlaces indices a i places, ?_, ?_, ?_⟩
  · exact bind_eq_ok.mpr ⟨a, rfl, bind_eq_ok.mpr ⟨i, resolved, bind_eq_ok.mpr ⟨places, found, rfl⟩⟩⟩
  · cases indices <;> rfl
  · cases indices with
    | true => exact Tensor.proper_map fun _ _ => rfl
    | false => exact floats.proper.ofFn_get _ _

theorem transpose_produces {axes : List Int} {places : List Nat} (proper : a.Proper)
    (permuted : permutation axes a.rank = .ok places) :
    Produces ((transpose axes).value rank [a]) (places.map a.extent) := by
  refine ⟨a.permute places, ?_, rfl, proper.ofFn_get _ _⟩
  exact bind_eq_ok.mpr ⟨a, rfl, bind_eq_ok.mpr ⟨places, permuted, rfl⟩⟩

theorem slice_produces {selection : Selection} {places : List Nat} (proper : a.Proper)
    (resolved : axis.resolve a.rank = .ok i)
    (selected : selection.places axis (a.extent i) = .ok places) :
    Produces ((slice axis selection).value rank [a]) (a.shape.set i places.length) := by
  refine ⟨a.selectAxis i places, ?_, rfl, proper.ofFn_get _ _⟩
  exact bind_eq_ok.mpr ⟨a, rfl, bind_eq_ok.mpr ⟨i, resolved,
    bind_eq_ok.mpr ⟨places, selected, rfl⟩⟩⟩

theorem indexSelect_produces {indices : Tensor Scalar} {type : ElementType} (proper : a.Proper)
    (resolved : axis.resolve a.rank = .ok i) {n : Nat} (list : indices.shape = [n])
    (integer : type.isInt = true) (typed : indices.Typed type.storage)
    (names : ∀ x ∈ indices.toList, x.Names (a.extent i)) :
    Produces ((indexSelect axis).value rank [a, indices]) (a.shape.set i n) := by
  obtain ⟨places, found, shape, _⟩ := Tensor.exactPlaces_total names integer typed
  let source (pos : List Nat) : List Nat :=
    pos.take i ++ [places.get ((pos.drop i).take places.rank)] ++ pos.drop (i + places.rank)
  refine ⟨.ofFn (a.shape.take i ++ places.shape ++ a.shape.drop (i + 1)) fun pos =>
    a.get (source pos), ?_, ?_, proper.ofFn_get _ source⟩
  · exact bind_eq_ok.mpr ⟨(a, indices), rfl, bind_eq_ok.mpr ⟨i, resolved,
      bind_eq_ok.mpr ⟨places, found, rfl⟩⟩⟩
  · change a.shape.take i ++ places.shape ++ a.shape.drop (i + 1) = a.shape.set i n
    rw [shape, list, List.set_eq_take_append_cons_drop,
      if_pos (show i < a.shape.length from Axis.resolve_lt resolved)]
    simp

theorem gather_produces {indices : Tensor Scalar} (proper : a.Proper)
    (resolved : axis.resolve a.rank = .ok i)
    (agree : Tensor.agreeOutside i indices.shape a.shape = true)
    (names : ∀ x ∈ indices.toList, x.Names (a.extent i)) (short : a.extent i < 2 ^ 63) :
    Produces ((gather axis).value rank [a, indices]) indices.shape := by
  obtain ⟨places, found, _, _⟩ := Tensor.placeTensor_total names short
  obtain ⟨ranks, outside⟩ := Tensor.agreeOutside_iff.mp agree
  refine ⟨.ofFn indices.shape fun pos => a.get ((Tensor.clamp a.shape pos).set i (places.read pos)),
    ?_, rfl, proper.ofFn_get _ _⟩
  refine bind_eq_ok.mpr ⟨(a, indices), rfl, bind_eq_ok.mpr ⟨i, resolved, ?_⟩⟩
  refine throw_unless.mpr ⟨not_not.mpr ranks, ?_⟩
  rw [← outside, broadcast?_set]
  exact bind_eq_ok.mpr ⟨places, found, rfl⟩

/-! ### Joined arrays -/

theorem locate_mem {axis : Nat} {ts : List (Tensor Scalar)} {k : Nat} {t : Tensor Scalar} {j : Nat}
    (found : Tensor.locate axis ts k = some (t, j)) : t ∈ ts := by
  induction ts generalizing k with
  | nil => cases found
  | cons u rest ih =>
    unfold Tensor.locate at found
    split at found
    · cases found
      exact List.mem_cons_self
    · exact List.mem_cons_of_mem _ (ih found)

/-- Arrays that agree outside an axis are laid end to end along it. -/
theorem join_produces {axis : Nat} (first : Tensor Scalar) (rest : List (Tensor Scalar))
    (agree : ∀ t ∈ first :: rest, Tensor.agreeOutside axis t.shape first.shape = true)
    (proper : ∀ t ∈ first :: rest, t.Proper) :
    Produces (Tensor.join axis (first :: rest)) (first.shape.set axis
      (((first :: rest).map fun t => t.extent axis).foldr (· + ·) 0)) := by
  have all : ((first :: rest).all fun t =>
      t.rank == first.rank && t.shape.set axis 1 == first.shape.set axis 1) = true :=
    List.all_eq_true.mpr agree
  unfold Tensor.join
  dsimp only
  rw [if_pos all]
  refine ⟨_, rfl, rfl, fun x mem => ?_⟩
  obtain ⟨pos, _, rfl⟩ := Tensor.mem_toList_ofFn.mp mem
  split
  next t k found => exact (proper t (locate_mem found)).get rfl _
  · rfl

theorem concatenate_produces {first : Tensor Scalar} {rest : List (Tensor Scalar)}
    (proper : ∀ t ∈ first :: rest, t.Proper) (resolved : axis.resolve rank = .ok i)
    (axial : i < first.rank)
    (agree : ∀ t ∈ first :: rest, Tensor.agreeOutside i t.shape first.shape = true) :
    Produces ((concatenate axis).value rank (first :: rest)) (first.shape.set i
      (((first :: rest).map fun t => t.extent i).foldr (· + ·) 0)) := by
  have ranked : ¬((first :: rest).any fun t => decide (t.rank ≤ i)) = true := by
    simp only [List.any_eq_true, decide_eq_true_eq, not_exists, not_and]
    intro t mem
    have := (Tensor.agreeOutside_iff.mp (agree t mem)).1
    unfold Tensor.rank at axial ⊢
    omega
  -- whatever type the arrays are taken to
  have laid (sample : Scalar) :
      Produces (Tensor.join i ((first :: rest).map fun t => t.map (Element.like sample)))
        (first.shape.set i (((first :: rest).map fun t => t.extent i).foldr (· + ·) 0)) := by
    obtain ⟨made, joined, shape, plain⟩ := join_produces (first.map (Element.like sample))
      (rest.map fun t => t.map (Element.like sample))
      (by
        rw [← List.map_cons]
        exact List.forall_mem_map.mpr agree)
      (by
        rw [← List.map_cons]
        refine List.forall_mem_map.mpr fun t mem => Tensor.proper_map fun x inside => ?_
        exact Scalar.refusal?_store.trans (proper t mem x inside))
    refine ⟨made, joined, shape.trans ?_, plain⟩
    rw [← List.map_cons, List.map_map]
    rfl
  have opened : Produces (joined i (first :: rest)) (first.shape.set i
      (((first :: rest).map fun t => t.extent i).foldr (· + ·) 0)) := by
    unfold joined
    dsimp only
    rw [if_neg ranked]
    exact laid _
  obtain ⟨made, joined, fits⟩ := opened
  exact ⟨made, bind_eq_ok.mpr ⟨i, resolved, joined⟩, fits⟩

/-! ### Matrix products -/

/-- A sum of products is a stored number or zero, so it can be scaled. -/
theorem refusal?_dot_mul {xs ys : List Scalar} (left : ∀ x ∈ xs, x.refusal? = none)
    (right : ∀ y ∈ ys, y.refusal? = none) (c : Float) :
    (Element.dot xs ys * Element.real c : Scalar).refusal? = none := by
  have scaled {x : Scalar} {s : StorageType} (typed : x.type? = some s) :
      (x * Element.real c : Scalar).refusal? = none :=
    Scalar.refusal?_of_type? (Scalar.type?_apply Scalar.multiplication typed rfl
      (Scalar.reaches_real _ c))
  have zero : (Element.whole 0 * Element.real c : Scalar).refusal? = none := by
    change (if (Scalar.whole 0).reaches .float64 && (Scalar.real c).reaches .float64 then
      Scalar.real _ else .refused .overflow).refusal? = none
    rw [Scalar.reaches_zero, Scalar.reaches_real]
    rfl
  cases xs with
  | nil => exact zero
  | cons x xs =>
    cases ys with
    | nil => exact zero
    | cons y ys =>
      refine scaled (s := Scalar.common x y) ?_
      change (Scalar.dot (x :: xs) (y :: ys)).type? = _
      unfold Scalar.dot
      dsimp only
      rw [Scalar.refusalIn?_eq_none (List.forall_mem_append.mpr ⟨left, right⟩)]
      exact Scalar.type?_store (Scalar.refusal?_of_type? (Scalar.type?_totalWithin ..))

section Matrices

variable {front front' : List Nat} {m k n : Nat}

/-- An operand with its last axes exchanged or not. -/
theorem operand_produces (exchanged : Bool) (proper : a.Proper) (is : a.shape = front ++ [m, k]) :
    Produces (operand exchanged a)
      (front ++ [if exchanged then k else m, if exchanged then m else k]) := by
  refine ⟨a.operand exchanged, Tensor.operand_eq exchanged is, Tensor.shape_operand exchanged is, ?_⟩
  cases exchanged with
  | false => exact proper
  | true => exact proper.ofFn_get _ _

/-- The product of matrices, scaled. -/
theorem product_produces (first : a.Proper) (second : b.Proper) (left : a.shape = front ++ [m, k])
    (right : b.shape = front' ++ [k, n]) (joined : broadcast? [front, front'] = some r)
    (c : Float) :
    Produces (do pure ((← a.product b).map fun x => x * Element.real c)) (r ++ [m, n]) := by
  let p : Tensor Scalar := .ofFn (r ++ [m, n]) fun pos =>
    Element.dot (a.row (pos.take r.length) (pos.getD r.length 0))
      (b.col (pos.take r.length) (pos.getD (r.length + 1) 0))
  have multiplied : a.product b = .ok p := Tensor.product_eq left right joined
  refine ⟨p.map fun x => x * Element.real c, ?_, rfl, Tensor.proper_map fun z mem => ?_⟩
  · exact bind_eq_ok.mpr ⟨p, multiplied, rfl⟩
  · obtain ⟨pos, _, rfl⟩ := Tensor.mem_toList_ofFn.mp mem
    exact refusal?_dot_mul (List.forall_mem_map.mpr fun _ _ => first.get rfl _)
      (List.forall_mem_map.mpr fun _ _ => second.get rfl _) c

end Matrices

theorem matMul_produces {transA transB batched : Bool} {scalar : Float} (first : a.Proper)
    (second : b.Proper) (matricesA : 2 ≤ a.rank) (matricesB : 2 ≤ b.rank)
    (inner : (if transA then backExtent a.shape 1 else backExtent a.shape 0) =
      (if transB then backExtent b.shape 0 else backExtent b.shape 1))
    (joined : broadcast? [a.shape.take (a.rank - 2), b.shape.take (b.rank - 2)] = some r) :
    Produces ((matMul transA transB scalar batched).value rank [a, b])
      (r ++ [if transA then backExtent a.shape 0 else backExtent a.shape 1,
        if transB then backExtent b.shape 1 else backExtent b.shape 0]) := by
  obtain ⟨x, left, extents, proper⟩ := operand_produces transA first (matrix_extents matricesA)
  obtain ⟨y, right, extents', proper'⟩ := operand_produces transB second (matrix_extents matricesB)
  rw [inner] at extents
  obtain ⟨t, multiplied, fits⟩ := product_produces proper proper' extents extents' joined scalar
  exact ⟨t, bind_eq_ok.mpr ⟨(a, b), rfl, bind_eq_ok.mpr ⟨x, left,
    bind_eq_ok.mpr ⟨y, right, multiplied⟩⟩⟩, fits⟩

end Operator

end ReverseMode