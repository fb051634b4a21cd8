import ReverseMode.Proofs.BackwardPass
import ReverseMode.Proofs.Reading
import ReverseMode.Proofs.Typing

/-!
Storage types of arrays.

An array is typed if all its elements are stored in one type, and homogeneous if its elements are
kin. Storing an array in a buffer gives a typed one. An array that is changed in place stays of its
type: whether an update is refused is tried on the first elements only, but where both operands are
homogeneous the other elements are not refused either.
-/

namespace ReverseMode

open scoped Element
open Scalar (Kin)

namespace Scalar

/-- Zero stands outside an array of numbers, as it does outside every array of elements. -/
scoped instance (priority := 2000) : Inhabited Scalar := Element.instInhabited

/-- Zero reaches every type. -/
theorem reaches_zero (t : StorageType) : (Scalar.whole 0).reaches t = true := by
  cases t with
  | bool => rfl
  | int t =>
    obtain ⟨signed, width⟩ := t
    cases signed <;> cases width <;> decide
  | _ => decide +kernel

end Scalar

open scoped Scalar

namespace Tensor

/-! ### Proper arrays -/

section Proper

variable {α : Type} [Element α] {t u : Tensor α} {shape : List Nat}

/-- A property of all elements and of zero is one of every element that is read, also outside the
array. -/
theorem get_of_all {P : α → Prop} (all : ∀ x ∈ t.toList, P x) (zero : P (Element.whole 0))
    (pos : List Nat) : P (t.get pos) := by
  rw [get, Array.getD_eq_getD_getElem?]
  cases found : t.data[offset t.shape pos]? with
  | none => exact zero
  | some x => exact all x (Array.mem_def.mp (Array.mem_of_getElem? found))

variable (zero : Element.refusal? (Element.whole 0 : α) = none)

include zero in
theorem Proper.get (proper : t.Proper) (pos : List Nat) : Element.refusal? (t.get pos) = none :=
  get_of_all (P := fun x => Element.refusal? x = none) proper zero pos

theorem all_broadcastTo {P : α → Prop} (all : ∀ x ∈ t.toList, P x) (zero : P (Element.whole 0))
    (expanded : t.broadcastTo shape = .ok u) : u.shape = shape ∧ ∀ x ∈ u.toList, P x := by
  unfold Tensor.broadcastTo at expanded
  split at expanded
  · cases expanded
    refine ⟨rfl, fun x mem => ?_⟩
    obtain ⟨pos, _, rfl⟩ := mem_toList_ofFn.mp mem
    exact get_of_all all zero _
  · cases expanded

include zero in
theorem Proper.spread (proper : t.Proper) (filled : t.spread shape = .ok u) :
    u.shape = shape ∧ u.Proper := by
  have source : ∀ size, Proper ⟨dropOnes shape.length t.shape, t.data, size⟩ := fun _ => proper
  unfold Tensor.spread at filled
  dsimp only at filled
  split at filled
  next same =>
    cases filled
    exact ⟨same, source _⟩
  · exact all_broadcastTo (P := fun x => Element.refusal? x = none) (source _) zero filled

theorem Proper.reshape (proper : t.Proper) (reshaped : t.reshape shape = .ok u) : u.Proper := by
  unfold Proper
  rwa [(toList_reshape reshaped).1]

end Proper

/-! ### Typed arrays -/

variable {t u target operand : Tensor Scalar} {s : StorageType} {shape : List Nat}

/-- All elements are stored in one type. -/
def Typed (s : StorageType) (t : Tensor Scalar) : Prop := ∀ x ∈ t.toList, x.type? = some s

/-- The elements are stored in one type, or are all the same number. -/
def Homogeneous (t : Tensor Scalar) : Prop := ∀ x ∈ t.toList, ∀ y ∈ t.toList, Kin x y

theorem Typed.homogeneous (typed : t.Typed s) : t.Homogeneous := fun x mem y mem' =>
  .of_types (typed x mem) (typed y mem')

theorem Typed.proper (typed : t.Typed s) : t.Proper := fun x mem =>
  Scalar.refusal?_of_type? (typed x mem)

theorem Homogeneous.combine {f : Scalar → Scalar → Scalar}
    (congr : ∀ {x x' y y'}, Kin x x' → Kin y y' → Kin (f x y) (f x' y'))
    (first : t.Homogeneous) (second : u.Homogeneous) {r : Tensor Scalar}
    (combined : t.combine f u = .ok r) : r.Homogeneous := by
  obtain ⟨_, elements⟩ := combine_eq_ok combined
  intro z mem z' mem'
  obtain ⟨x, inside, y, inside', rfl⟩ := elements z mem
  obtain ⟨x', inside'', y', inside''', rfl⟩ := elements z' mem'
  exact congr (first x inside x' inside'') (second y inside' y' inside''')

theorem Homogeneous.map {f : Scalar → Scalar} (congr : ∀ {x y}, Kin x y → Kin (f x) (f y))
    (homogeneous : t.Homogeneous) : (t.map f).Homogeneous := by
  intro x mem y mem'
  rw [toList_map] at mem mem'
  obtain ⟨x, inside, rfl⟩ := List.mem_map.mp mem
  obtain ⟨y, inside', rfl⟩ := List.mem_map.mp mem'
  exact congr (homogeneous x inside y inside')

theorem Typed.map {f : Scalar → Scalar} {s' : StorageType}
    (typing : ∀ {x : Scalar}, x.type? = some s → (f x).type? = some s') (typed : t.Typed s) :
    (t.map f).Typed s' := by
  intro x mem
  rw [toList_map] at mem
  obtain ⟨x, inside, rfl⟩ := List.mem_map.mp mem
  exact typing (typed x inside)

theorem Typed.of_toList (typed : t.Typed s) (same : u.toList = t.toList) : u.Typed s := by
  unfold Typed
  rwa [same]

/-! ### Arrays in buffers -/

/-- What is written into a buffer has its extents and its type. -/
theorem assign_typed (assigned : t.assign s shape = .ok u) : u.shape = shape ∧ u.Typed s := by
  obtain ⟨sound, checked, assigned⟩ := bind_eq_ok.mp assigned
  obtain ⟨rfl, proper⟩ := sound_eq_ok.mp checked
  obtain ⟨filled, spread, assigned⟩ := bind_eq_ok.mp assigned
  obtain ⟨extents, plain⟩ := proper.spread rfl spread
  cases pure_eq_ok.mp assigned
  refine ⟨extents, fun x mem => ?_⟩
  rw [toList_map] at mem
  obtain ⟨y, inside, rfl⟩ := List.mem_map.mp mem
  exact Scalar.type?_store (plain y inside)

/-! ### Changes in place -/

/-- An array changed in place by a homogeneous operand keeps its extents and its type. -/
theorem Typed.updateInPlace {f : Scalar → Scalar → Scalar}
    (congr : ∀ {x x' y y'}, Kin x x' → Kin y y' → Kin (f x y) (f x' y'))
    (typed : target.Typed s) (homogeneous : operand.Homogeneous)
    (updated : target.updateInPlace f operand = .ok t) : t.shape = target.shape ∧ t.Typed s := by
  unfold Tensor.updateInPlace at updated
  dsimp only at updated
  split at updated
  · cases updated
  next sampled =>
    obtain ⟨result, combined, updated⟩ := bind_eq_ok.mp updated
    obtain ⟨_, elements⟩ := combine_eq_ok combined
    split at updated
    next same =>
      cases pure_eq_ok.mp updated
      refine ⟨same, fun z mem => ?_⟩
      obtain ⟨x, inside, y, inside', rfl⟩ := elements z mem
      -- there are first elements, which are kin to these, and they have been tried
      obtain ⟨x₀, xs, first⟩ := List.exists_cons_of_ne_nil (List.ne_nil_of_mem inside)
      obtain ⟨y₀, ys, second⟩ := List.exists_cons_of_ne_nil (List.ne_nil_of_mem inside')
      have tried : Scalar.refusal? (x₀.replace (f x₀ y₀)) = none := by
        rw [first, second] at sampled
        exact List.findSome?_eq_none_iff.mp sampled _ (List.mem_singleton.mpr rfl)
      have kin := (typed.homogeneous x inside x₀ (by simp [first])).replace (congr
        (typed.homogeneous x inside x₀ (by simp [first]))
        (homogeneous y inside' y₀ (by simp [second])))
      exact Scalar.type?_replace (typed x inside) (kin.refusal?.trans tried)
    · cases updated

theorem Typed.addInPlace (typed : target.Typed s) (homogeneous : operand.Homogeneous)
    (added : target.addInPlace operand = .ok t) : t.shape = target.shape ∧ t.Typed s :=
  typed.updateInPlace (f := Scalar.add) (Kin.apply Scalar.addition) homogeneous added

/-- Sums of numbers are never refused. -/
theorem refusal?_sum {runs : List (List Scalar)}
    (plain : ∀ x ∈ runs.flatten, x.refusal? = none) : (Scalar.sum runs).refusal? = none := by
  cases flat : runs.flatten with
  | nil =>
    unfold Scalar.sum
    rw [flat]
    rfl
  | cons x rest => exact Scalar.refusal?_of_type? (Scalar.type?_sum flat (flat ▸ plain))

theorem Proper.sumAxes (proper : t.Proper) (axes : List Nat) : (t.sumAxes axes).Proper := by
  intro x mem
  obtain ⟨pos, _, rfl⟩ := mem_toList_ofFn.mp mem
  refine refusal?_sum fun x inside => ?_
  obtain ⟨run, listed, inside⟩ := List.mem_flatten.mp inside
  obtain ⟨start, _, rfl⟩ := List.mem_map.mp listed
  obtain ⟨q, _, rfl⟩ := List.mem_map.mp inside
  exact proper.get rfl q

theorem Proper.unbroadcast (proper : t.Proper) (summed : t.unbroadcast shape = .ok u) :
    u.Proper := by
  obtain ⟨g, leading, summed⟩ := bind_eq_ok.mp summed
  have proper' : g.Proper := by
    unfold sumLeading at leading
    dsimp only at leading
    split at leading
    · cases leading
      exact proper
    · exact (proper.sumAxes _).reshape leading
  dsimp only at summed
  split at summed
  · exact proper'.reshape summed
  · exact (proper'.sumAxes _).reshape summed

/-- A proper gradient is added into a buffer element by element. -/
theorem Typed.accumulate (typed : target.Typed s) (proper : u.Proper)
    (added : target.accumulate u = .ok t) : t.Typed s := by
  obtain ⟨g, summed, added⟩ := bind_eq_ok.mp added
  cases pure_eq_ok.mp added
  intro x mem
  obtain ⟨pos, inside, rfl⟩ := mem_toList_ofFn.mp mem
  have here := typed _ (get_mem inside)
  refine Scalar.type?_apply_self Scalar.addition here ?_
  change (Scalar.store (target.get pos).ownType (g.get pos)).type? = some s
  rw [Scalar.ownType_of_type? here]
  exact Scalar.type?_store ((proper.unbroadcast summed).get rfl pos)

/-- An amount that can be added to every number of a type. -/
def Addable (s : StorageType) (amount : Scalar) : Prop :=
  ∀ x : Scalar, x.type? = some s → (x.add amount).refusal? = none

theorem addable_of_type? {x : Scalar} {s' : StorageType} (typed : x.type? = some s') :
    Addable s x := fun _ stored =>
  Scalar.refusal?_of_type? (Scalar.type?_apply Scalar.addition stored
    (Scalar.refusal?_of_type? typed) (Scalar.reaches_of_type? typed _))

theorem addable_zero : Addable s (.whole 0) := fun _ stored =>
  Scalar.refusal?_of_type? (Scalar.type?_apply Scalar.addition stored rfl (Scalar.reaches_zero _))

theorem Typed.addable (typed : t.Typed s) {s' : StorageType} (pos : List Nat) :
    Addable s' (t.get pos) :=
  get_of_all (P := Addable s') (fun x mem => addable_of_type? (typed x mem)) addable_zero pos

theorem Typed.addAt (typed : target.Typed s) {addends : List (Addend Scalar)}
    (addable : ∀ a ∈ addends, Addable s a.amount) : (target.addAt addends).Typed s := by
  have all : ∀ (addends : List (Addend Scalar)) (data : Array Scalar),
      (∀ a ∈ addends, Addable s a.amount) → (∀ x ∈ data, x.type? = some s) →
      ∀ x ∈ addends.foldl (fun data a =>
        data.modify a.offset fun x => Element.like x (x + a.amount)) data, x.type? = some s := by
    intro addends
    induction addends with
    | nil => exact fun _ _ typed => typed
    | cons a rest ih =>
      intro data addable typed
      refine ih _ (fun b mem => addable b (by simp [mem])) fun x mem => ?_
      obtain ⟨i, bound, rfl⟩ := Array.getElem_of_mem mem
      rw [Array.getElem_modify]
      have here := typed _ (Array.getElem_mem (by simpa using bound))
      split
      · change (Scalar.store _ _).type? = some s
        rw [Scalar.ownType_of_type? here]
        exact Scalar.type?_store (addable a (by simp) _ here)
      · exact here
  intro x mem
  exact all addends target.data addable (fun x mem => typed x (Array.mem_def.mp mem)) x
    (Array.mem_def.mpr mem)

theorem getD_mem {places : List Nat} {k : Nat} (bound : k < places.length) :
    places.getD k 0 ∈ places := by
  rw [List.getD_eq_getElem?_getD, List.getElem?_eq_getElem bound]
  exact List.getElem_mem bound

/-- Places inside an axis are read inside the array. -/
theorem place_mem {axis : Nat} {places pos : List Nat}
    (inside : pos ∈ positions (shape.set axis places.length))
    (below : ∀ p ∈ places, p < shape.getD axis 1) :
    pos.set axis (places.getD (pos.getD axis 0) 0) ∈ positions shape := by
  have rank := (mem_positions.mp inside).length_eq
  rw [List.length_set] at rank
  by_cases axial : axis < shape.length
  · have less : pos.getD axis 0 < places.length := by
      have all := (List.forall₂_iff_get.mp (mem_positions.mp inside)).2 axis (by omega)
        (by rwa [List.length_set])
      simpa [List.getD_eq_getElem?_getD, rank, axial] using all
    have moved : pos.set axis (places.getD (pos.getD axis 0) 0) ∈
        positions ((shape.set axis places.length).set axis (shape.getD axis 1)) :=
      set_mem_positions inside (below _ (getD_mem less))
    rwa [List.set_set, set_getD] at moved
  · rw [List.set_eq_of_length_le (by omega)] at inside ⊢
    exact inside

theorem Typed.selectAxis (typed : target.Typed s) {axis : Nat} {places : List Nat}
    (below : ∀ p ∈ places, p < target.extent axis) : (target.selectAxis axis places).Typed s := by
  intro x mem
  obtain ⟨pos, inside, rfl⟩ := mem_toList_ofFn.mp mem
  exact typed _ (get_mem (place_mem inside below))

theorem Typed.putAxis (typed : target.Typed s) {axis : Nat} {places : List Nat}
    (shape : t.shape = (target.selectAxis axis places).shape) (typed' : t.Typed s) :
    (target.putAxis axis places t).Typed s := by
  intro x mem
  obtain ⟨pos, inside, rfl⟩ := mem_toList_ofFn.mp mem
  split
  next k found =>
    exact typed' _ (get_mem (shape ▸ (get_selectAxis inside found).1))
  · exact typed _ (get_mem inside)

/-! ### Arrays of a signature -/

/-- An array has the extents and the element type of a signature. -/
structure Conforms (t : Tensor Scalar) (s : Signature) : Prop where
  shape : t.shape = s.shape.extents
  typed : t.Typed s.type.storage

theorem zeros_conforms (s : Signature) : (Graph.zeros s).Conforms s where
  shape := rfl
  typed _ mem := mem_toList_full mem ▸ Scalar.type?_store rfl

end Tensor

/-- What can be added to a gradient of a signature. -/
def Contribution.Fits (s : Signature) : Contribution Scalar → Prop
  | dense gradient => gradient.Proper
  | sparse addends => ∀ a ∈ addends, Tensor.Addable s.type.storage a.amount
  | inPlace addend => addend.Homogeneous
  | window axis places addend => addend.Homogeneous ∧ ∀ p ∈ places, p < s.shape.extent axis

/-- A contribution that fits keeps extents and type of the gradient it is added to. -/
theorem Contribution.Fits.addTo {c : Contribution Scalar} {s : Signature} (fits : c.Fits s)
    {target t : Tensor Scalar} (conforms : target.Conforms s) (added : c.addTo target = .ok t) :
    t.Conforms s := by
  refine ⟨(Contribution.addTo_shape added).trans conforms.shape, ?_⟩
  have typed := conforms.typed
  cases c with
  | dense gradient => exact typed.accumulate fits added
  | sparse addends =>
    cases added
    exact typed.addAt fits
  | inPlace addend => exact (typed.addInPlace fits added).2
  | window axis places addend =>
    obtain ⟨homogeneous, below⟩ := fits
    obtain ⟨summed, here, added⟩ := bind_eq_ok.mp added
    cases pure_eq_ok.mp added
    have selected : (target.selectAxis axis places).Typed s.type.storage := typed.selectAxis (by
      unfold Tensor.extent
      rwa [conforms.shape])
    obtain ⟨shape, typed'⟩ := selected.addInPlace homogeneous here
    exact typed.putAxis shape typed'

end ReverseMode
