import ReverseMode.Proofs.ValueShapes

/-!
Inferred shapes and computed ones.

Where the rule of an operator accepts some inputs, the operator computes an array of exactly the
extents that the rule has inferred, from floats and from indices that name places. That is so for
all operators of the library, all of their parameters and all ranks, with few exceptions, which are
named by `Operator.valueFault?`: the cross entropy and the normalization of an input without axes,
for which the rules do not look at the last axis; views of more axes than an array can have; and a
debug operator whose observer does not take what it is told. Each of these has a fault in the place
of a value.
-/

namespace ReverseMode

open scoped Element Scalar
open Tensor (Conforms)

namespace Operator

variable {α : Type} [Element α]

/-! ### Applications -/

/-- The operators of the library: neither a function of a caller nor one that says nothing about its
values. -/
def Catalogued : Operator α → Prop
  | custom .. | unspecified _ => False
  | _ => True

/-- Whether an operator takes so many inputs. -/
def Takes (op : Operator α) (count : Nat) : Prop :=
  match op with
  | joint f => jointTakes f count
  | scalarProduct _ | crossEntropy _ | matMul .. | indexSelect _ | gather _ => count = 2
  | layerNorm _ => count = 2 ∨ count = 3
  | concatenate _ => 0 < count
  | custom .. | unspecified _ => True
  | _ => count = 1

/-- The slot of the input that holds labels or indices; all other inputs hold data. -/
def indexSlot? : Operator α → Option Nat
  | crossEntropy _ | indexSelect _ | gather _ => some 1
  | _ => none

/-- Labels and indices are integers that lie on the axis they are places of. -/
def InRange (op : Operator Scalar) (inputs : List (Tensor Scalar)) : Prop :=
  match op, inputs with
  | crossEntropy _, [logits, labels] =>
    ∀ x ∈ labels.toList, x.Names (logits.extent (logits.rank - 1))
  | indexSelect axis, [a, indices] | gather axis, [a, indices] =>
    ∀ i, axis.resolve a.rank = .ok i → ∀ x ∈ indices.toList, x.Names (a.extent i)
  | _, _ => True

/-- Arrays that an operator can be applied to: they have the extents and types of the nodes they
belong to, data are floats, and indices lie in range. The elements of an array can be counted with
63 bits, as those of every array can. -/
structure Supplied (op : Operator Scalar) (signatures : List Signature)
    (inputs : List (Tensor Scalar)) : Prop where
  conform : List.Forall₂ Conforms inputs signatures
  takes : op.Takes inputs.length
  floats : ∀ slot s, signatures[slot]? = some s → op.indexSlot? ≠ some slot → s.type.isFloat = true
  inRange : op.InRange inputs
  countable : ∀ t ∈ inputs, t.size < 2 ^ 63

/-- What is computed from some inputs: the value before it is stored, or what a view shows. -/
def computed (op : Operator α) (rank : Nat) (inputs : List (Tensor α)) : Except Fault (Tensor α) :=
  if op.isView then op.viewOf inputs else op.value rank inputs

/-- The fault that stands in the place of a value although the rule has accepted the inputs. -/
def valueFault? (op : Operator α) (signatures : List Signature) (s : Signature) : Option Fault :=
  match op, signatures with
  | crossEntropy _, x :: _ | layerNorm _, x :: _ =>
    if x.shape.rank = 0 then some (.plain .axis) else none
  | reshape _, _ => if mostAxes < s.shape.rank then some .value else none
  | debug _ (.refusing f), _ => some f
  | _, _ => none

end Operator

/-! ### Arrays of nodes -/

namespace Tensor.Conforms

variable {t : Tensor Scalar} {s : Signature}

theorem rank (conforms : t.Conforms s) : t.rank = s.shape.rank :=
  congrArg List.length conforms.shape

theorem extent (conforms : t.Conforms s) (i : Nat) : t.extent i = s.shape.extent i :=
  congrArg (·.getD i 1) conforms.shape

theorem size (conforms : t.Conforms s) : t.size = s.shape.elements :=
  t.size_eq.trans (congrArg volume conforms.shape)

/-- An array of a node that has axes has axes. -/
theorem ranked (conforms : t.Conforms s) (some : s.shape.rank ≠ 0) : t.shape ≠ [] := by
  rw [← List.length_pos_iff]
  exact Nat.pos_of_ne_zero fun none => some (conforms.rank ▸ none)

theorem proper (conforms : t.Conforms s) : t.Proper := conforms.typed.proper

/-- An array of a node of float type holds floats. -/
theorem floats (conforms : t.Conforms s) (float : s.type.isFloat = true) : t.Floats where
  floating x mem := ⟨_, conforms.typed x mem, ElementType.storage_floating float⟩
  positive := conforms.shape ▸ s.shape.positive

end Tensor.Conforms

/-- Arrays have the extents that their nodes have. -/
theorem map_shape {inputs : List (Tensor Scalar)} {signatures : List Signature}
    (conform : List.Forall₂ Conforms inputs signatures) :
    inputs.map Tensor.shape = signatures.map fun s => s.shape.extents := by
  induction conform with
  | nil => rfl
  | cons head _ ih => rw [List.map_cons, List.map_cons, head.shape, ih]

namespace Operator

variable {op : Operator Scalar} {signatures : List Signature} {inputs : List (Tensor Scalar)}
  {s : Signature}

/-! ### Operators that compute -/

/-- Inputs that are all data hold floats. -/
theorem Supplied.all (supplied : op.Supplied signatures inputs) (data : op.indexSlot? = none) :
    ∀ t ∈ inputs, t.Floats := by
  have floats : ∀ s ∈ signatures, s.type.isFloat = true := by
    intro s mem
    obtain ⟨slot, found⟩ := List.mem_iff_getElem?.mp mem
    exact supplied.floats slot s found (by rw [data]; nofun)
  have conform := supplied.conform
  clear supplied
  induction conform with
  | nil => exact fun t mem => nomatch mem
  | cons head _ ih =>
    rw [List.forall_mem_cons] at floats ⊢
    exact ⟨head.floats floats.1, ih floats.2⟩

/-- The only input of an operator of one. -/
theorem Supplied.one {rule : Signature → Except Fault Signature}
    (supplied : op.Supplied signatures inputs) (inferred : (only signatures >>= rule) = .ok s) :
    ∃ a t, signatures = [a] ∧ inputs = [t] ∧ t.Conforms a ∧ t.size < 2 ^ 63 ∧ rule a = .ok s := by
  obtain ⟨a, given, inferred⟩ := bind_eq_ok.mp inferred
  obtain rfl := only_eq_ok given
  have countable := supplied.countable
  cases supplied.conform with
  | @cons t _ _ _ head tail =>
    cases tail
    exact ⟨a, t, rfl, rfl, head, countable t (by simp), inferred⟩

/-- The two inputs of an operator of two. -/
theorem Supplied.two {rule : Signature × Signature → Except Fault Signature}
    (supplied : op.Supplied signatures inputs) (inferred : (both signatures >>= rule) = .ok s) :
    ∃ a b t u, signatures = [a, b] ∧ inputs = [t, u] ∧ t.Conforms a ∧ u.Conforms b ∧
      t.size < 2 ^ 63 ∧ rule (a, b) = .ok s := by
  obtain ⟨⟨a, b⟩, given, inferred⟩ := bind_eq_ok.mp inferred
  obtain rfl := both_eq_ok given
  have countable := supplied.countable
  cases supplied.conform with
  | @cons t _ _ _ first tail =>
    cases tail with
    | @cons u _ _ _ second tail =>
      cases tail
      exact ⟨a, b, t, u, rfl, rfl, first, second, countable t (by simp), inferred⟩

/-- The first input of an operator of two, of which the second one holds indices. -/
theorem Supplied.data {a b : Signature} {t u : Tensor Scalar}
    (supplied : op.Supplied [a, b] [t, u]) (slot : op.indexSlot? = some 1) : t.Floats := by
  cases supplied.conform with
  | cons head _ => exact head.floats (supplied.floats 0 a rfl (by rw [slot]; nofun))

theorem layerNorm_infers {eps : Float} (supplied : (layerNorm eps).Supplied signatures inputs)
    (inferred : (layerNorm eps : Operator Scalar).infer signatures = .ok s)
    (sound : (layerNorm eps : Operator Scalar).valueFault? signatures s = none) (rank : Nat) :
    Produces ((layerNorm eps).value rank inputs) s.shape.extents := by
  obtain ⟨x, rest, rfl, shape, joined⟩ := layerNormRule_eq_ok inferred
  have floats := supplied.all rfl
  have countable := supplied.countable
  have takes : inputs.length = 2 ∨ inputs.length = 3 := supplied.takes
  rw [← map_shape supplied.conform] at joined
  have ranked : x.shape.rank ≠ 0 := fun none => by simp [valueFault?, none] at sound
  cases supplied.conform with
  | @cons t _ others _ head _ =>
    cases others with
    | nil => simp at takes
    | cons gamma others =>
      have some := head.ranked ranked
      have axial := (lastAxis_eq some).2
      have short := (floats t (by simp)).extent_le_size axial
      have few := countable t (by simp)
      rw [shape, ← head.shape]
      refine layerNorm_produces eps (floats t (by simp)) (fun u mem => floats u (by simp [mem]))
        some (fun u mem => ?_) (by omega)
      rw [← head.shape] at joined
      exact broadcast?_absorb joined (List.mem_map_of_mem (List.mem_cons_of_mem _ mem))

theorem crossEntropy_infers {smoothing : Float}
    (supplied : (crossEntropy smoothing).Supplied signatures inputs)
    (inferred : (crossEntropy smoothing : Operator Scalar).infer signatures = .ok s)
    (sound : (crossEntropy smoothing : Operator Scalar).valueFault? signatures s = none)
    (rank : Nat) : Produces ((crossEntropy smoothing).value rank inputs) s.shape.extents := by
  obtain ⟨a, b, logits, labels, rfl, rfl, first, second, few, inferred⟩ := supplied.two inferred
  obtain ⟨held, extents⟩ := labelRule_eq_ok inferred
  have floats := supplied.data rfl
  have ranked : a.shape.rank ≠ 0 := fun none => by simp [valueFault?, none] at sound
  have some := first.ranked ranked
  have short := floats.extent_le_size (lastAxis_eq some).2
  rw [← first.shape, ← second.shape] at held
  rw [extents, ← first.shape, ← set_last some]
  exact crossEntropy_produces smoothing floats some held supplied.inRange (by omega)

theorem concatenate_infers {axis : Axis}
    (supplied : (concatenate axis).Supplied signatures inputs)
    (inferred : (concatenate axis : Operator Scalar).infer signatures = .ok s) :
    Produces ((concatenate axis).value s.shape.rank inputs) s.shape.extents := by
  obtain ⟨first, rest, i, rfl, resolved, agree, extents⟩ := joinRule_eq_ok inferred
  have floats := supplied.all rfl
  have rank : s.shape.rank = first.shape.rank := by simp [Shape.rank, extents]
  have shapes := map_shape supplied.conform
  -- the rule compares extents of nodes, the operator those of arrays
  have agree : ∀ t ∈ inputs, Tensor.agreeOutside i t.shape first.shape.extents = true := by
    have all : ∀ e ∈ inputs.map Tensor.shape,
        Tensor.agreeOutside i e first.shape.extents = true := by
      rw [shapes]
      exact List.forall_mem_map.mpr agree
    exact List.forall_mem_map.mp all
  have total : inputs.map (fun t => t.extent i) =
      (first :: rest).map fun a => a.shape.extent i := by
    have extents := congrArg (List.map fun e => e.getD i 1) shapes
    rwa [List.map_map, List.map_map] at extents
  cases supplied.conform with
  | @cons t _ others _ head _ =>
    rw [rank, extents, ← total, ← head.shape]
    exact concatenate_produces (fun u mem => (floats u mem).proper) resolved
      (head.rank ▸ Axis.resolve_lt resolved) (head.shape ▸ agree)

theorem matMul_infers {transA transB batched : Bool} {scalar : Float}
    (supplied : (matMul transA transB scalar batched).Supplied signatures inputs)
    (inferred : (matMul transA transB scalar batched : Operator Scalar).infer signatures = .ok s)
    (rank : Nat) :
    Produces ((matMul transA transB scalar batched).value rank inputs) s.shape.extents := by
  obtain ⟨a, b, t, u, rfl, rfl, first, second, _, inferred⟩ := supplied.two inferred
  obtain ⟨left, right, inner, ⟨front, joined, extents⟩, _⟩ := productRule_eq_ok inferred
  have inner : (if transA then backExtent t.shape 1 else backExtent t.shape 0) =
      (if transB then backExtent u.shape 0 else backExtent u.shape 1) := by
    rw [first.shape, second.shape]
    exact inner
  have joined : broadcast? [t.shape.take (t.rank - 2), u.shape.take (u.rank - 2)] = some front := by
    rw [first.rank, second.rank, first.shape, second.shape]
    exact joined
  have made : Produces ((matMul transA transB scalar batched).value rank [t, u]) _ :=
    matMul_produces first.proper second.proper (first.rank ▸ left) (second.rank ▸ right) inner
      joined
  rw [first.shape, second.shape] at made
  rw [extents]
  exact made

/-- Where no fault stands in its place, the value has the inferred extents. -/
theorem value_produces (supplied : op.Supplied signatures inputs)
    (inferred : op.infer signatures = .ok s) (catalogued : op.Catalogued)
    (owned : op.isView = false) (sound : op.valueFault? signatures s = none) :
    Produces (op.value s.shape.rank inputs) s.shape.extents := by
  cases op with
  | unary f =>
    obtain ⟨a, t, rfl, rfl, conforms, _, inferred⟩ := supplied.one inferred
    rw [unaryRule_eq_ok inferred, ← conforms.shape]
    exact unary_produces f (supplied.all rfl t (by simp))
  | joint f =>
    have joined := jointRule_eq_ok inferred
    rw [← map_shape supplied.conform] at joined
    exact joint_produces f supplied.takes (supplied.all rfl) joined
  | cast type =>
    obtain ⟨a, t, rfl, rfl, conforms, _, inferred⟩ := supplied.one inferred
    rw [← pure_eq_ok.mp inferred, ← conforms.shape]
    exact cast_produces type conforms.proper
  | reduce r axis =>
    obtain ⟨a, t, rfl, rfl, conforms, few, inferred⟩ := supplied.one inferred
    obtain ⟨i, resolved, extents⟩ := reduceRule_eq_ok inferred
    rw [← conforms.rank] at resolved
    have floats := supplied.all rfl t (by simp)
    have short := floats.extent_le_size (Axis.resolve_lt resolved)
    rw [extents, ← conforms.shape]
    exact reduce_produces r floats resolved (by omega)
  | scalarProduct axis =>
    obtain ⟨a, b, t, u, rfl, rfl, first, second, _, inferred⟩ := supplied.two inferred
    obtain ⟨shape, joined, inferred⟩ := bind_eq_ok.mp inferred
    obtain ⟨i, resolved, inferred⟩ := bind_eq_ok.mp inferred
    obtain ⟨reduced, made, inferred⟩ := bind_eq_ok.mp inferred
    obtain ⟨type, _, inferred⟩ := bind_eq_ok.mp inferred
    cases pure_eq_ok.mp inferred
    have floats := supplied.all rfl
    have joined := Shape.broadcast_eq_ok.mp joined
    rw [List.map_cons, List.map_cons, List.map_nil, ← first.shape, ← second.shape] at joined
    rw [Shape.set_eq_ok (Axis.resolve_lt resolved) made]
    exact scalarProduct_produces (floats t (by simp)) (floats u (by simp)) joined shape.positive
      resolved
  | softmax axis =>
    obtain ⟨a, t, rfl, rfl, conforms, _, inferred⟩ := supplied.one inferred
    obtain ⟨_, _, inferred⟩ := bind_eq_ok.mp inferred
    obtain ⟨i, resolved, inferred⟩ := bind_eq_ok.mp inferred
    rw [← pure_eq_ok.mp inferred, ← conforms.shape]
    exact softmax_produces (supplied.all rfl t (by simp)) (conforms.rank ▸ resolved)
  | logSoftmax axis =>
    obtain ⟨a, t, rfl, rfl, conforms, _, inferred⟩ := supplied.one inferred
    obtain ⟨_, _, inferred⟩ := bind_eq_ok.mp inferred
    obtain ⟨i, resolved, inferred⟩ := bind_eq_ok.mp inferred
    rw [← pure_eq_ok.mp inferred, ← conforms.shape]
    exact logSoftmax_produces (supplied.all rfl t (by simp)) (conforms.rank ▸ resolved)
  | crossEntropy smoothing => exact crossEntropy_infers supplied inferred sound _
  | layerNorm eps => exact layerNorm_infers supplied inferred sound _
  | topK k axis descending indices =>
    obtain ⟨a, t, rfl, rfl, conforms, _, inferred⟩ := supplied.one inferred
    obtain ⟨i, resolved, enough, extents⟩ := topKRule_eq_ok inferred
    rw [extents, ← conforms.shape]
    exact topK_produces descending indices (supplied.all rfl t (by simp)) (conforms.rank ▸ resolved)
      (conforms.extent i ▸ enough)
  | matMul transA transB scalar batched => exact matMul_infers supplied inferred _
  | transpose axes =>
    obtain ⟨a, t, rfl, rfl, conforms, _, inferred⟩ := supplied.one inferred
    obtain ⟨places, permuted, inferred⟩ := bind_eq_ok.mp inferred
    obtain ⟨shape, made, inferred⟩ := bind_eq_ok.mp inferred
    cases pure_eq_ok.mp inferred
    rw [← Shape.ofNats_eq_ok.mp made, ← funext conforms.extent]
    exact transpose_produces conforms.proper (conforms.rank ▸ permuted)
  | concatenate axis => exact concatenate_infers supplied inferred
  | slice axis selection =>
    obtain ⟨a, t, rfl, rfl, conforms, _, inferred⟩ := supplied.one inferred
    obtain ⟨i, resolved, inferred⟩ := bind_eq_ok.mp inferred
    obtain ⟨places, selected, inferred⟩ := bind_eq_ok.mp inferred
    obtain ⟨shape, made, inferred⟩ := bind_eq_ok.mp inferred
    cases pure_eq_ok.mp inferred
    rw [Shape.set_eq_ok (Axis.resolve_lt resolved) made, ← conforms.shape]
    exact slice_produces conforms.proper (conforms.rank ▸ resolved) (conforms.extent i ▸ selected)
  | indexSelect axis =>
    obtain ⟨a, b, t, indices, rfl, rfl, first, second, _, inferred⟩ := supplied.two inferred
    obtain ⟨integer, n, i, list, resolved, extents⟩ := indexSelectRule_eq_ok inferred
    rw [← first.rank] at resolved
    rw [extents, ← first.shape]
    exact indexSelect_produces first.proper resolved (second.shape.trans list) integer second.typed
      (supplied.inRange i resolved)
  | gather axis =>
    obtain ⟨a, b, t, indices, rfl, rfl, first, second, few, inferred⟩ := supplied.two inferred
    obtain ⟨i, resolved, shape, agree⟩ := gatherRule_eq_ok inferred
    rw [← first.rank] at resolved
    have short := (supplied.data rfl).extent_le_size (Axis.resolve_lt resolved)
    rw [← first.shape, ← second.shape] at agree
    rw [shape, ← second.shape]
    exact gather_produces first.proper resolved agree (supplied.inRange i resolved) (by omega)
  | clipGradient | stopGradient | debug | reshape => cases owned
  | custom | unspecified => cases catalogued

/-! ### Views -/

/-- A requested shape has as many elements as it is given. -/
theorem elements_of_resolve {requested : List Int} {n : Nat} {shape : Shape}
    (resolved : Shape.resolve requested n = .ok shape) : shape.elements = n := by
  obtain ⟨filled, _, resolved⟩ := bind_eq_ok.mp resolved
  obtain ⟨made, _, resolved⟩ := bind_eq_ok.mp resolved
  split at resolved
  next same =>
    cases pure_eq_ok.mp resolved
    exact (Int.ofNat.inj (Option.some.inj same)).symm
  · cases resolved

/-- The array of a node under the extents that its rule has resolved. -/
theorem viewOf_reshape {requested : List Int} {a : Signature} {t : Tensor Scalar} {shape : Shape}
    (conforms : t.Conforms a) (resolved : Shape.resolve requested a.shape.elements = .ok shape) :
    (reshape requested).viewOf [t] = checkRank shape.rank >>= fun _ => t.reshape shape.extents := by
  change Shape.resolve requested t.size >>= (fun target =>
    checkRank target.rank >>= fun _ => t.reshape target.extents) = _
  rw [conforms.size, resolved]
  rfl

/-- Where no fault stands in its place, a view has the inferred extents. -/
theorem viewOf_produces (supplied : op.Supplied signatures inputs)
    (inferred : op.infer signatures = .ok s) (view : op.isView = true)
    (sound : op.valueFault? signatures s = none) : Produces (op.viewOf inputs) s.shape.extents := by
  -- most views show the input as it is
  have same (only : Operator.only signatures = .ok s) :
      Produces (first inputs) s.shape.extents := by
    obtain ⟨a, t, rfl, rfl, conforms, _, is⟩ := supplied.one
      (show (Operator.only signatures >>= pure) = .ok s from bind_eq_ok.mpr ⟨s, only, rfl⟩)
    cases pure_eq_ok.mp is
    exact ⟨t, rfl, conforms.shape, conforms.proper⟩
  cases op with
  | clipGradient bound =>
    obtain ⟨a, given, required⟩ := bind_eq_ok.mp inferred
    exact same ((requireFloat_eq_ok required).1 ▸ given)
  | stopGradient => exact same inferred
  | debug message observer =>
    cases observer with
    | graph => exact same inferred
    | refusing f => cases sound
  | reshape requested =>
    obtain ⟨a, t, rfl, rfl, conforms, _, inferred⟩ := supplied.one inferred
    obtain ⟨shape, resolved, inferred⟩ := bind_eq_ok.mp inferred
    cases pure_eq_ok.mp inferred
    have few : ¬mostAxes < shape.rank := fun many => by simp [valueFault?, many] at sound
    have volumes : volume t.shape = volume shape.extents := by
      rw [← t.size_eq]
      exact conforms.size.trans (elements_of_resolve resolved).symm
    rw [viewOf_reshape conforms resolved, checkRank, if_neg few]
    refine ⟨⟨shape.extents, t.data, t.size_eq.trans volumes⟩, ?_, rfl, conforms.proper⟩
    exact dif_pos volumes
  | _ => cases view

/-! ### Faults in the place of values -/

/-- Where a fault stands in the place of a value, it is raised. -/
theorem computed_fault {f : Fault} (supplied : op.Supplied signatures inputs)
    (inferred : op.infer signatures = .ok s) (fault : op.valueFault? signatures s = some f)
    (rank : Nat) : op.computed rank inputs = .error f := by
  have last {x : Signature} {t : Tensor Scalar} (conforms : t.Conforms x)
      (fault : (if x.shape.rank = 0 then some (Fault.plain .axis) else none) = some f) :
      lastAxis t = .error f := by
    split at fault
    next none =>
      cases fault
      exact if_pos (conforms.rank.trans none)
    · cases fault
  cases op with
  | crossEntropy smoothing =>
    obtain ⟨a, b, logits, labels, rfl, rfl, first, _⟩ := supplied.two inferred
    have raised : labelPlaces logits labels = .error f := by
      unfold labelPlaces
      rw [last first fault]
      rfl
    change (labelPlaces logits labels >>= fun _ => _) = _
    rw [raised]
    rfl
  | layerNorm eps =>
    obtain ⟨x, rest, rfl, _⟩ := layerNormRule_eq_ok inferred
    cases supplied.conform with
    | cons head _ =>
      change (lastAxis _ >>= fun _ => _) = _
      rw [last head fault]
      rfl
  | reshape requested =>
    obtain ⟨a, t, rfl, rfl, conforms, _, inferred⟩ := supplied.one inferred
    obtain ⟨shape, resolved, inferred⟩ := bind_eq_ok.mp inferred
    cases pure_eq_ok.mp inferred
    change (reshape requested).viewOf [t] = _
    rw [viewOf_reshape conforms resolved, checkRank]
    change (if mostAxes < shape.rank then some Fault.value else none) = some f at fault
    split at fault
    next many =>
      cases fault
      rw [if_pos many]
      rfl
    · cases fault
  | debug message observer =>
    cases observer with
    | graph => cases fault
    | refusing g =>
      cases fault
      rfl
  | _ => cases fault

/-! ### Inference is sound -/

/-- An operator of the library stores what it computes. -/
theorem forward_eq (catalogued : op.Catalogued) (type : StorageType) (extents : List Nat) :
    op.forward type extents inputs =
      op.value extents.length inputs >>= fun t => t.assign type extents := by
  cases op with
  | custom => cases catalogued
  | _ => rfl

/-- What an operator computes from inputs that its rule accepts has the inferred extents, so it is
stored as it is, not spread; or the one fault is raised that `valueFault?` names. -/
theorem infer_sound (catalogued : op.Catalogued) (supplied : op.Supplied signatures inputs)
    (inferred : op.infer signatures = .ok s) :
    (∀ f, op.valueFault? signatures s = some f →
      op.computed s.shape.rank inputs = .error f ∧
        (op.isView = false → op.forward s.type.storage s.shape.extents inputs = .error f)) ∧
    (op.valueFault? signatures s = none →
      ∃ t, op.computed s.shape.rank inputs = .ok t ∧ t.shape = s.shape.extents ∧
        (op.isView = false → op.forward s.type.storage s.shape.extents inputs =
          .ok (t.map (Element.store s.type.storage)))) := by
  refine ⟨fun f fault => ?_, fun sound => ?_⟩
  · have raised := computed_fault supplied inferred fault s.shape.rank
    refine ⟨raised, fun owned => ?_⟩
    have computed : op.value s.shape.extents.length inputs = .error f := by
      rwa [computed, owned] at raised
    rw [forward_eq catalogued, computed]
    rfl
  · unfold computed
    cases view : op.isView with
    | true =>
      obtain ⟨t, shown, shape, _⟩ := viewOf_produces supplied inferred view sound
      exact ⟨t, shown, shape, nofun⟩
    | false =>
      obtain ⟨t, made, shape, proper⟩ := value_produces supplied inferred catalogued view sound
      refine ⟨t, made, shape, fun _ => ?_⟩
      rw [forward_eq catalogued]
      refine bind_eq_ok.mpr ⟨t, made, ?_⟩
      rw [← shape]
      exact Tensor.assign_self proper _

end Operator

namespace Sample

/-- Two numbers in a row. -/
def couple : Tensor Scalar := ⟨[1, 2], #[.float64 1.0, .float64 2.0], rfl⟩

/-- Places in that row, counted from either end. -/
def picks : Tensor Scalar := ⟨[1, 3], #[.int .int64 (-1), .int .int64 0, .int .int64 1], rfl⟩

/-- The signatures of the row and of the places. -/
def picked : List Signature := [⟨⟨[1, 2], by decide⟩, .float64⟩, ⟨⟨[1, 3], by decide⟩, .int64⟩]

theorem picked_supplied : (Operator.gather Axis.last).Supplied picked [couple, picks] where
  conform := .cons ⟨rfl, by simp [Tensor.Typed, couple, Tensor.toList]; decide⟩
    (.cons ⟨rfl, by simp [Tensor.Typed, picks, Tensor.toList]; decide⟩ .nil)
  takes := rfl
  floats slot s found data := by
    rcases slot with _ | _ | slot
    · cases found
      rfl
    · exact absurd rfl data
    · cases found
  inRange i resolved x mem := by
    cases resolved
    have places : ∀ x ∈ picks.toList, ∃ n ∈ [-1, 0, 1], x = .int .int64 n := by
      simp [picks, Tensor.toList]
    obtain ⟨n, inside, rfl⟩ := places x mem
    exact ⟨_, n, rfl, (by decide : ∀ n ∈ [-1, 0, 1], OnAxis 2 n) n inside⟩
  countable := by decide

/-- What is gathered from the row has the extents of the places. -/
theorem picked_gathered :
    ∃ t, (Operator.gather Axis.last).computed 2 [couple, picks] = .ok t ∧ t.shape = [1, 3] ∧
      (Operator.gather Axis.last).forward .float64 [1, 3] [couple, picks] =
        .ok (t.map (Element.store .float64)) := by
  have catalogued : (Operator.gather Axis.last : Operator Scalar).Catalogued := trivial
  obtain ⟨t, made, shape, stored⟩ := (Operator.infer_sound catalogued picked_supplied
    (s := ⟨⟨[1, 3], by decide⟩, .float64⟩) rfl).2 rfl
  exact ⟨t, made, shape, stored rfl⟩

/-- A number without axes. -/
def bare : Tensor Scalar := ⟨[], #[.float64 2.0], rfl⟩

/-- A label without axes. -/
def label : Tensor Scalar := ⟨[], #[.int .int64 0], rfl⟩

/-- The signatures of the number and of its label. -/
def labelled : List Signature := [⟨.scalar, .float64⟩, ⟨.scalar, .int64⟩]

theorem labelled_supplied : (Operator.crossEntropy 0.0).Supplied labelled [bare, label] where
  conform := .cons ⟨rfl, List.forall_mem_singleton.mpr rfl⟩
    (.cons ⟨rfl, List.forall_mem_singleton.mpr rfl⟩ .nil)
  takes := rfl
  floats slot s found data := by
    match slot with
    | 0 =>
      cases found
      rfl
    | 1 => exact absurd rfl data
    | _ + 2 => cases found
  inRange x mem := ⟨_, 0, List.mem_singleton.mp mem, by decide, by decide⟩
  countable := by decide

/-- The cross entropy of a number without axes is accepted, and its computation fails for want of an
axis; the softmax of that number is refused. -/
theorem unranked_entropy :
    (Operator.crossEntropy 0.0).Supplied labelled [bare, label] ∧
      (Operator.crossEntropy 0.0 : Operator Scalar).infer labelled =
        .ok ⟨⟨[1], by decide⟩, .float64⟩ ∧
      (Operator.crossEntropy 0.0).computed 1 [bare, label] = .error (.plain .axis) ∧
      (Operator.crossEntropy 0.0).forward .float64 [1] [bare, label] = .error (.plain .axis) ∧
      (Operator.softmax Axis.last : Operator Scalar).infer (labelled.take 1) =
        .error (.axisOutOfRange (-1) "0") :=
  ⟨labelled_supplied, rfl, rfl, rfl, by decide⟩

end Sample

end ReverseMode
