import ReverseMode.Proofs.CrossEntropy
import ReverseMode.Proofs.Inference
import ReverseMode.Proofs.Picks
import ReverseMode.Proofs.Slicing

/-!
Lookups at stored integers.

Three operators look elements up at the places of an axis that an array of indices names. They
answer if and only if every index lies on the axis, counted from either end. What they answer holds
at every position what is looked up at the one place that the index for that position names
(`Lookup.Looks`); an index that is off the axis stands for no place.
-/

namespace ReverseMode

open scoped Element Scalar

/-- A pass over a list that answers has answers item by item. -/
theorem forall₂_of_mapM {β γ : Type} {f : β → Except Fault γ} {xs : List β} {ys : List γ}
    (mapped : xs.mapM f = .ok ys) : List.Forall₂ (fun x y => f x = .ok y) xs ys := by
  induction xs generalizing ys with
  | nil =>
    cases mapped
    exact .nil
  | cons x xs ih =>
    rw [List.mapM_cons, bind_eq_ok] at mapped
    obtain ⟨y, first, mapped⟩ := mapped
    obtain ⟨rest, others, mapped⟩ := bind_eq_ok.mp mapped
    rw [← pure_eq_ok.mp mapped]
    exact .cons first (ih others)

theorem mapM_eq_ok_of_mem {β γ : Type} {f : β → Except Fault γ} {xs : List β} {ys : List γ}
    (mapped : xs.mapM f = .ok ys) {x : β} (mem : x ∈ xs) : ∃ y ∈ ys, f x = .ok y := by
  have answers := forall₂_of_mapM mapped
  clear mapped
  induction answers with
  | nil => cases mem
  | cons first _ ih =>
    rcases List.mem_cons.mp mem with rfl | mem
    · exact ⟨_, List.mem_cons_self, first⟩
    · obtain ⟨y, inside, found⟩ := ih mem
      exact ⟨y, List.mem_cons_of_mem _ inside, found⟩

/-- What an integer wraps to is named on the axis, so the integer lies on it. -/
theorem OnAxis.of_wrap {extent place : Nat} {n : Int} (wrapped : Axis.wrap? n extent = some place) :
    OnAxis extent n := by
  obtain ⟨small, front | back⟩ := Axis.names_iff.mpr wrapped
  · exact ⟨by omega, by omega⟩
  · exact ⟨by omega, by omega⟩

namespace Tensor

variable {extent : Nat}

/-- Where all places are found, every index is read as an integer on the axis. -/
theorem placesBy_on {α : Type} {position : α → Except Fault Int} {indices : Tensor α}
    {places : Tensor Nat} (found : placesBy extent position indices = .ok places) :
    ∀ x ∈ indices.toList, ∃ n, position x = .ok n ∧ OnAxis extent n := by
  intro x mem
  obtain ⟨numbers, read, found⟩ := bind_eq_ok.mp found
  obtain ⟨listed, named, _⟩ := bind_eq_ok.mp found
  obtain ⟨n, inside, is⟩ := mapM_eq_ok_of_mem read mem
  obtain ⟨place, _, at'⟩ := mapM_eq_ok_of_mem named inside
  refine ⟨n, is, ?_⟩
  unfold placeOf at at'
  cases wrapped : Axis.wrap? n extent with
  | some place => exact .of_wrap wrapped
  | none =>
    rw [wrapped] at at'
    cases at'

/-! ### Indices of 32 bits -/

variable {m : Tensor Int} (fits : ∀ j ∈ m.toList, IntegerType.int32.fits j = true)

/-- An integer of 32 bits is read as the position that it is. -/
theorem position_stored {j : Int} (fits : IntegerType.int32.fits j = true) :
    Element.position? (Scalar.int .int32 j) = some j ∧
      Element.position (Scalar.int .int32 j) = j := by
  have range := IntegerType.fits_int32.mp fits
  have wide : IntegerType.int64.fits j = true := IntegerType.fits_int64.mpr (by omega)
  exact ⟨rfl, IntegerType.wrap_of_fits wide⟩

/-- Indices whose places are found lie on the axis, however they are read and laid out. -/
theorem on_of_placesBy {position : Scalar → Except Fault Int} {indices : Tensor Scalar}
    {places : Tensor Nat} (same : indices.toList = (m.stored .int32).toList)
    (reads : ∀ j ∈ m.toList, position (.int .int32 j) = .ok j)
    (found : placesBy extent position indices = .ok places) :
    ∀ j ∈ m.toList, OnAxis extent j := by
  intro j inside
  have mem : Scalar.int .int32 j ∈ indices.toList := by
    rw [same, stored, toList_map]
    exact List.mem_map_of_mem inside
  obtain ⟨n, read, on⟩ := placesBy_on found _ mem
  obtain rfl := Except.ok.inj ((reads j inside).symm.trans read)
  exact on

include fits

theorem points_stored (on : ∀ j ∈ m.toList, OnAxis extent j) :
    ∀ x ∈ (m.stored .int32).toList, Element.Points extent x := by
  intro x mem
  obtain ⟨j, inside, rfl⟩ := mem_stored mem
  obtain ⟨exact, number⟩ := position_stored (fits j inside)
  exact ⟨by rw [exact, number], number.symm ▸ on j inside⟩

/-- The place that is found for an index is the one that the integer names. -/
theorem names_stored (on : ∀ j ∈ m.toList, OnAxis extent j) {p : List Nat}
    (inside : p ∈ positions m.shape) :
    Axis.Names extent (m.get p) (((m.stored .int32).named extent).get p) := by
  have there : p ∈ positions (m.stored .int32).shape := inside
  have named := names_named (points_stored fits on) there
  have entry : (m.stored .int32).get p = Scalar.int .int32 (m.get p) := get_map _ inside
  rwa [entry, (position_stored (fits _ (get_mem inside))).2] at named

theorem on_of_placeTensor {indices : Tensor Scalar} {places : Tensor Nat}
    (same : indices.toList = (m.stored .int32).toList)
    (found : placeTensor extent indices = .ok places) : ∀ j ∈ m.toList, OnAxis extent j :=
  on_of_placesBy same (fun j inside => congrArg Except.ok (position_stored (fits j inside)).2) found

theorem on_of_exactPlaces {places : Tensor Nat}
    (found : exactPlaces extent (m.stored .int32) = .ok places) :
    ∀ j ∈ m.toList, OnAxis extent j :=
  on_of_placesBy rfl (fun j inside => by rw [(position_stored (fits j inside)).1]) found

end Tensor

/-! ### Three operators -/

/-- The operators that look elements up at the places of an axis that indices name. -/
inductive Lookup where
  | gather (axis : Axis)
  | indexSelect (axis : Axis)
  | crossEntropy (smoothing : Float)

namespace Lookup

open Tensor

def operator : Lookup → Operator Scalar
  | gather axis => .gather axis
  | indexSelect axis => .indexSelect axis
  | crossEntropy smoothing => .crossEntropy smoothing

/-- The axis whose places are named. -/
def axis : Lookup → Axis
  | gather axis | indexSelect axis => axis
  | crossEntropy _ => .last

/-- Where the index is that belongs to a position of the output. -/
def entry (l : Lookup) (i rank : Nat) (q : List Nat) : List Nat :=
  match l with
  | gather _ => q
  | indexSelect _ => [q.getD i 0]
  | crossEntropy _ => q.take rank

/-- What the output holds at a position whose index names a place. -/
def element (l : Lookup) (type : StorageType) (i : Nat) (a : Tensor Scalar) (q : List Nat)
    (place : Nat) : Scalar :=
  match l with
  | gather _ | indexSelect _ => a.get (q.set i place)
  | crossEntropy smoothing => (Fibre.crossEntropy smoothing place (a.fibre i q)).store type

/-- An output of a signature that holds at every position what is looked up at the place that its
index names. -/
structure Looks (l : Lookup) (s : Signature) (i : Nat) (a : Tensor Scalar) (m : Tensor Int)
    (y : Tensor Scalar) : Prop where
  shape : y.shape = s.shape.extents
  inside : ∀ q ∈ positions y.shape, l.entry i m.rank q ∈ positions m.shape
  shown : ∀ q ∈ positions y.shape, ∃ place,
    Axis.Names (a.extent i) (m.get (l.entry i m.rank q)) place ∧
      y.get q = l.element s.type.storage i a q place

variable {l : Lookup} {sa sb s : Signature} {a : Tensor Scalar} {m : Tensor Int} {i : Nat}

theorem forward_eq (l : Lookup) (type : StorageType) (extents : List Nat)
    (inputs : List (Tensor Scalar)) : l.operator.forward type extents inputs =
      l.operator.value extents.length inputs >>= fun t => t.assign type extents := by
  cases l <;> rfl

/-- The output has the type of what is looked up. -/
theorem infer_type (inferred : l.operator.infer [sa, sb] = .ok s) : s.type = sa.type := by
  cases l with
  | gather axis =>
    have inferred : Operator.gatherRule axis sa sb = .ok s := inferred
    obtain ⟨_, _, inferred⟩ := bind_eq_ok.mp inferred
    obtain ⟨_, _, inferred⟩ := bind_eq_ok.mp inferred
    obtain ⟨_, inferred⟩ := Operator.throw_unless.mp inferred
    cases pure_eq_ok.mp inferred
    rfl
  | indexSelect axis =>
    have inferred : Operator.indexSelectRule axis sa sb = .ok s := inferred
    obtain ⟨_, _, inferred⟩ := bind_eq_ok.mp inferred
    obtain ⟨_, inferred⟩ := Operator.throw_unless.mp inferred
    obtain ⟨_, _, inferred⟩ := bind_eq_ok.mp inferred
    obtain ⟨_, _, inferred⟩ := bind_eq_ok.mp inferred
    cases pure_eq_ok.mp inferred
    rfl
  | crossEntropy smoothing =>
    have inferred : Operator.labelRule sa sb = .ok s := inferred
    obtain ⟨_, _, inferred⟩ := bind_eq_ok.mp inferred
    obtain ⟨_, inferred⟩ := Operator.throw_unless.mp inferred
    obtain ⟨_, inferred⟩ := Operator.throw_unless.mp inferred
    obtain ⟨_, _, inferred⟩ := bind_eq_ok.mp inferred
    cases pure_eq_ok.mp inferred
    rfl

/-- Elements that are moved are answered as they are. -/
theorem forward_moved {lead : List Nat → List Nat} {inputs : List (Tensor Scalar)}
    (held : a.HeldIn s.type.storage)
    (leads : ∀ q ∈ positions s.shape.extents, lead q ∈ positions a.shape)
    (made : l.operator.value s.shape.extents.length inputs =
      .ok (.ofFn s.shape.extents fun q => a.get (lead q))) :
    l.operator.forward s.type.storage s.shape.extents inputs =
      .ok (.ofFn s.shape.extents fun q => a.get (lead q)) := by
  rw [forward_eq]
  refine bind_eq_ok.mpr ⟨_, made, ?_⟩
  refine Tensor.HeldIn.assign fun x mem => ?_
  obtain ⟨q, here, rfl⟩ := mem_toList_ofFn.mp mem
  exact held _ (get_mem (leads q here))

/-- The label of a fibre is found at its position among the labels. -/
theorem take_column {batch p labels : List Nat} (held : labels = batch ∨ labels = batch ++ [1])
    (inside : p ∈ positions (batch ++ [1])) : p.take labels.length ∈ positions labels := by
  rcases held with rfl | rfl
  · exact (offset_column inside).1
  · rwa [← (mem_positions_getD.mp inside).1, List.take_length]

/-- The entropy is computed of floats only. -/
theorem crossEntropy_float {smoothing : Float}
    (inferred : (crossEntropy smoothing).operator.infer [sa, sb] = .ok s) :
    sa.type.isFloat = true := by
  have inferred : Operator.labelRule sa sb = .ok s := inferred
  obtain ⟨_, float, _⟩ := bind_eq_ok.mp inferred
  unfold ElementType.requireFloat at float
  split at float
  · assumption
  · cases float

/-! ### Indices on the axis -/

section Indices

variable (shape : a.shape = sa.shape.extents) (held : a.HeldIn sa.type.storage)
  (indices : m.shape = sb.shape.extents) (fits : ∀ j ∈ m.toList, IntegerType.int32.fits j = true)

include shape fits

/-- Whatever is answered, every index lies on the axis. -/
theorem on_of_value (resolved : l.axis.resolve sa.shape.rank = .ok i) {rank : Nat}
    {t : Tensor Scalar} (made : l.operator.value rank [a, m.stored .int32] = .ok t) :
    ∀ j ∈ m.toList, OnAxis (a.extent i) j := by
  have same : a.rank = sa.shape.rank := congrArg List.length shape
  rw [← same] at resolved
  cases l with
  | gather axis =>
    obtain ⟨_, given, made⟩ := bind_eq_ok.mp made
    cases given
    obtain ⟨i', resolved', made⟩ := bind_eq_ok.mp made
    obtain rfl := Except.ok.inj (resolved.symm.trans resolved')
    obtain ⟨_, made⟩ := Operator.throw_unless.mp made
    cases joined : broadcast? [(m.stored .int32).shape, a.shape.set i 1] with
    | none =>
      rw [joined] at made
      cases made
    | some shape =>
      rw [joined] at made
      obtain ⟨places, found, _⟩ := bind_eq_ok.mp made
      exact on_of_placeTensor fits rfl found
  | indexSelect axis =>
    obtain ⟨_, given, made⟩ := bind_eq_ok.mp made
    cases given
    obtain ⟨i', resolved', made⟩ := bind_eq_ok.mp made
    obtain rfl := Except.ok.inj (resolved.symm.trans resolved')
    obtain ⟨places, found, _⟩ := bind_eq_ok.mp made
    exact on_of_exactPlaces fits found
  | crossEntropy smoothing =>
    obtain ⟨_, given, made⟩ := bind_eq_ok.mp made
    cases given
    obtain ⟨places, found, _⟩ := bind_eq_ok.mp made
    obtain ⟨last, is, found⟩ := bind_eq_ok.mp found
    obtain ⟨flat, reshaped, found⟩ := bind_eq_ok.mp found
    have ranked : a.rank ≠ 0 := Nat.ne_zero_of_lt (Axis.resolve_lt resolved)
    have resolved' := Axis.last_resolve (Nat.pos_of_ne_zero ranked)
    obtain rfl := Except.ok.inj (resolved.symm.trans resolved')
    rw [Operator.lastAxis, if_neg ranked] at is
    cases is
    exact on_of_placeTensor fits (toList_reshape reshaped).1 found

include indices held

theorem gather_looks {axis : Axis} (resolved : axis.resolve sa.shape.rank = .ok i)
    (inferred : (gather axis).operator.infer [sa, sb] = .ok s)
    (on : ∀ j ∈ m.toList, OnAxis (a.extent i) j) :
    ∃ y, (gather axis).operator.forward s.type.storage s.shape.extents [a, m.stored .int32] =
      .ok y ∧ (gather axis).Looks s i a m y := by
  have type := infer_type inferred
  obtain ⟨i', resolved', extents, agree⟩ := Operator.gatherRule_eq_ok inferred
  obtain rfl := Except.ok.inj (resolved.symm.trans resolved')
  have extents : s.shape.extents = m.shape := by rw [extents, indices]
  have same : a.rank = sa.shape.rank := congrArg List.length shape
  rw [← same] at resolved
  rw [← shape, ← indices] at agree
  let lead (q : List Nat) : List Nat := q.set i (((m.stored .int32).named (a.extent i)).get q)
  have leads : ∀ q ∈ positions s.shape.extents, lead q ∈ positions a.shape := by
    intro q here
    rw [extents] at here
    exact set_mem_outside agree here (names_stored fits on here).1
  have made := Operator.gather_value resolved agree (points_stored fits on) s.shape.extents.length
  refine ⟨_, forward_moved (type ▸ held) leads ?_, rfl, fun q here => ?_, fun q here => ?_⟩
  · rw [extents] at made ⊢
    exact made
  · exact extents ▸ here
  · exact ⟨_, names_stored fits on (extents ▸ here), get_ofFn here⟩

theorem indexSelect_looks {axis : Axis} (resolved : axis.resolve sa.shape.rank = .ok i)
    (inferred : (indexSelect axis).operator.infer [sa, sb] = .ok s)
    (on : ∀ j ∈ m.toList, OnAxis (a.extent i) j) :
    ∃ y, (indexSelect axis).operator.forward s.type.storage s.shape.extents [a, m.stored .int32] =
      .ok y ∧ (indexSelect axis).Looks s i a m y := by
  have type := infer_type inferred
  obtain ⟨_, k, i', list, resolved', extents⟩ := Operator.indexSelectRule_eq_ok inferred
  obtain rfl := Except.ok.inj (resolved.symm.trans resolved')
  have axial : i < a.shape.length := shape ▸ Axis.resolve_lt resolved
  have list : m.shape = [k] := indices.trans list
  have same : a.rank = sa.shape.rank := congrArg List.length shape
  rw [← same] at resolved
  rw [← shape] at extents
  have entry : ∀ q ∈ positions s.shape.extents, [q.getD i 0] ∈ positions m.shape := by
    intro q here
    rw [extents] at here
    rw [list]
    simpa [positions] using getD_lt_of_set axial here
  let lead (q : List Nat) : List Nat :=
    q.set i (((m.stored .int32).named (a.extent i)).get [q.getD i 0])
  have leads : ∀ q ∈ positions s.shape.extents, lead q ∈ positions a.shape := by
    intro q here
    have named := (names_stored fits on (entry q here)).1
    rw [extents] at here
    exact replaced_mem here named
  have made := Operator.indexSelect_value resolved list (points_stored fits on)
    s.shape.extents.length
  refine ⟨_, forward_moved (type ▸ held) leads ?_, rfl, entry, fun q here => ?_⟩
  · rw [extents] at made ⊢
    exact made
  · exact ⟨_, names_stored fits on (entry q here), get_ofFn here⟩

omit held indices fits in
/-- What a resolved last axis says about an array. -/
theorem last_axis (resolved : Axis.last.resolve sa.shape.rank = .ok i) :
    i < a.shape.length ∧ a.shape ≠ [] ∧ i = a.rank - 1 := by
  have axial : i < a.shape.length := shape ▸ Axis.resolve_lt resolved
  have positive : 0 < a.shape.length := Nat.zero_lt_of_lt axial
  have same : a.rank = sa.shape.rank := congrArg List.length shape
  rw [← same] at resolved
  exact ⟨axial, List.length_pos_iff.mp positive,
    Except.ok.inj (resolved.symm.trans (Axis.last_resolve positive))⟩

omit held fits in
/-- The labels have the shape of the batch, with or without an axis for the classes. -/
theorem labels_shape {smoothing : Float}
    (inferred : (crossEntropy smoothing).operator.infer [sa, sb] = .ok s) :
    m.shape = a.shape.dropLast ∨ m.shape = a.shape.dropLast ++ [1] := by
  rw [indices, shape]
  exact (Operator.labelRule_eq_ok inferred).1

omit held in
/-- The labels of the fibres name places, each the one that its integer names. -/
theorem labels_stored {smoothing : Float} (resolved : Axis.last.resolve sa.shape.rank = .ok i)
    (inferred : (crossEntropy smoothing).operator.infer [sa, sb] = .ok s)
    (on : ∀ j ∈ m.toList, OnAxis (a.extent i) j) :
    ∃ places, Operator.labelPlaces a (m.stored .int32) = .ok places ∧
      s.shape.extents = a.shape.set i 1 ∧ ∀ q ∈ positions (a.shape.set i 1),
        q.take m.rank ∈ positions m.shape ∧
          Axis.Names (a.extent i) (m.get (q.take m.rank)) (places.get q) := by
  obtain ⟨-, ranked, rfl⟩ := last_axis shape resolved
  have shapes : (m.stored .int32).shape = sb.shape.extents := indices
  obtain ⟨_, places, _, rfl, extents, found, named⟩ := Operator.crossEntropy_labels inferred ranked
    ⟨shape, shapes⟩ (points_stored fits on)
  refine ⟨places, found, extents, fun q here => ?_⟩
  have inside : q.take m.rank ∈ positions m.shape := by
    refine take_column (labels_shape shape indices inferred) ?_
    rwa [Tensor.rank, Operator.set_last ranked] at here
  have entry : (m.stored .int32).get (q.take m.rank) = .int .int32 (m.get (q.take m.rank)) :=
    get_map _ inside
  have label := named q here
  change Axis.Names _ (Element.position ((m.stored .int32).get (q.take m.rank))) _ at label
  rw [entry, (position_stored (fits _ (get_mem inside))).2] at label
  exact ⟨inside, label⟩

omit fits in
/-- The entropies of the fibres whose labels have been found can be stored. -/
theorem entropies_proper {smoothing : Float} (resolved : Axis.last.resolve sa.shape.rank = .ok i)
    (inferred : (crossEntropy smoothing).operator.infer [sa, sb] = .ok s) (few : a.size < 2 ^ 63)
    (on : ∀ j ∈ m.toList, OnAxis (a.extent i) j) {places : Tensor Nat}
    (found : Operator.labelPlaces a (m.stored .int32) = .ok places) (rank : Nat) :
    (Operator.crossEntropy smoothing).value rank [a, m.stored .int32] =
      .ok (a.mapAxisAt i 1 fun p xs => [Fibre.crossEntropy smoothing (places.get p) xs]) ∧
    (a.mapAxisAt i 1 fun p xs => [Fibre.crossEntropy smoothing (places.get p) xs]).Proper := by
  obtain ⟨-, ranked, rfl⟩ := last_axis shape resolved
  have conforms : a.Conforms sa := ⟨shape, fun x mem => (held x mem).1⟩
  have floats := conforms.floats (crossEntropy_float inferred)
  have names : ∀ x ∈ (m.stored .int32).toList, x.Names (a.extent (a.rank - 1)) := by
    intro x mem
    obtain ⟨j, inside, rfl⟩ := mem_stored mem
    exact ⟨.int32, j, rfl, on j inside⟩
  have short := floats.extent_le_size (Operator.lastAxis_eq ranked).2
  have made : (Operator.crossEntropy smoothing).value rank [a, m.stored .int32] = .ok _ :=
    bind_eq_ok.mpr ⟨_, rfl, bind_eq_ok.mpr ⟨places, found, rfl⟩⟩
  obtain ⟨t, made', -, proper⟩ : Produces
      ((Operator.crossEntropy smoothing).value rank [a, m.stored .int32]) _ :=
    Operator.crossEntropy_produces smoothing floats ranked (labels_shape shape indices inferred)
      names (by omega)
  obtain rfl := Except.ok.inj (made.symm.trans made')
  exact ⟨made, proper⟩

theorem crossEntropy_looks {smoothing : Float} (resolved : Axis.last.resolve sa.shape.rank = .ok i)
    (inferred : (crossEntropy smoothing).operator.infer [sa, sb] = .ok s) (few : a.size < 2 ^ 63)
    (on : ∀ j ∈ m.toList, OnAxis (a.extent i) j) :
    ∃ y, (crossEntropy smoothing).operator.forward s.type.storage s.shape.extents
      [a, m.stored .int32] = .ok y ∧ (crossEntropy smoothing).Looks s i a m y := by
  obtain ⟨axial, -, -⟩ := last_axis shape resolved
  obtain ⟨places, found, extents, named⟩ := labels_stored shape indices fits resolved inferred on
  obtain ⟨made, proper⟩ := entropies_proper shape held indices resolved inferred few on found
    s.shape.extents.length
  let entropies := a.mapAxisAt i 1 fun p xs => [Fibre.crossEntropy smoothing (places.get p) xs]
  refine ⟨entropies.map (Element.store s.type.storage), ?_, extents.symm,
    fun q here => (named q here).1, fun q here => ⟨places.get q, (named q here).2, ?_⟩⟩
  · rw [forward_eq, extents]
    rw [extents] at made
    exact bind_eq_ok.mpr ⟨entropies, made, assign_self proper _⟩
  · have here : q ∈ positions entropies.shape := here
    rw [get_map _ here, get_leave axial here]
    rfl

/-- Where every index lies on the axis, the lookup answers. -/
theorem answers_on (resolved : l.axis.resolve sa.shape.rank = .ok i)
    (inferred : l.operator.infer [sa, sb] = .ok s) (few : a.size < 2 ^ 63)
    (on : ∀ j ∈ m.toList, OnAxis (a.extent i) j) :
    ∃ y, l.operator.forward s.type.storage s.shape.extents [a, m.stored .int32] = .ok y ∧
      l.Looks s i a m y := by
  cases l with
  | gather axis => exact gather_looks shape held indices fits resolved inferred on
  | indexSelect axis => exact indexSelect_looks shape held indices fits resolved inferred on
  | crossEntropy smoothing =>
    exact crossEntropy_looks shape held indices fits resolved inferred few on

/-- A lookup answers if and only if every index lies on the axis, with what is looked up. -/
theorem forward_iff (resolved : l.axis.resolve sa.shape.rank = .ok i)
    (inferred : l.operator.infer [sa, sb] = .ok s) (few : a.size < 2 ^ 63) :
    ((∃ y, l.operator.forward s.type.storage s.shape.extents [a, m.stored .int32] = .ok y) ↔
      ∀ j ∈ m.toList, OnAxis (a.extent i) j) ∧
    ∀ y, l.operator.forward s.type.storage s.shape.extents [a, m.stored .int32] = .ok y →
      l.Looks s i a m y := by
  have answers := answers_on shape held indices fits resolved inferred few
  have on : ∀ y, l.operator.forward s.type.storage s.shape.extents [a, m.stored .int32] = .ok y →
      ∀ j ∈ m.toList, OnAxis (a.extent i) j := by
    intro y made
    rw [forward_eq] at made
    obtain ⟨t, made, _⟩ := bind_eq_ok.mp made
    exact on_of_value shape fits resolved made
  refine ⟨⟨fun ⟨y, made⟩ => on y made, fun on => ?_⟩, fun y made => ?_⟩
  · obtain ⟨y, made, _⟩ := answers on
    exact ⟨y, made⟩
  · obtain ⟨y', made', looks⟩ := answers (on y made)
    obtain rfl := Except.ok.inj (made.symm.trans made')
    exact looks

omit held indices fits in
/-- What has no such axis is looked up in without an answer. -/
theorem forward_unresolved {f : Fault} (unresolved : l.axis.resolve sa.shape.rank = .error f)
    (inferred : l.operator.infer [sa, sb] = .ok s) {indices y : Tensor Scalar} :
    l.operator.forward s.type.storage s.shape.extents [a, indices] ≠ .ok y := by
  intro made
  cases l with
  | gather axis =>
    obtain ⟨i, resolved, _⟩ := Operator.gatherRule_eq_ok inferred
    cases unresolved.symm.trans resolved
  | indexSelect axis =>
    obtain ⟨_, _, i, _, resolved, _⟩ := Operator.indexSelectRule_eq_ok inferred
    cases unresolved.symm.trans resolved
  | crossEntropy smoothing =>
    rw [forward_eq] at made
    obtain ⟨t, made, _⟩ := bind_eq_ok.mp made
    obtain ⟨_, given, made⟩ := bind_eq_ok.mp made
    cases given
    obtain ⟨places, found, _⟩ := bind_eq_ok.mp made
    obtain ⟨last, is, _⟩ := bind_eq_ok.mp found
    have same : a.rank = sa.shape.rank := congrArg List.length shape
    cases ranked : a.rank with
    | zero =>
      rw [Operator.lastAxis, if_pos ranked] at is
      cases is
    | succ rank =>
      have axes : 0 < sa.shape.rank := by omega
      have resolved := Axis.last_resolve axes
      cases unresolved.symm.trans resolved

end Indices

end Lookup

end ReverseMode
