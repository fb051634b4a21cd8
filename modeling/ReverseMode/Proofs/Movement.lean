import ReverseMode.Proofs.Blocks
import ReverseMode.Proofs.Picks

/-!
Moving elements forward and gradients back.

Where the shape rule of an operator that moves elements accepts its inputs, what `Relocates` asks of
its steps is so: the output holds the elements that the index rule names, and an input element is
given the sum over the positions that hold it. Both follow for all of these operators at once, in
every commutative ring, and with them that the backward step is the transpose of the forward step. A
slice of joined arrays where one of them was laid undoes the joining there.
-/

namespace ReverseMode

open scoped Element

namespace Operator

variable {α : Type}

/-- The operators that move elements. -/
def Moves : Operator α → Prop
  | transpose _ | reshape _ | concatenate _ | slice _ _ | indexSelect _ | gather _ => True
  | _ => False

/-- Indices name places of the axis, counted from either end. -/
def Indexed [Element α] (op : Operator α) (ts : List (Tensor α)) : Prop :=
  match op, ts with
  | indexSelect axis, [a, indices] | gather axis, [a, indices] =>
    ∀ i, axis.resolve a.rank = .ok i → ∀ x ∈ indices.toList, Element.Points (a.extent i) x
  | _, _ => True

/-- The slice of joined arrays that covers the one in a slot. -/
def blockSlice (axis : Axis) (i : Nat) (ts : List (Tensor α)) (slot width : Nat) : Operator α :=
  slice axis (blockSelection i ts slot width)

/-- What is moved is data. -/
theorem Fetches.data [Element α] {op : Operator α} {ts : List (Tensor α)}
    {extents q p : List Nat} {k : Nat} (fetches : op.Fetches ts extents q k p) :
    op.indexSlot? ≠ some k := by
  cases fetches <;> nofun

section Inputs

variable {inputs : List (Node α)}

/-- The only node whose signature a rule is given. -/
theorem only_node {a : Signature} (given : only (inputs.map Node.signature) = .ok a) :
    ∃ n, inputs = [n] ∧ n.signature = a :=
  List.map_eq_singleton_iff.mp (only_eq_ok given)

/-- The two nodes whose signatures a rule is given. -/
theorem both_nodes {a b : Signature} (given : both (inputs.map Node.signature) = .ok (a, b)) :
    ∃ m n, inputs = [m, n] ∧ m.signature = a ∧ n.signature = b := by
  obtain ⟨m, rest, rfl, first, last⟩ := List.map_eq_cons_iff.mp (both_eq_ok given)
  obtain ⟨n, rfl, second⟩ := List.map_eq_singleton_iff.mp last
  exact ⟨m, n, rfl, first, second⟩

end Inputs

end Operator

namespace Element.Reading

open Operator Tensor

variable {α R : Type} [Element α] [CommRing R] {s : Stamp}

/-- The application of an operator that moves elements to some nodes: the rule accepts them, their
arrays have their extents and hold data or indices, and what is viewed has no more axes than an
array can have. -/
structure Movement (ρ : Element.Reading α R s.type.storage) (op : Operator α)
    (inputs : List (Node α)) (x : Node α → Tensor α) : Prop where
  moves : op.Moves
  inferred : op.infer (inputs.map Node.signature) = .ok ⟨s.shape, s.type⟩
  unique : ∀ m ∈ inputs, ∀ n ∈ inputs, m.id = n.id → m = n
  shapes : ∀ n ∈ inputs, (x n).shape = n.shape.extents
  data : ∀ k n, inputs[k]? = some n → op.indexSlot? ≠ some k → ρ.Holds (x n)
  indexed : op.Indexed (inputs.map x)
  viewed : ∀ target, op = Operator.reshape target → s.shape.rank ≤ mostAxes

/-- An array of the extents of an output that holds at every position one element of one input, the
one that the index rule names. -/
structure Arranged (ρ : Element.Reading α R s.type.storage) (op : Operator α)
    (ts : List (Tensor α)) (y : Tensor α) : Prop where
  shape : y.shape = s.shape.extents
  holds : ρ.Holds y
  named : ∀ q ∈ positions s.shape.extents, ∃! place : Nat × List Nat,
    (∃ t, ts[place.1]? = some t ∧ place.2 ∈ positions t.shape) ∧
      op.Fetches ts s.shape.extents q place.1 place.2
  entry : ∀ q ∈ positions s.shape.extents, ∀ k t p, ts[k]? = some t → p ∈ positions t.shape →
    op.Fetches ts s.shape.extents q k p → ρ.entry y q = ρ.entry t p

variable {ρ : Element.Reading α R s.type.storage} {op : Operator α} {inputs : List (Node α)}
variable {x : Node α → Tensor α} {g : Tensor α}

/-! ### What the rules accept -/

/-- The array of an input has the extents that the rule was told. -/
theorem Movement.conforms (movement : ρ.Movement op inputs x) {n : Node α} (input : n ∈ inputs) :
    (x n).shape = n.signature.shape.extents ∧ (x n).rank = n.signature.shape.rank ∧
      ∀ i, (x n).extent i = n.signature.shape.extent i := by
  have extents : (x n).shape = n.signature.shape.extents := movement.shapes n input
  exact ⟨extents, congrArg List.length extents, fun i => congrArg (fun e => e.getD i 1) extents⟩

/-- Nodes that are joined are laid end to end. -/
theorem Movement.laid {axis : Axis} (movement : ρ.Movement (concatenate axis) inputs x) :
    ∃ i, axis.resolve s.shape.rank = .ok i ∧ Laid i (inputs.map x) s.shape.extents ∧
      inputs.map x ≠ [] := by
  obtain ⟨first, rest, i, given, resolved, agree, extents⟩ := joinRule_eq_ok movement.inferred
  have axial : i < first.shape.extents.length := Axis.resolve_lt resolved
  have rank : s.shape.rank = first.shape.rank :=
    (congrArg List.length extents).trans List.length_set
  change s.shape.extents = _ at extents
  have total : (inputs.map x).map (fun t => t.extent i) =
      (inputs.map Node.signature).map fun a => a.shape.extent i := by
    rw [List.map_map, List.map_map]
    exact List.map_congr_left fun n input => (movement.conforms input).2.2 i
  refine ⟨i, rank ▸ resolved, ⟨?_, List.forall_mem_map.mpr fun n input => ?_, ?_⟩, ?_⟩
  · rw [extents, List.length_set]
    exact axial
  · obtain ⟨_, outside⟩ := agreeOutside_iff.mp (agree _ (List.mem_map_of_mem input))
    have back := congrArg (fun e => e.set i ((x n).extent i)) outside
    rw [List.set_set, List.set_set] at back
    rw [extents, List.set_set, ← back]
    change (x n).shape = n.shape.extents.set i _
    rw [← movement.shapes n input]
    exact (set_getD (x n).shape i 1).symm
  · rw [extents, getD_set axial, if_pos rfl, total]
    rfl
  · rintro none
    rw [List.map_eq_nil_iff.mp none] at given
    cases given

/-- The steps of all of the operators do what the index rules say. -/
theorem Movement.relocates (movement : ρ.Movement op inputs x) (replaces : ρ.Replaces)
    (same : g.shape = s.shape.extents) (gradient : ρ.Holds g) :
    ∃ source, ρ.Relocates op (inputs.map x) g source := by
  have positive : ∀ n ∈ inputs, ∀ e ∈ (x n).shape, 0 < e := fun n input =>
    movement.shapes n input ▸ n.shape.positive
  have inferred := movement.inferred
  have moves := movement.moves
  cases op with
  | transpose axes =>
    obtain ⟨a, given, inferred⟩ := bind_eq_ok.mp inferred
    obtain ⟨listed, permuted, inferred⟩ := bind_eq_ok.mp inferred
    obtain ⟨shape, made, inferred⟩ := bind_eq_ok.mp inferred
    obtain ⟨rfl, _⟩ := Signature.mk.inj (pure_eq_ok.mp inferred)
    obtain ⟨n, rfl, rfl⟩ := only_node given
    obtain ⟨_, rank, extent⟩ := movement.conforms (List.mem_singleton_self n)
    have held : ρ.Holds (x n) := movement.data 0 n rfl nofun
    refine ⟨_, transpose_relocates (rank ▸ permuted) ?_ same held gradient
      (positive n (by simp))⟩
    rw [← Shape.ofNats_eq_ok.mp made]
    exact List.map_congr_left fun i _ => (extent i).symm
  | reshape target =>
    obtain ⟨a, given, inferred⟩ := bind_eq_ok.mp inferred
    obtain ⟨shape, resolved, inferred⟩ := bind_eq_ok.mp inferred
    obtain ⟨rfl, _⟩ := Signature.mk.inj (pure_eq_ok.mp inferred)
    obtain ⟨n, rfl, rfl⟩ := only_node given
    obtain ⟨extents, _, _⟩ := movement.conforms (List.mem_singleton_self n)
    have size : (x n).size = n.signature.shape.elements :=
      (x n).size_eq.trans (congrArg volume extents)
    have held : ρ.Holds (x n) := movement.data 0 n rfl nofun
    exact ⟨_, reshape_relocates (size ▸ resolved) (movement.viewed target rfl) same held gradient
      (positive n (by simp))⟩
  | concatenate axis =>
    obtain ⟨i, resolved, laid, nonempty⟩ := movement.laid
    refine ⟨_, concatenate_relocates resolved laid nonempty same ?_ gradient
      (List.forall_mem_map.mpr positive)⟩
    refine List.forall_mem_map.mpr fun n input => ?_
    obtain ⟨k, found⟩ := List.mem_iff_getElem?.mp input
    exact movement.data k n found nofun
  | slice axis selection =>
    obtain ⟨a, i, listed, given, resolved, selected, inferred⟩ := infer_slice inferred
    obtain ⟨shape, made, inferred⟩ := bind_eq_ok.mp inferred
    obtain ⟨rfl, _⟩ := Signature.mk.inj (pure_eq_ok.mp inferred)
    obtain ⟨n, rfl, rfl⟩ := List.map_eq_singleton_iff.mp given
    obtain ⟨extents, rank, extent⟩ := movement.conforms (List.mem_singleton_self n)
    have held : ρ.Holds (x n) := movement.data 0 n rfl nofun
    refine ⟨_, slice_relocates replaces (rank ▸ resolved) (extent i ▸ selected) ?_ same held
      gradient⟩
    rw [extents]
    exact Shape.set_eq_ok (Axis.resolve_lt resolved) made
  | indexSelect axis =>
    obtain ⟨⟨a, b⟩, given, inferred⟩ := bind_eq_ok.mp inferred
    obtain ⟨_, n, i, list, resolved, extents⟩ := indexSelectRule_eq_ok inferred
    obtain ⟨m, ids, rfl, rfl, rfl⟩ := both_nodes given
    obtain ⟨first, rank, _⟩ := movement.conforms (n := m) (by simp)
    obtain ⟨second, _, _⟩ := movement.conforms (n := ids) (by simp)
    have held : ρ.Holds (x m) := movement.data 0 m rfl nofun
    exact ⟨_, indexSelect_relocates (rank ▸ resolved) (second.trans list)
      (movement.indexed i (rank ▸ resolved)) (first ▸ extents) same held gradient⟩
  | gather axis =>
    obtain ⟨⟨a, b⟩, given, inferred⟩ := bind_eq_ok.mp inferred
    obtain ⟨i, resolved, shape, agree⟩ := gatherRule_eq_ok inferred
    obtain ⟨m, ids, rfl, rfl, rfl⟩ := both_nodes given
    obtain ⟨first, rank, _⟩ := movement.conforms (n := m) (by simp)
    obtain ⟨second, _, _⟩ := movement.conforms (n := ids) (by simp)
    have held : ρ.Holds (x m) := movement.data 0 m rfl nofun
    have extents : s.shape.extents = (x ids).shape :=
      (congrArg Shape.extents shape).trans second.symm
    exact ⟨_, gather_relocates (rank ▸ resolved) (first ▸ second ▸ agree)
      (movement.indexed i (rank ▸ resolved)) extents same held gradient⟩
  | _ => cases moves

/-! ### The output -/

/-- The rule names a place for every position. -/
theorem Relocates.fetched {source : List Nat → Nat × List Nat} {ts : List (Tensor α)}
    (relocates : ρ.Relocates op ts g source) :
    ∀ q ∈ positions s.shape.extents, ∃ t, ts[(source q).1]? = some t ∧
      (source q).2 ∈ positions t.shape ∧
      op.Fetches ts s.shape.extents q (source q).1 (source q).2 := by
  intro q here
  obtain ⟨t, found, inside⟩ := relocates.inside q here
  exact ⟨t, found, inside, (relocates.fetches q here _ t found _ inside).mpr rfl⟩

/-- What is computed holds the elements that the index rule names. -/
theorem Relocates.arranged {source : List Nat → Nat × List Nat} {ts : List (Tensor α)}
    (relocates : ρ.Relocates op ts g source) :
    ∃ y, op.result s ts = .ok y ∧ ρ.Arranged op ts y := by
  obtain ⟨y, ran, extents, holds, entries⟩ := relocates.result
  refine ⟨y, ran, extents, holds, fun q here => ?_, fun q here k t p found inside fetches => ?_⟩
  · obtain ⟨t, found, inside, fetches⟩ := relocates.fetched q here
    refine ⟨source q, ⟨⟨t, found, inside⟩, fetches⟩, ?_⟩
    rintro ⟨k, p⟩ ⟨⟨u, found', inside'⟩, fetches'⟩
    exact ((relocates.fetches q here k u found' p inside').mp fetches').symm
  · have same := (relocates.fetches q here k t found p inside).mp fetches
    rw [entries q here t (same.symm ▸ found), same]

/-- Where it is known which places the rule names, the elements there are the output. -/
theorem Arranged.reads {lead : List Nat → Nat × List Nat} {ts : List (Tensor α)} {y : Tensor α}
    (arranged : ρ.Arranged op ts y)
    (leads : ∀ q ∈ positions s.shape.extents, ∃ t, ts[(lead q).1]? = some t ∧
      (lead q).2 ∈ positions t.shape ∧ op.Fetches ts s.shape.extents q (lead q).1 (lead q).2) :
    ∀ q ∈ positions s.shape.extents, ∀ t, ts[(lead q).1]? = some t →
      ρ.entry y q = ρ.entry t (lead q).2 := by
  intro q here t found
  obtain ⟨u, found', inside, fetches⟩ := leads q here
  cases found.symm.trans found'
  exact arranged.entry q here _ t _ found inside fetches

/-! ### Slices of joined arrays -/

/-- A slice undoes the joining of the arrays of some nodes for one of them, `n` in slot `k`: it
gives the array of the node back, and a gradient of the slice goes through the joined arrays to that
node alone, once. -/
structure Parted (ρ : Element.Reading α R s.type.storage) (axis : Axis) (i : Nat)
    (inputs : List (Node α)) (x : Node α → Tensor α) (y : Tensor α) (k : Nat) (n : Node α) :
    Prop where
  inferred : (blockSlice axis i (inputs.map x) k (n.shape.extent i)).infer [⟨s.shape, s.type⟩] =
    .ok ⟨n.shape, s.type⟩
  value : ∃ z, (blockSlice axis i (inputs.map x) k (n.shape.extent i)).forward s.type.storage
      n.shape.extents [y] = .ok z ∧ z.shape = n.shape.extents ∧ ρ.Holds z ∧
    ∀ p ∈ positions n.shape.extents, ρ.entry z p = ρ.entry (x n) p
  gradient : ∀ h z : Tensor α, h.shape = n.shape.extents → ρ.Holds h → ∃ c b,
    (blockSlice axis i (inputs.map x) k (n.shape.extent i)).contributions [y] z h [true] =
      [(0, .ok c)] ∧
    c.addTo (.full s.shape.extents (Element.store s.type.storage (Element.whole 0))) = .ok b ∧
    ∀ γ, Gradients.Ready ρ inputs γ → ∃ γ', Gradients.addAll inputs
        ((concatenate axis).contributions (inputs.map x) y b (inputs.map Node.trainable)) γ =
          .ok γ' ∧
      ∀ m ∈ inputs, m.trainable = true → ρ.Raised (γ.buffer m) (γ'.buffer m) fun p =>
        if m.id = n.id then ρ.entry h p else 0

/-- Every position of joined arrays holds an element of the one that it lies in. -/
theorem blocks_fetched {axis : Axis} {i : Nat} {ts : List (Tensor α)}
    (laid : Laid i ts s.shape.extents) (resolved : axis.resolve s.shape.rank = .ok i) :
    ∀ q ∈ positions s.shape.extents, ∃ t, ts[(blockSource i ts q).1]? = some t ∧
      (blockSource i ts q).2 ∈ positions t.shape ∧ (concatenate axis).Fetches ts s.shape.extents q
        (blockSource i ts q).1 (blockSource i ts q).2 := by
  intro q here
  obtain ⟨t, found, inside⟩ := laid.source_mem here
  have rank : axis.resolve t.rank = .ok i := by
    rw [laid.rank (List.mem_of_getElem? found)]
    exact resolved
  have block := (laid.source_eq_iff found inside here).mp rfl
  exact ⟨t, found, inside, .concatenate found rank block⟩

omit [Element α] in
/-- The rule accepts the slice, and its output has the extents of the array that was laid. -/
theorem blockSlice_infer {axis : Axis} {i k : Nat} {ts : List (Tensor α)} {t : Tensor α}
    {shape : Shape} (laid : Laid i ts s.shape.extents) (found : ts[k]? = some t)
    (same : t.shape = shape.extents) (resolved : axis.resolve s.shape.rank = .ok i) :
    (blockSlice axis i ts k (shape.extent i)).infer [⟨s.shape, s.type⟩] = .ok ⟨shape, s.type⟩ := by
  have positive : ∀ e ∈ t.shape, 0 < e := same ▸ shape.positive
  have width : t.extent i = shape.extent i := congrArg (fun e => e.getD i 1) same
  have some := (laid_axis laid found positive).2
  rw [width] at some
  obtain ⟨made, set, extents⟩ := Shape.set_ofInt (s := s.shape) laid.axial some
  obtain rfl : made = shape := by
    have cut := laid.shape t (List.mem_of_getElem? found)
    rw [same, width, ← extents] at cut
    cases shape
    cases made
    cases cut
    rfl
  have selected : (blockSelection i ts k (made.extent i)).places axis (s.shape.extent i) = .ok _ :=
    width ▸ blockSelection_places laid found (width ▸ some)
  refine bind_eq_ok.mpr ⟨_, rfl, bind_eq_ok.mpr ⟨i, resolved, bind_eq_ok.mpr ⟨_, selected, ?_⟩⟩⟩
  rw [List.length_map, List.length_range]
  exact bind_eq_ok.mpr ⟨_, set, rfl⟩

/-- Joined arrays hold a place of a node in the block of every slot that the node is in. -/
theorem holding_block {axis : Axis} {i : Nat} (laid : Laid i (inputs.map x) s.shape.extents)
    (resolved : axis.resolve s.shape.rank = .ok i) {q p : List Nat} {m : Node α} :
    Relocates.Holding (concatenate axis) inputs x s.shape.extents q m p ↔
      ∃ k, inputs[k]? = some m ∧ q = p.set i (blockStart i (inputs.map x) k + p.getD i 0) := by
  refine exists_congr fun k => and_congr_right fun found => ?_
  have found : (inputs.map x)[k]? = some (x m) := Relocates.getElem?_map found
  have rank : axis.resolve (x m).rank = .ok i := by
    rw [laid.rank (List.mem_of_getElem? found)]
    exact resolved
  constructor
  · intro fetches
    cases fetches with
    | concatenate given resolved' block =>
      cases found.symm.trans given
      cases rank.symm.trans resolved'
      exact block
  · exact .concatenate found rank

open scoped Classical in
/-- What the places of a node are given by a gradient of joined arrays that is zero outside the
block of one slot. -/
theorem sum_block {axis : Axis} {i k : Nat} {n m : Node α} {b h : Tensor α}
    (movement : ρ.Movement (concatenate axis) inputs x)
    (laid : Laid i (inputs.map x) s.shape.extents) (resolved : axis.resolve s.shape.rank = .ok i)
    (given : inputs[k]? = some n) (input : m ∈ inputs)
    (entries : ∀ l t, (inputs.map x)[l]? = some t → ∀ p ∈ positions t.shape,
      ρ.entry b (p.set i (blockStart i (inputs.map x) l + p.getD i 0)) =
        if l = k then ρ.entry h p else 0)
    {p : List Nat} (inside : p ∈ positions (x m).shape) :
    (∑ q ∈ places s.shape.extents with
      Relocates.Holding (concatenate axis) inputs x s.shape.extents q m p, ρ.entry b q) =
        if m.id = n.id then ρ.entry h p else 0 := by
  by_cases same : m.id = n.id
  · obtain rfl := movement.unique m input n (List.mem_of_getElem? given) same
    have found : (inputs.map x)[k]? = some (x m) := Relocates.getElem?_map given
    rw [if_pos rfl, Finset.sum_eq_single (p.set i (blockStart i (inputs.map x) k + p.getD i 0))]
    · rw [entries k _ found p inside, if_pos rfl]
    · intro q mem other
      obtain ⟨_, holding⟩ := Finset.mem_filter.mp mem
      obtain ⟨l, given', rfl⟩ := (holding_block laid resolved).mp holding
      rw [entries l _ (Relocates.getElem?_map given') p inside, if_neg]
      rintro rfl
      exact other rfl
    · intro outside
      refine absurd (Finset.mem_filter.mpr ⟨?_, ?_⟩) outside
      · exact mem_places.mpr (laid.block_mem found inside)
      · exact (holding_block laid resolved).mpr ⟨k, given, rfl⟩
  · rw [if_neg same]
    refine Finset.sum_eq_zero fun q mem => ?_
    obtain ⟨_, holding⟩ := Finset.mem_filter.mp mem
    obtain ⟨l, given', rfl⟩ := (holding_block laid resolved).mp holding
    rw [entries l _ (Relocates.getElem?_map given') p inside, if_neg]
    rintro rfl
    cases given.symm.trans given'
    exact same rfl

/-- A slice undoes the joining for the node in every slot. -/
theorem Movement.parted {axis : Axis} {i k : Nat} {y : Tensor α} {n : Node α}
    (movement : ρ.Movement (concatenate axis) inputs x) (replaces : ρ.Replaces)
    (arranged : ρ.Arranged (concatenate axis) (inputs.map x) y)
    (resolved : axis.resolve s.shape.rank = .ok i) (given : inputs[k]? = some n) :
    ρ.Parted axis i inputs x y k n := by
  obtain ⟨_, resolved', laid, _⟩ := movement.laid
  cases resolved.symm.trans resolved'
  have input := List.mem_of_getElem? given
  have shape : (x n).shape = n.shape.extents := movement.shapes n input
  have found : (inputs.map x)[k]? = some (x n) := Relocates.getElem?_map given
  have positive : ∀ e ∈ (x n).shape, 0 < e := shape ▸ n.shape.positive
  have width : n.shape.extent i = (x n).extent i := congrArg (fun e => e.getD i 1) shape.symm
  constructor
  · exact blockSlice_infer laid found shape resolved
  · rw [width, ← shape]
    exact slice_joined replaces resolved laid found positive arranged.shape arranged.holds
      (arranged.reads (blocks_fetched laid resolved))
  · intro h z extents gradient
    obtain ⟨c, b, made, added, bounds, held, entries⟩ := slice_gradient replaces resolved laid found
      positive arranged.shape arranged.holds (extents.trans shape.symm) gradient z
    rw [width]
    refine ⟨c, b, made, added, fun γ ready => ?_⟩
    obtain ⟨source, relocates⟩ := movement.relocates replaces bounds held
    obtain ⟨γ', swept, raised⟩ := relocates.adds movement.unique movement.shapes ready y
    refine ⟨γ', swept, fun m input' trainable => ?_⟩
    refine (raised m input' trainable).congr fun p inside => ?_
    rw [(ready m input' trainable).1, ← movement.shapes m input'] at inside
    exact sum_block movement laid resolved given input' entries inside

/-! ### Forward and back -/

open scoped Classical in
/-- Operators that move elements and their backward steps are transposes of each other. For all
parameters and all extents that the shape rule accepts, the output holds at every position the
element that the index rule names, and every input element is given the sum over exactly the
positions that hold it, however often its node is an input or an index names it. The products of the
gradient with the output are then those of what the inputs are given with the inputs. Joined arrays
are parted again by slices. -/
theorem movement_transposed (movement : ρ.Movement op inputs x) (replaces : ρ.Replaces)
    (extents : g.shape = s.shape.extents) (gradient : ρ.Holds g) :
    ∃ y, op.result s (inputs.map x) = .ok y ∧ ρ.Arranged op (inputs.map x) y ∧
      (∀ γ, Gradients.Ready ρ inputs γ → ∃ γ', Gradients.addAll inputs
          (op.contributions (inputs.map x) y g (inputs.map Node.trainable)) γ = .ok γ' ∧
        (∀ n ∈ inputs, n.trainable = true → ρ.Raised (γ.buffer n) (γ'.buffer n) fun p =>
          ∑ q ∈ places s.shape.extents with
            Relocates.Holding op inputs x s.shape.extents q n p, ρ.entry g q) ∧
        ((∀ k n, inputs[k]? = some n → op.indexSlot? ≠ some k → n.trainable = true) →
          ∑ n ∈ (inputs.filter Node.trainable).toFinset, ρ.pairing (γ'.buffer n) (x n) =
            ∑ n ∈ (inputs.filter Node.trainable).toFinset, ρ.pairing (γ.buffer n) (x n) +
              ρ.pairing g y)) ∧
      ∀ axis, op = concatenate axis → ∀ i, axis.resolve s.shape.rank = .ok i →
        ∀ k n, inputs[k]? = some n → ρ.Parted axis i inputs x y k n := by
  obtain ⟨source, relocates⟩ := movement.relocates replaces extents gradient
  obtain ⟨y, ran, arranged⟩ := relocates.arranged
  refine ⟨y, ran, arranged, fun γ ready => ?_, ?_⟩
  · obtain ⟨γ', swept, raised⟩ := relocates.adds movement.unique movement.shapes ready y
    refine ⟨γ', swept, raised, fun trained => ?_⟩
    refine relocates.pairing movement.shapes ready raised ?_ extents
      (arranged.reads relocates.fetched)
    rintro q here n p ⟨k, given, fetches⟩
    exact trained k n given fetches.data
  · rintro axis rfl i resolved k n given
    exact movement.parted replaces arranged resolved given

end Element.Reading

namespace Sample

open Operator

/-- A vector of three. -/
def strip : Node Int :=
  .leaf ⟨0, 0, .vector 3 (by decide), .float64, none, .ofBool true, none⟩ (.constant 1)

/-- The vector joined with itself. -/
def loop : Stamp := ⟨0, 1, .vector 6 (by decide), .float64, some 0, .ofBool true, none⟩

def stripe : Tensor Int := .ofFn [3] fun pos => offset [3] pos

def pull : Tensor Int := .ofFn [6] fun pos => 10 + offset [6] pos

open scoped Classical in
/-- A vector joined with itself is given both halves of the gradient, and each half of the joined
vector is parted from it again. -/
theorem loop_transposed :
    Element.Reading.Movement (s := loop) (Element.integers _) (concatenate Axis.last)
      [strip, strip] (fun _ => stripe) ∧
    (Element.integers loop.type.storage).Replaces ∧
    ∃ y γ', (concatenate Axis.last).result loop [stripe, stripe] = .ok y ∧
      Gradients.addAll [strip, strip] ((concatenate Axis.last).contributions [stripe, stripe] y pull
        [true, true]) (fun _ => none) = .ok γ' ∧
      (Element.integers loop.type.storage).pairing (γ'.buffer strip) stripe =
        (Element.integers loop.type.storage).pairing pull y ∧
      Element.Reading.Parted (s := loop) (Element.integers _) Axis.last 0 [strip, strip]
        (fun _ => stripe) y 1 strip := by
  have movement : Element.Reading.Movement (s := loop) (Element.integers _)
      (concatenate Axis.last) [strip, strip] (fun _ => stripe) := by
    constructor
    · trivial
    · rfl
    · simp
    · intro n mem
      obtain rfl : n = strip := by simpa using mem
      rfl
    · intro _ _ _ _ _ _
      trivial
    · trivial
    · nofun
  have replaces : (Element.integers loop.type.storage).Replaces := Element.integers_replaces _
  have zeros : (Element.integers loop.type.storage).pairing
      (Gradients.buffer (fun _ => none) strip) stripe = 0 := by decide
  have single : ([strip, strip].filter Node.trainable).toFinset = {strip} := by
    have both : [strip, strip].filter Node.trainable = [strip, strip] := rfl
    simp [both]
  obtain ⟨y, ran, -, back, parted⟩ := Element.Reading.movement_transposed (g := pull) movement
    replaces rfl fun _ _ => trivial
  obtain ⟨γ', swept, -, balance⟩ := back (fun _ => none) fun n mem _ => by
    obtain rfl : n = strip := by simpa using mem
    exact ⟨rfl, fun _ _ => trivial⟩
  have balance := balance fun k n given _ => by
    obtain rfl : n = strip := by simpa using List.mem_of_getElem? given
    rfl
  rw [single, Finset.sum_singleton, Finset.sum_singleton, zeros, zero_add] at balance
  exact ⟨movement, replaces, y, γ', ran, swept, balance, parted _ rfl 0 rfl 1 strip rfl⟩

/-- A view under more axes than an array can have: the rule accepts it, and there is no output. -/
theorem crowded_view :
    (reshape (List.replicate 65 1) : Operator Int).infer
      [⟨.vector 1 Nat.one_pos, .float64⟩] = .ok ⟨⟨List.replicate 65 1, by decide⟩, .float64⟩ ∧
    (reshape (List.replicate 65 1) : Operator Int).result
      ⟨0, 1, ⟨List.replicate 65 1, by decide⟩, .float64, some 0, .ofBool false, none⟩
      [.full [1] 5] = .error .value := by
  constructor
  · rfl
  · rfl

end Sample

end ReverseMode
