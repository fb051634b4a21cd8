import ReverseMode.Proofs.ChainRule
import ReverseMode.Proofs.Deposits

/-!
Operators that move elements.

The output of such an operator holds at every position an element of one of its inputs, the one that
the index rule of the operator names, and its backward step gives every input element what the
positions that hold it are given. `Operator.Fetches` is the index rule, with one case for each
operator. `Element.Reading.Relocates` says of one application what its forward and its backward step
have to do with the rule; from that follows what the gradients of the inputs become, also where one
node is the input in several slots, and that the two steps are transposes of each other.
-/

namespace ReverseMode

open scoped Element

/-- The place that an integer names on an axis, counted from either end. -/
def Axis.Names (extent : Nat) (n : Int) (place : Nat) : Prop :=
  place < extent ∧ ((place : Int) = n ∨ (place : Int) = n + extent)

/-- Where the block of an input begins when the inputs are laid end to end along an axis. -/
def Tensor.blockStart {α : Type} (axis : Nat) (ts : List (Tensor α)) (slot : Nat) : Nat :=
  ((ts.take slot).map fun t => t.extent axis).sum

/-- The index rules: the element at `q` of an output of the given extents is the element at `p` of
the input in a slot. -/
inductive Operator.Fetches {α : Type} [Element α] : Operator α → List (Tensor α) →
    (extents q : List Nat) → (slot : Nat) → (p : List Nat) → Prop
  /-- The axes of the output are axes of the input, in the order in which they are listed. -/
  | transpose {axes : List Int} {a : Tensor α} {extents q p listed : List Nat}
      (named : permutation axes a.rank = .ok listed) (moved : q = listed.map fun x => p.getD x 0) :
      Fetches (transpose axes) [a] extents q 0 p
  /-- The place in row-major order is the same. -/
  | reshape {shape : List Int} {a : Tensor α} {extents q p : List Nat}
      (same : offset a.shape p = offset extents q) : Fetches (reshape shape) [a] extents q 0 p
  /-- The blocks of the inputs follow each other. -/
  | concatenate {axis : Axis} {ts : List (Tensor α)} {t : Tensor α} {extents q p : List Nat}
      {slot i : Nat} (given : ts[slot]? = some t) (resolved : axis.resolve t.rank = .ok i)
      (block : q = p.set i (Tensor.blockStart i ts slot + p.getD i 0)) :
      Fetches (concatenate axis) ts extents q slot p
  /-- The places of the axis are the selected ones. -/
  | slice {axis : Axis} {selection : Selection} {a : Tensor α} {extents q listed : List Nat}
      {i place : Nat} (resolved : axis.resolve a.rank = .ok i)
      (selected : selection.places axis (a.extent i) = .ok listed)
      (found : listed[q.getD i 0]? = some place) :
      Fetches (slice axis selection) [a] extents q 0 (q.set i place)
  /-- The places of the axis are the ones that a list of indices names. -/
  | indexSelect {axis : Axis} {a indices : Tensor α} {extents q : List Nat} {i place : Nat}
      (resolved : axis.resolve a.rank = .ok i)
      (names : Axis.Names (a.extent i) (Element.position (indices.get [q.getD i 0])) place) :
      Fetches (indexSelect axis) [a, indices] extents q 0 (q.set i place)
  /-- At every position the place of the axis is the one that the index there names. -/
  | gather {axis : Axis} {a indices : Tensor α} {extents q : List Nat} {i place : Nat}
      (resolved : axis.resolve a.rank = .ok i)
      (names : Axis.Names (a.extent i) (Element.position (indices.get q)) place) :
      Fetches (gather axis) [a, indices] extents q 0 (q.set i place)

namespace Gradients

variable {α R : Type} [Element α] [CommRing R] {type : StorageType}
variable {ρ : Element.Reading α R type} {inputs : List (Node α)} {γ : Gradients α}

/-- Buffers of the extents of their nodes, for the trainable ones among some nodes. -/
def Ready (ρ : Element.Reading α R type) (inputs : List (Node α)) (γ : Gradients α) : Prop :=
  ∀ n ∈ inputs, n.trainable = true → (γ.buffer n).shape = n.shape.extents ∧ ρ.Holds (γ.buffer n)

theorem Ready.raised {γ' : Gradients α} {amount : Node α → List Nat → R} (ready : Ready ρ inputs γ)
    (raised : ∀ n ∈ inputs, n.trainable = true →
      ρ.Raised (γ.buffer n) (γ'.buffer n) (amount n)) : Ready ρ inputs γ' :=
  fun n input trainable =>
    ⟨(raised n input trainable).shape.trans (ready n input trainable).1,
      (raised n input trainable).holds⟩

variable (unique : ∀ m ∈ inputs, ∀ n ∈ inputs, m.id = n.id → m = n)

include unique

/-- A contribution to a slot is added to the gradient of the node in that slot. -/
theorem addToSlot_raised (ready : Ready ρ inputs γ) {k : Nat} {c : Contribution α}
    {amount : List Nat → R}
    (adds : ∀ n, inputs[k]? = some n → ρ.Adds c n.shape.extents amount) :
    ∃ γ', addToSlot inputs k c γ = .ok γ' ∧ ∀ n ∈ inputs, n.trainable = true →
      ρ.Raised (γ.buffer n) (γ'.buffer n) fun p =>
        if inputs[k]?.map Node.id = some n.id then amount p else 0 := by
  have stays : ∀ n ∈ inputs, n.trainable = true → ρ.Raised (γ.buffer n) (γ.buffer n) fun _ => 0 :=
    fun n input trainable => .refl (ready n input trainable).2
  unfold addToSlot
  cases found : inputs[k]? with
  | none =>
    refine ⟨γ, rfl, fun n input trainable => ?_⟩
    exact (stays n input trainable).congr fun _ _ => by simp
  | some i =>
    have given := List.mem_of_getElem? found
    by_cases wanted : i.trainable = true
    · obtain ⟨extents, holds⟩ := ready i given wanted
      obtain ⟨t, added, raised⟩ := (adds i found).raised extents holds
      refine ⟨γ.put i t, ?_, fun n input trainable => ?_⟩
      · simp only [wanted, if_true]
        exact add_eq_ok.mpr ⟨t, added, rfl⟩
      · by_cases same : i.id = n.id
        · obtain rfl := unique i given n input same
          rw [buffer_of_some (put_self t)]
          exact raised.congr fun _ _ => by simp
        · have other : (γ.put i t).buffer n = γ.buffer n := by
            rw [buffer, put_of_ne (Ne.symm same), buffer]
          rw [other]
          exact (stays n input trainable).congr fun _ _ => by simp [same]
    · refine ⟨γ, by simp [wanted], fun n input trainable => ?_⟩
      have other : i.id ≠ n.id := fun same => wanted (unique i given n input same ▸ trainable)
      exact (stays n input trainable).congr fun _ _ => by simp [other]

/-- Contributions to some slots, one after the other. -/
theorem addAll_raised {slots : List Nat} {c : Nat → Contribution α} {amount : Nat → List Nat → R}
    (ready : Ready ρ inputs γ)
    (adds : ∀ k ∈ slots, ∀ n, inputs[k]? = some n → ρ.Adds (c k) n.shape.extents (amount k)) :
    ∃ γ', addAll inputs (slots.map fun k => (k, .ok (c k))) γ = .ok γ' ∧
      ∀ n ∈ inputs, n.trainable = true → ρ.Raised (γ.buffer n) (γ'.buffer n) fun p =>
        (slots.map fun k => if inputs[k]?.map Node.id = some n.id then amount k p else 0).sum := by
  induction slots generalizing γ with
  | nil => exact ⟨γ, rfl, fun n input trainable => .refl (ready n input trainable).2⟩
  | cons k slots ih =>
    obtain ⟨here, later⟩ := List.forall_mem_cons.mp adds
    obtain ⟨γ₁, first, raised⟩ := addToSlot_raised unique ready here
    obtain ⟨γ', rest, raised'⟩ := ih (ready.raised raised) later
    refine ⟨γ', addAll_cons_eq_ok.mpr ⟨c k, γ₁, rfl, first, rest⟩, fun n input trainable => ?_⟩
    exact (raised n input trainable).trans (raised' n input trainable)

end Gradients

namespace Element.Reading

open Tensor

variable {α R : Type} [Element α] [CommRing R] {s : Stamp}

/-- What the steps of an operator that moves elements have to do with its index rule. The rule names
for every position of the output the slot and the place that `source` tells; the output holds the
element there; and whatever slots are wanted, those that are read are given at each place the sum
over the positions that hold its element. -/
structure Relocates (ρ : Element.Reading α R s.type.storage) (op : Operator α)
    (ts : List (Tensor α)) (g : Tensor α) (source : List Nat → Nat × List Nat) : Prop where
  fetches : ∀ q ∈ positions s.shape.extents, ∀ k t, ts[k]? = some t → ∀ p ∈ positions t.shape,
    (op.Fetches ts s.shape.extents q k p ↔ source q = (k, p))
  inside : ∀ q ∈ positions s.shape.extents,
    ∃ t, ts[(source q).1]? = some t ∧ (source q).2 ∈ positions t.shape
  result : ∃ y, op.result s ts = .ok y ∧ y.shape = s.shape.extents ∧ ρ.Holds y ∧
    ∀ q ∈ positions s.shape.extents, ∀ t, ts[(source q).1]? = some t →
      ρ.entry y q = ρ.entry t (source q).2
  backward : ∀ (out : Tensor α) (wanted : List Bool), wanted.length = ts.length →
    ∃ (slots : List Nat) (c : Nat → Contribution α),
      op.contributions ts out g wanted = slots.map (fun k => (k, .ok (c k))) ∧ slots.Nodup ∧
      (∀ q ∈ positions s.shape.extents, wanted[(source q).1]? = some true →
        (source q).1 ∈ slots) ∧
      ∀ k ∈ slots, ∃ t, ts[k]? = some t ∧ ρ.Adds (c k) t.shape fun p =>
        ∑ q ∈ places s.shape.extents with source q = (k, p), ρ.entry g q

namespace Relocates

variable {ρ : Element.Reading α R s.type.storage} {op : Operator α} {g : Tensor α}
variable {source : List Nat → Nat × List Nat} {inputs : List (Node α)} {x : Node α → Tensor α}
variable {γ γ' : Gradients α}

/-- A node and a place in it that the output holds at a position. -/
def Holding (op : Operator α) (inputs : List (Node α)) (x : Node α → Tensor α)
    (extents q : List Nat) (n : Node α) (p : List Nat) : Prop :=
  ∃ k, inputs[k]? = some n ∧ op.Fetches (inputs.map x) extents q k p

omit [Element α] in
theorem getElem?_map {k : Nat} {n : Node α} (found : inputs[k]? = some n) :
    (inputs.map x)[k]? = some (x n) := by
  rw [List.getElem?_map, found]
  rfl

variable (relocates : ρ.Relocates op (inputs.map x) g source)

include relocates

/-- The input and the place that a position holds. -/
theorem node {q : List Nat} (here : q ∈ positions s.shape.extents) :
    ∃ n, inputs[(source q).1]? = some n ∧ (source q).2 ∈ positions (x n).shape := by
  obtain ⟨t, found, inside⟩ := relocates.inside q here
  rw [List.getElem?_map] at found
  obtain ⟨n, given, rfl⟩ := Option.map_eq_some_iff.mp found
  exact ⟨n, given, inside⟩

theorem holding_iff {q : List Nat} (here : q ∈ positions s.shape.extents) {n : Node α}
    {p : List Nat} (inside : p ∈ positions (x n).shape) :
    Holding op inputs x s.shape.extents q n p ↔
      inputs[(source q).1]? = some n ∧ (source q).2 = p := by
  constructor
  · rintro ⟨k, found, fetches⟩
    have same := (relocates.fetches q here k _ (getElem?_map found) p inside).mp fetches
    rw [same]
    exact ⟨found, rfl⟩
  · rintro ⟨found, rfl⟩
    exact ⟨_, found, (relocates.fetches q here _ _ (getElem?_map found) _ inside).mpr rfl⟩

open scoped Classical in
/-- Of all slots only the one that a position is read from counts. -/
theorem sum_slots (unique : ∀ m ∈ inputs, ∀ n ∈ inputs, m.id = n.id → m = n) {slots : List Nat}
    {q p : List Nat} (here : q ∈ positions s.shape.extents) {n : Node α} (input : n ∈ inputs)
    (inside : p ∈ positions (x n).shape)
    (wanted : inputs[(source q).1]? = some n → (source q).1 ∈ slots) (amount : R) :
    ∑ k ∈ slots.toFinset,
        (if inputs[k]?.map Node.id = some n.id ∧ source q = (k, p) then amount else 0) =
      if Holding op inputs x s.shape.extents q n p then amount else 0 := by
  by_cases held : Holding op inputs x s.shape.extents q n p
  · obtain ⟨found, same⟩ := (relocates.holding_iff here inside).mp held
    rw [if_pos held, Finset.sum_eq_single (source q).1]
    · rw [found, if_pos ⟨rfl, Prod.ext rfl same⟩]
    · intro k _ other
      rw [if_neg fun both => other (congrArg Prod.fst both.2).symm]
    · exact fun none => absurd (List.mem_toFinset.mpr (wanted found)) none
  · rw [if_neg held]
    refine Finset.sum_eq_zero fun k _ => if_neg ?_
    rintro ⟨match', led⟩
    obtain ⟨m, found, same⟩ := Option.map_eq_some_iff.mp match'
    obtain rfl := unique m (List.mem_of_getElem? found) n input same
    apply held
    apply (relocates.holding_iff here inside).mpr
    rw [led]
    exact ⟨found, rfl⟩

open scoped Classical in
/-- The backward step gives every input element what the positions that hold it are given. -/
theorem adds (unique : ∀ m ∈ inputs, ∀ n ∈ inputs, m.id = n.id → m = n)
    (shapes : ∀ n ∈ inputs, (x n).shape = n.shape.extents) (ready : Gradients.Ready ρ inputs γ)
    (out : Tensor α) :
    ∃ γ', Gradients.addAll inputs
        (op.contributions (inputs.map x) out g (inputs.map Node.trainable)) γ = .ok γ' ∧
      ∀ n ∈ inputs, n.trainable = true → ρ.Raised (γ.buffer n) (γ'.buffer n) fun p =>
        ∑ q ∈ places s.shape.extents with Holding op inputs x s.shape.extents q n p,
          ρ.entry g q := by
  obtain ⟨slots, c, made, nodup, wanted, each⟩ :=
    relocates.backward out (inputs.map Node.trainable) (by simp)
  have adds : ∀ k ∈ slots, ∀ n, inputs[k]? = some n → ρ.Adds (c k) n.shape.extents fun p =>
      ∑ q ∈ places s.shape.extents with source q = (k, p), ρ.entry g q := by
    intro k mem n found
    obtain ⟨t, given, adds⟩ := each k mem
    cases given.symm.trans (getElem?_map found)
    rwa [shapes n (List.mem_of_getElem? found)] at adds
  obtain ⟨γ', added, raised⟩ := Gradients.addAll_raised unique ready adds
  rw [← made] at added
  refine ⟨γ', added, fun n input trainable => (raised n input trainable).congr fun p inside => ?_⟩
  rw [(ready n input trainable).1, ← shapes n input] at inside
  have slot : ∀ q ∈ positions s.shape.extents, inputs[(source q).1]? = some n →
      (source q).1 ∈ slots := by
    intro q here found
    apply wanted q here
    rw [List.getElem?_map, found, Option.map_some, trainable]
  rw [← List.sum_toFinset _ nodup, Finset.sum_filter]
  calc ∑ k ∈ slots.toFinset, (if inputs[k]?.map Node.id = some n.id then
          ∑ q ∈ places s.shape.extents with source q = (k, p), ρ.entry g q else 0)
      = ∑ k ∈ slots.toFinset, ∑ q ∈ places s.shape.extents,
          (if inputs[k]?.map Node.id = some n.id ∧ source q = (k, p) then ρ.entry g q else 0) := by
        refine Finset.sum_congr rfl fun k _ => ?_
        rw [Finset.sum_filter]
        split
        next same => simp [same]
        next other => simp [other]
    _ = ∑ q ∈ places s.shape.extents, ∑ k ∈ slots.toFinset,
          (if inputs[k]?.map Node.id = some n.id ∧ source q = (k, p) then ρ.entry g q else 0) :=
        Finset.sum_comm
    _ = _ := Finset.sum_congr rfl fun q mem =>
        relocates.sum_slots unique (mem_places.mp mem) input inside (slot q (mem_places.mp mem)) _

open scoped Classical in
/-- The product of one input with what it is given is that of the gradient with the output, at the
positions that are read from it. -/
theorem pairing_node {n : Node α} {buffer raised y : Tensor α} (same : buffer.shape = (x n).shape)
    (raises : ρ.Raised buffer raised fun p => ∑ q ∈ places s.shape.extents with
      Holding op inputs x s.shape.extents q n p, ρ.entry g q)
    (result : ∀ q ∈ positions s.shape.extents, ∀ t, (inputs.map x)[(source q).1]? = some t →
      ρ.entry y q = ρ.entry t (source q).2) :
    ρ.pairing raised (x n) = ρ.pairing buffer (x n) +
      ∑ q ∈ places s.shape.extents with inputs[(source q).1]? = some n,
        ρ.entry g q * ρ.entry y q := by
  have leads : ∀ q ∈ (places s.shape.extents).filter fun q => inputs[(source q).1]? = some n,
      (source q).2 ∈ places (x n).shape := by
    intro q mem
    obtain ⟨here, found⟩ := Finset.mem_filter.mp mem
    obtain ⟨m, given, inside⟩ := relocates.node (mem_places.mp here)
    cases found.symm.trans given
    exact mem_places.mpr inside
  have added : ∀ p ∈ places (x n).shape,
      (∑ q ∈ places s.shape.extents with Holding op inputs x s.shape.extents q n p,
        ρ.entry g q) * ρ.entry (x n) p =
      ∑ q ∈ ((places s.shape.extents).filter fun q => inputs[(source q).1]? = some n) with
        (source q).2 = p, ρ.entry g q * ρ.entry y q := by
    intro p mem
    have readers := Finset.filter_congr fun q here =>
      relocates.holding_iff (n := n) (mem_places.mp here) (mem_places.mp mem)
    rw [readers, ← Finset.filter_filter, Finset.sum_mul]
    refine Finset.sum_congr rfl fun q reader => ?_
    obtain ⟨read, led⟩ := Finset.mem_filter.mp reader
    obtain ⟨here, found⟩ := Finset.mem_filter.mp read
    rw [result q (mem_places.mp here) (x n) (getElem?_map found), led]
  rw [Element.Reading.pairing, Element.Reading.pairing, raises.shape, same,
    ← Finset.sum_fiberwise_of_maps_to leads, ← Finset.sum_add_distrib]
  refine Finset.sum_congr rfl fun p mem => ?_
  rw [raises.entry p (same ▸ mem_places.mp mem), add_mul, added p mem]

open scoped Classical in
/-- Every position is read from one of the nodes. -/
theorem sum_nodes {nodes : Finset (Node α)}
    (among : ∀ q ∈ positions s.shape.extents, ∀ n, inputs[(source q).1]? = some n → n ∈ nodes)
    (f : List Nat → R) :
    ∑ n ∈ nodes, ∑ q ∈ places s.shape.extents with inputs[(source q).1]? = some n, f q =
      ∑ q ∈ places s.shape.extents, f q := by
  have swap : ∀ n q, (n ∈ nodes ∧
        q ∈ (places s.shape.extents).filter fun q => inputs[(source q).1]? = some n) ↔
      (n ∈ (nodes.filter fun n => inputs[(source q).1]? = some n) ∧
        q ∈ places s.shape.extents) := by
    intro n q
    rw [Finset.mem_filter, Finset.mem_filter]
    tauto
  rw [Finset.sum_comm' swap]
  refine Finset.sum_congr rfl fun q mem => ?_
  obtain ⟨n, found, _⟩ := relocates.node (mem_places.mp mem)
  have only : (nodes.filter fun m => inputs[(source q).1]? = some m) = {n} := by
    ext m
    rw [Finset.mem_filter, Finset.mem_singleton, found, Option.some.injEq]
    constructor
    · exact fun both => both.2.symm
    · rintro rfl
      exact ⟨among q (mem_places.mp mem) m found, rfl⟩
  rw [only, Finset.sum_singleton]

open scoped Classical in
/-- The products of all inputs with what the backward step gives them are the products of the
gradient with the output. -/
theorem pairing (shapes : ∀ n ∈ inputs, (x n).shape = n.shape.extents)
    (ready : Gradients.Ready ρ inputs γ)
    (raised : ∀ n ∈ inputs, n.trainable = true → ρ.Raised (γ.buffer n) (γ'.buffer n) fun p =>
      ∑ q ∈ places s.shape.extents with Holding op inputs x s.shape.extents q n p, ρ.entry g q)
    (wanted : ∀ q ∈ positions s.shape.extents, ∀ n p,
      Holding op inputs x s.shape.extents q n p → n.trainable = true)
    (extents : g.shape = s.shape.extents) {y : Tensor α}
    (result : ∀ q ∈ positions s.shape.extents, ∀ t, (inputs.map x)[(source q).1]? = some t →
      ρ.entry y q = ρ.entry t (source q).2) :
    ∑ n ∈ (inputs.filter Node.trainable).toFinset, ρ.pairing (γ'.buffer n) (x n) =
      ∑ n ∈ (inputs.filter Node.trainable).toFinset, ρ.pairing (γ.buffer n) (x n) +
        ρ.pairing g y := by
  have each : ∀ n ∈ (inputs.filter Node.trainable).toFinset, ρ.pairing (γ'.buffer n) (x n) =
      ρ.pairing (γ.buffer n) (x n) + ∑ q ∈ places s.shape.extents with
        inputs[(source q).1]? = some n, ρ.entry g q * ρ.entry y q := by
    intro n mem
    obtain ⟨input, trainable⟩ := List.mem_filter.mp (List.mem_toFinset.mp mem)
    have same : (γ.buffer n).shape = (x n).shape :=
      (ready n input trainable).1.trans (shapes n input).symm
    exact relocates.pairing_node same (raised n input trainable) result
  have among : ∀ q ∈ positions s.shape.extents, ∀ n, inputs[(source q).1]? = some n →
      n ∈ (inputs.filter Node.trainable).toFinset := by
    intro q here n found
    obtain ⟨m, given, inside⟩ := relocates.node here
    cases found.symm.trans given
    have trainable := wanted q here n _ ((relocates.holding_iff here inside).mpr ⟨found, rfl⟩)
    exact List.mem_toFinset.mpr (List.mem_filter.mpr ⟨List.mem_of_getElem? found, trainable⟩)
  rw [Finset.sum_congr rfl each, Finset.sum_add_distrib, relocates.sum_nodes among,
    Element.Reading.pairing, extents]

end Relocates

/-! ### Operators that read one input -/

section Single

variable {ρ : Element.Reading α R s.type.storage} {op : Operator α} {g a : Tensor α}
variable {rest : List (Tensor α)} {lead : List Nat → List Nat} {c : Contribution α}

/-- An operator that reads the first input only. -/
theorem Relocates.single
    (fetches : ∀ q ∈ positions s.shape.extents, ∀ k p,
      op.Fetches (a :: rest) s.shape.extents q k p → k = 0)
    (reads : ∀ q ∈ positions s.shape.extents, ∀ p ∈ positions a.shape,
      (op.Fetches (a :: rest) s.shape.extents q 0 p ↔ lead q = p))
    (leads : ∀ q ∈ positions s.shape.extents, lead q ∈ positions a.shape)
    (result : ∃ y, op.result s (a :: rest) = .ok y ∧ y.shape = s.shape.extents ∧ ρ.Holds y ∧
      ∀ q ∈ positions s.shape.extents, ρ.entry y q = ρ.entry a (lead q))
    (made : ∀ (out : Tensor α) (wanted : List Bool), wanted.length = (a :: rest).length →
      op.contributions (a :: rest) out g wanted = [(0, .ok c)] ∨
        wanted[0]? = some false ∧ op.contributions (a :: rest) out g wanted = [])
    (adds : ρ.Adds c a.shape fun p =>
      ∑ q ∈ places s.shape.extents with lead q = p, ρ.entry g q) :
    ρ.Relocates op (a :: rest) g fun q => (0, lead q) := by
  obtain ⟨y, ran, extents, holds, entries⟩ := result
  refine ⟨fun q here k t found p inside => ?_, fun q here => ⟨a, rfl, leads q here⟩,
    ⟨y, ran, extents, holds, fun q here t found => ?_⟩, fun out wanted length => ?_⟩
  · constructor
    · intro fetched
      obtain rfl := fetches q here k p fetched
      cases found
      rw [(reads q here p inside).mp fetched]
    · intro led
      cases led
      cases found
      exact (reads q here _ inside).mpr rfl
  · cases found
    exact entries q here
  · rcases made out wanted length with made | ⟨unwanted, made⟩
    · refine ⟨[0], fun _ => c, made, by simp, fun _ _ _ => by simp, fun k mem => ⟨a, ?_, ?_⟩⟩
      · rw [List.mem_singleton.mp mem]
        rfl
      · refine adds.congr fun p _ => ?_
        rw [List.mem_singleton.mp mem]
        simp only [Prod.mk.injEq, true_and]
    · refine ⟨[], fun _ => c, made, by simp, fun q here wanted => ?_, by simp⟩
      exact absurd (unwanted.symm.trans wanted) (by simp)

/-- The contribution to the only input, where it is wanted. -/
theorem Relocates.only {source : List Nat → Nat × List Nat}
    (relocates : ρ.Relocates op [a] g source) (nonempty : positions s.shape.extents ≠ [])
    (out : Tensor α) :
    ∃ c, op.contributions [a] out g [true] = [(0, .ok c)] ∧ ρ.Adds c a.shape fun p =>
      ∑ q ∈ places s.shape.extents with source q = (0, p), ρ.entry g q := by
  obtain ⟨slots, c, made, nodup, wanted, each⟩ := relocates.backward out [true] rfl
  have first : ∀ k ∈ slots, k = 0 := by
    intro k mem
    obtain ⟨t, found, _⟩ := each k mem
    obtain ⟨bound, _⟩ := List.getElem?_eq_some_iff.mp found
    simpa using bound
  have given : 0 ∈ slots := by
    obtain ⟨q, here⟩ := List.exists_mem_of_ne_nil _ nonempty
    obtain ⟨t, found, _⟩ := relocates.inside q here
    obtain ⟨bound, _⟩ := List.getElem?_eq_some_iff.mp found
    have slot : (source q).1 = 0 := by simpa using bound
    exact slot ▸ wanted q here (by rw [slot]; rfl)
  have single : slots = [0] := by
    obtain ⟨k, rest, rfl⟩ := List.exists_cons_of_ne_nil (List.ne_nil_of_mem given)
    obtain rfl := first k (by simp)
    have apart := (List.nodup_cons.mp nodup).1
    cases rest with
    | nil => rfl
    | cons k rest => exact absurd (first k (by simp) ▸ List.mem_cons_self) apart
  rw [single] at made each
  obtain ⟨t, found, adds⟩ := each 0 (by simp)
  cases found
  exact ⟨c 0, made, adds⟩

omit [Element α] in
/-- A contribution that is only made for a wanted slot. -/
theorem ifWanted_first {made : Except Fault (Contribution α)} (had : made = .ok c)
    {wanted : List Bool} (nonempty : 0 < wanted.length) :
    Operator.ifWanted wanted 0 made = [(0, .ok c)] ∨
      wanted[0]? = some false ∧ Operator.ifWanted wanted 0 made = [] := by
  obtain ⟨first, others, rfl⟩ := List.exists_cons_of_length_pos nonempty
  rw [had]
  cases first with
  | true => exact .inl rfl
  | false => exact .inr ⟨rfl, rfl⟩

/-- What is computed by moving the elements of an input is stored as it is. -/
theorem stored_moved (op : Operator α) (ts : List (Tensor α)) (holds : ρ.Holds a)
    (leads : ∀ q ∈ positions s.shape.extents, lead q ∈ positions a.shape)
    (moved : op.value s.shape.extents.length ts = .ok (.ofFn s.shape.extents fun q =>
      a.get (lead q))) :
    ∃ y, (do (← op.value s.shape.extents.length ts).assign s.type.storage s.shape.extents) =
        .ok y ∧ y.shape = s.shape.extents ∧ ρ.Holds y ∧
      ∀ q ∈ positions s.shape.extents, ρ.entry y q = ρ.entry a (lead q) := by
  have held : ρ.Holds (.ofFn s.shape.extents fun q => a.get (lead q)) :=
    holds_ofFn fun q here => holds _ (leads q here)
  obtain ⟨y, stored, extents, kept, entries⟩ := held.assign
  refine ⟨y, bind_eq_ok.mpr ⟨_, moved, stored⟩, extents, kept, fun q here => ?_⟩
  exact (entries q here).trans (entry_ofFn here)

end Single

end Element.Reading

end ReverseMode
