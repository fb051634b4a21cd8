import Mathlib.Data.List.Count
import ReverseMode.Proofs.BackwardPass
import ReverseMode.Proofs.Filling
import ReverseMode.Proofs.Recall

/-!
Counts of consumers.

`consumers ns id` is the number of nodes among `ns` that take the node with this id, each
counted once however many of its slots it fills. The counts with which a pass starts are the
numbers of consumers among its nodes, and what follows the visit of a node makes them those of
the nodes still to be visited. A value is dropped where the count of its node has come to zero
and the node may be dropped; nothing else about slots changes.
-/

namespace ReverseMode

variable {α : Type}

/-- Whether a node has the node with this id among its inputs. -/
def Node.takes (n : Node α) (id : Nat) : Bool := n.inputs.any fun i => i.id == id

/-- How many of some nodes take the node with this id. -/
def consumers (ns : List (Node α)) (id : Nat) : Nat := ns.countP fun n => n.takes id

theorem Node.takes_iff {n : Node α} {id : Nat} : n.takes id = true ↔ ∃ i ∈ n.inputs, i.id = id := by
  simp [takes]

theorem consumers_cons (n : Node α) (ns : List (Node α)) (id : Nat) :
    consumers (n :: ns) id = consumers ns id + if n.takes id then 1 else 0 :=
  List.countP_cons

theorem consumers_eq_zero {ns : List (Node α)} {id : Nat} :
    consumers ns id = 0 ↔ ∀ n ∈ ns, ∀ i ∈ n.inputs, i.id ≠ id := by
  simp [consumers, List.countP_eq_zero, Node.takes]

theorem consumers_pos {ns : List (Node α)} {id : Nat} {n i : Node α} (mem : n ∈ ns)
    (input : i ∈ n.inputs) (here : i.id = id) : 0 < consumers ns id := by
  apply Nat.pos_of_ne_zero
  intro none
  exact consumers_eq_zero.mp none n mem i input here

namespace Node

/-- Distinct inputs have distinct ids. -/
theorem distinct_pairwise (ns : List (Node α)) :
    (distinct ns).Pairwise fun m n => m.id ≠ n.id := by
  induction ns with
  | nil => exact .nil
  | cons n rest ih =>
    apply List.pairwise_cons.mpr
    constructor
    · intro m inside
      have apart := (List.mem_filter.mp inside).2
      intro same
      simp [same] at apart
    · exact ih.filter _

/-- A node with another id is no other one for the first of a list. -/
theorem exists_id_cons {i : Node α} {rest : List (Node α)} {id : Nat} (other : id ≠ i.id) :
    (∃ m ∈ i :: rest, m.id = id) ↔ ∃ m ∈ rest, m.id = id := by
  constructor
  · rintro ⟨m, inside, same⟩
    rcases List.mem_cons.mp inside with rfl | inside
    · exact absurd same.symm other
    · exact ⟨m, inside, same⟩
  · rintro ⟨m, inside, same⟩
    exact ⟨m, List.mem_cons_of_mem _ inside, same⟩

theorem takes_iff_distinct {n : Node α} {id : Nat} :
    n.takes id = true ↔ ∃ i ∈ n.distinctInputs, i.id = id := by
  rw [takes_iff]
  constructor
  · rintro ⟨i, input, rfl⟩
    obtain ⟨m, inside, same⟩ := Graph.mem_distinct input
    exact ⟨m, inside, same⟩
  · rintro ⟨i, input, rfl⟩
    exact ⟨i, mem_of_mem_distinct input, rfl⟩

end Node

namespace Pending

variable {p : Pending}

@[simp] theorem size_change (a : Int) (id : Nat) (p : Pending) :
    (p.change a id).counts.size = p.counts.size := by
  simp [change]

theorem count_change {id : Nat} (bound : id < p.counts.size) (a : Int) (j : Nat) :
    (p.change a id).count j = p.count j + if j = id then a else 0 := by
  unfold count change
  rw [Array.getD_eq_getD_getElem?, Array.getD_eq_getD_getElem?, Array.getElem?_modify]
  by_cases same : id = j
  · subst same
    simp [bound]
  · rw [if_neg same, if_neg fun h => same h.symm, Int.add_zero]

/-- The counts changed at some ids, all of them different. -/
theorem count_changes {is : List (Node α)} (apart : is.Pairwise fun m n => m.id ≠ n.id)
    (bound : ∀ i ∈ is, i.id < p.counts.size) (a : Int) (j : Nat) :
    (is.foldl (fun p i => p.change a i.id) p).counts.size = p.counts.size ∧
      (is.foldl (fun p i => p.change a i.id) p).count j =
        p.count j + if ∃ i ∈ is, i.id = j then a else 0 := by
  induction is generalizing p with
  | nil => simp
  | cons i rest ih =>
    obtain ⟨others, apart⟩ := List.pairwise_cons.mp apart
    have bound' : ∀ m ∈ rest, m.id < (p.change a i.id).counts.size := by
      intro m inside
      rw [size_change]
      exact bound m (by simp [inside])
    obtain ⟨size, count⟩ := ih apart bound'
    rw [List.foldl_cons, size, count, count_change (bound i (by simp))]
    constructor
    · exact size_change _ _ _
    · by_cases here : j = i.id
      · have none : ¬ ∃ m ∈ rest, m.id = j := by
          rintro ⟨m, inside, same⟩
          exact others m inside (by rw [same, here])
        rw [if_pos here, if_neg none, if_pos ⟨i, by simp, here.symm⟩, Int.add_zero]
      · simp only [if_neg here, Node.exists_id_cons here, Int.add_zero]

/-- The counts are the numbers of consumers among some nodes. -/
def Matches (p : Pending) (ns : List (Node α)) : Prop := ∀ id, p.count id = consumers ns id

theorem Matches.reverse {ns : List (Node α)} (matched : p.Matches ns) : p.Matches ns.reverse := by
  intro id
  rw [matched, consumers, consumers, List.countP_reverse]

/-- A pass starts with the numbers of consumers among its nodes. -/
theorem start_matches {size : Nat} {ns : List (Node α)}
    (bound : ∀ n ∈ ns, ∀ i ∈ n.inputs, i.id < size) :
    (start size ns).counts.size = size ∧ (start size ns).Matches ns := by
  have entered : ∀ (ns : List (Node α)) (p : Pending), p.counts.size = size →
      (∀ n ∈ ns, ∀ i ∈ n.inputs, i.id < size) →
      (ns.foldl (fun p n => p.enter n) p).counts.size = size ∧
        ∀ id, (ns.foldl (fun p n => p.enter n) p).count id = p.count id + consumers ns id := by
    intro ns
    induction ns with
    | nil =>
      intro p fits _
      exact ⟨fits, fun id => by simp [consumers]⟩
    | cons n rest ih =>
      intro p fits bound
      have entry := fun id => count_changes (Node.distinct_pairwise n.inputs)
        (fun i input => fits ▸ bound n (by simp) i (Node.mem_of_mem_distinct input)) 1 id
      have step := ih (p.enter n) ((entry 0).1.trans fits) fun m inside =>
        bound m (by simp [inside])
      refine ⟨step.1, fun id => ?_⟩
      have taken : (∃ i ∈ Node.distinct n.inputs, i.id = id) ↔ n.takes id = true :=
        Node.takes_iff_distinct.symm
      rw [List.foldl_cons, step.2, consumers_cons]
      change (n.distinctInputs.foldl (fun p i => p.change 1 i.id) p).count id + _ = _
      rw [show (n.distinctInputs.foldl (fun p i => p.change 1 i.id) p).count id = _ from
        (entry id).2]
      simp only [taken]
      split <;> push_cast <;> omega
  obtain ⟨fits, count⟩ := entered ns ⟨Array.replicate size 0⟩ (by simp) bound
  refine ⟨fits, fun id => ?_⟩
  have none : (⟨Array.replicate size 0⟩ : Pending).count id = 0 := by
    rw [Pending.count, Array.getD_eq_getD_getElem?, Array.getElem?_replicate]
    split <;> rfl
  rw [start, count, none, Int.zero_add]

end Pending

namespace Graph

variable {g g' : Graph α} {p p' : Pending}

/-- One consumer less for an input, which is dropped after the last one if it may be. Both
directions of a pass count down in this way and differ in what may be dropped. -/
def countDown (may : Graph α → Node α → Bool) (state : Graph α × Pending) (i : Node α) :
    Graph α × Pending :=
  let p := state.2.change (-1) i.id
  (if p.count i.id = 0 && may state.1 i then state.1.releaseValue i.id else state.1, p)

/-- What may be dropped in a backward pass: values without a gradient. -/
def leaves (g : Graph α) (i : Node α) : Bool := (g.grad? i.id).isNone && g.releasable i

theorem leaveInput_eq : (leaveInput : Graph α × Pending → Node α → _) = countDown leaves := by
  funext ⟨g, p⟩ i
  simp only [leaveInput, countDown, leaves, Bool.and_assoc]
  rfl

/-- What counting down some inputs leaves: each of them has one consumer less, and the values of
those are dropped that have none left and may be dropped. -/
structure CountsDown (may : Graph α → Node α → Bool) (is : List (Node α)) (p p' : Pending)
    (g g' : Graph α) : Prop where
  size : p'.counts.size = p.counts.size
  count : ∀ id, p'.count id = p.count id + if ∃ i ∈ is, i.id = id then -1 else 0
  outline : g'.outline = g.outline
  dropped : ∀ i ∈ is, p'.count i.id = 0 → may g i = true →
    g'.slot i.id = { g.slot i.id with value := none }
  kept : ∀ id, (∀ i ∈ is, i.id = id → p'.count id = 0 → may g i = false) →
    g'.slot id = g.slot id

/-- Counting one input down. -/
theorem countDown_single (may : Graph α → Node α → Bool) {i : Node α} (here : i.id < g.slots.size)
    (fits : p.counts.size = g.slots.size) :
    CountsDown may [i] p (countDown may (g, p) i).2 g (countDown may (g, p) i).1 := by
  unfold countDown
  dsimp only
  constructor
  · exact Pending.size_change _ _ _
  · intro id
    rw [Pending.count_change (by rw [fits]; exact here)]
    simp [eq_comm]
  · split <;> simp
  · intro m inside none free
    obtain rfl := List.mem_singleton.mp inside
    rw [if_pos, slot_releaseValue here, Function.update_self]
    simp [none, free]
  · intro id keeps
    split
    next last =>
      have other : id ≠ i.id := by
        rintro rfl
        simp only [Bool.and_eq_true, decide_eq_true_eq] at last
        cases last.2.symm.trans (keeps i (by simp) rfl last.1)
      rw [slot_releaseValue here, Function.update_of_ne other]
    · rfl

/-- Counting one input down and then others. -/
theorem CountsDown.cons {may : Graph α → Node α → Bool} {i : Node α} {rest : List (Node α)}
    {p₁ p' : Pending} {g₁ : Graph α} (steady : ∀ m, may g₁ m = may g m)
    (others : ∀ m ∈ rest, i.id ≠ m.id) (first : CountsDown may [i] p p₁ g g₁)
    (later : CountsDown may rest p₁ p' g₁ g') : CountsDown may (i :: rest) p p' g g' := by
  have apart : ¬ ∃ m ∈ rest, m.id = i.id := by
    rintro ⟨m, inside, same⟩
    exact others m inside same.symm
  -- the first input is not touched by the others
  have counted : p'.count i.id = p₁.count i.id := by
    rw [later.count, if_neg apart, Int.add_zero]
  have untouched : g'.slot i.id = g₁.slot i.id :=
    later.kept i.id fun m inside same => absurd same.symm (others m inside)
  constructor
  · exact later.size.trans first.size
  · intro id
    rw [later.count, first.count]
    simp only [List.mem_singleton, exists_eq_left]
    by_cases same : i.id = id
    · rw [if_pos same, if_neg (same ▸ apart), if_pos ⟨i, by simp, same⟩, Int.add_zero]
    · rw [if_neg same, Int.add_zero]
      simp only [Node.exists_id_cons (Ne.symm same)]
  · exact later.outline.trans first.outline
  · intro m inside none free
    rcases List.mem_cons.mp inside with rfl | other
    · rw [untouched]
      exact first.dropped m (by simp) (counted ▸ none) free
    · rw [later.dropped m other none (by rw [steady]; exact free), first.kept m.id]
      intro j single same
      rw [List.mem_singleton.mp single] at same
      exact absurd same (others m other)
  · intro id keeps
    rw [later.kept id, first.kept id]
    · intro j single same none
      obtain rfl := List.mem_singleton.mp single
      exact keeps j (by simp) same (by rw [← same, counted, same, none])
    · intro m inside same none
      rw [steady]
      exact keeps m (by simp [inside]) same none

theorem countDown_countsDown (may : Graph α → Node α → Bool)
    (steady : ∀ {g : Graph α} {id : Nat}, id < g.slots.size → ∀ i, may (g.releaseValue id) i = may g i)
    {is : List (Node α)} (apart : is.Pairwise fun m n => m.id ≠ n.id)
    (bound : ∀ i ∈ is, i.id < g.slots.size) (fits : p.counts.size = g.slots.size) :
    CountsDown may is p (is.foldl (countDown may) (g, p)).2 g
      (is.foldl (countDown may) (g, p)).1 := by
  induction is generalizing g p with
  | nil => exact ⟨rfl, by simp, rfl, by simp, fun _ _ => rfl⟩
  | cons i rest ih =>
    obtain ⟨others, apart⟩ := List.pairwise_cons.mp apart
    have here := bound i (by simp)
    have first := countDown_single may here fits
    have size := size_of_outline first.outline
    have flags : ∀ m, may (countDown may (g, p) i).1 m = may g m := by
      intro m
      unfold countDown
      dsimp only
      split
      · exact steady here m
      · rfl
    have later : CountsDown may rest _ _ _ _ :=
      ih (g := (countDown may (g, p) i).1) (p := (countDown may (g, p) i).2) apart
        (fun m inside => size ▸ bound m (by simp [inside])) (by rw [first.size, fits, size])
    exact first.cons flags others later

theorem CountsDown.slot_or {may : Graph α → Node α → Bool} {is : List (Node α)} {p p' : Pending}
    (down : CountsDown may is p p' g g') (id : Nat) :
    g'.slot id = g.slot id ∨ ∃ i ∈ is, i.id = id ∧ p'.count id = 0 ∧ may g i = true ∧
      g'.slot id = { g.slot id with value := none } := by
  by_cases last : ∃ i ∈ is, i.id = id ∧ p'.count id = 0 ∧ may g i = true
  · obtain ⟨i, inside, rfl, none, free⟩ := last
    exact .inr ⟨i, inside, rfl, none, free, down.dropped i inside none free⟩
  · left
    refine down.kept id fun i inside same none => ?_
    by_contra free
    exact last ⟨i, inside, same, none, by simpa using free⟩

/-! ### What may be dropped -/

theorem retained_releaseValue {id : Nat} (bound : id < g.slots.size) (j : Nat) :
    ((g.releaseValue id).slot j).retained = (g.slot j).retained := by
  rw [slot_releaseValue bound]
  by_cases same : j = id
  · rw [same, Function.update_self]
  · rw [Function.update_of_ne same]

theorem releasable_releaseValue {id : Nat} (bound : id < g.slots.size) (i : Node α) :
    (g.releaseValue id).releasable i = g.releasable i := by
  rw [releasable, releasable, retained_releaseValue bound]

theorem dropsEarly_releaseValue [Element α] {id : Nat} (bound : id < g.slots.size) (i : Node α) :
    (g.releaseValue id).dropsEarly i = g.dropsEarly i := by
  have checkpoint : ((g.releaseValue id).slot i.id).checkpoint = (g.slot i.id).checkpoint := by
    rw [slot_releaseValue bound]
    by_cases same : i.id = id
    · rw [same, Function.update_self]
    · rw [Function.update_of_ne same]
  rw [dropsEarly, dropsEarly, releasable_releaseValue bound, checkpoint,
    settings_of_outline (outline_releaseValue g id)]

theorem leaves_releaseValue {id : Nat} (bound : id < g.slots.size) (i : Node α) :
    (g.releaseValue id).leaves i = g.leaves i := by
  rw [leaves, leaves, releasable_releaseValue bound]
  unfold grad?
  rw [slot_releaseValue bound]
  by_cases same : i.id = id
  · rw [same, Function.update_self]
  · rw [Function.update_of_ne same]

/-! ### After a visit -/

/-- Once the inputs of a node are counted down, the counts are those of the nodes behind it. -/
theorem CountsDown.matches {may : Graph α → Node α → Bool} {n : Node α} {rest : List (Node α)}
    (down : CountsDown may n.distinctInputs p p' g g') (matched : p.Matches (n :: rest)) :
    p'.Matches rest := by
  intro id
  have taken : (∃ i ∈ n.distinctInputs, i.id = id) ↔ n.takes id = true :=
    Node.takes_iff_distinct.symm
  rw [down.count, matched id, consumers_cons]
  simp only [taken]
  split <;> push_cast <;> omega

variable {known : Node α → Prop}

theorem WellFormed.distinct_bound (wf : WellFormed known g) {n : Node α} (mem : known n) :
    ∀ i ∈ n.distinctInputs, i.id < g.slots.size :=
  fun _ input => wf.bound (wf.known_inputs mem (mem_inputs_of_distinct input))

/-- A pass over known nodes starts with counts that fit the slots. -/
theorem WellFormed.start_matches (wf : WellFormed known g) {ns : List (Node α)}
    (mem : ∀ n ∈ ns, known n) :
    (Pending.start g.slots.size ns).counts.size = g.slots.size ∧
      (Pending.start g.slots.size ns).Matches ns :=
  Pending.start_matches fun n inside _ input => wf.bound (wf.known_inputs (mem n inside) input)

theorem afterForward_countsDown [Element α] (wf : WellFormed known g) {n : Node α} (mem : known n)
    (fits : p.counts.size = g.slots.size) :
    CountsDown dropsEarly n.distinctInputs p (afterForward n p g).1 g (afterForward n p g).2 := by
  have down := countDown_countsDown dropsEarly dropsEarly_releaseValue
    (Node.distinct_pairwise n.inputs) (wf.distinct_bound mem) fits
  exact ⟨down.size, down.count, down.outline, down.dropped, down.kept⟩

/-- The step of a node in a forward pass: its inputs are made available, it is computed, and its
inputs are counted down. -/
theorem forwardStep_parts [Element α] {Q : Node α → Prop} {n : Node α} {p' : Pending}
    (wf : WellFormed known g) (mem : known n) (fits : p.counts.size = g.slots.size)
    (fills : ∀ g₁, n.distinctInputs.forM ensure g = .ok () g₁ → Fills Q g g₁)
    (answered : forwardStep n p g = .ok p' g') :
    ∃ g₁ g₂, ∃ held : Held α, Fills Q g g₁ ∧ g₂.outline = g.outline ∧
      g₂.slot = Function.update g₁.slot n.id
        { g₁.slot n.id with value := some held, computed := true } ∧
      CountsDown dropsEarly n.distinctInputs p p' g₂ g' := by
  obtain ⟨g₁, g₂, ready, made, last⟩ := forwardStep_answer.mp answered
  have fills := fills g₁ ready
  obtain ⟨held, outline, slots⟩ := compute_slot ((wf.of_outline fills.outline).bound mem) made
  have outline := outline.trans fills.outline
  have down := afterForward_countsDown (p := p) (wf.of_outline outline) mem
    (fits.trans (size_of_outline outline).symm)
  rw [last] at down
  exact ⟨g₁, g₂, held, fills, outline, slots, down⟩

/-- Counting the inputs of a node down in a backward pass. -/
theorem leaveInputs_countsDown (wf : WellFormed known g) {n : Node α} (mem : known n)
    (fits : p.counts.size = g.slots.size) :
    CountsDown leaves n.distinctInputs p (n.distinctInputs.foldl leaveInput (g, p)).2 g
      (n.distinctInputs.foldl leaveInput (g, p)).1 := by
  rw [leaveInput_eq]
  exact countDown_countsDown leaves leaves_releaseValue (Node.distinct_pairwise n.inputs)
    (wf.distinct_bound mem) fits

end Graph

end ReverseMode
