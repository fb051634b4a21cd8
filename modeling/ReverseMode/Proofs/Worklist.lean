import Mathlib.Data.List.Count
import ReverseMode.Proofs.EarlyDrop
import ReverseMode.Proofs.FailedComputation
import ReverseMode.Proofs.Idle

/-!
Values made available from a stack.

`ensure` goes down the inputs of a node by recursion, which a long chain of nodes does not allow
on a machine whose call stack is bounded. A loop over a stack of its own (`Drains`) does the same:
the node on top is dropped if it holds a value, its inputs without one are pushed, or it is
computed. A node can be on the stack many times through shared inputs, but it is computed at most
once, since it holds a value afterwards (`Calls`); and the stack runs empty, since a node needs
only nodes that it is made of (`drains_ensureBy`).
-/

namespace ReverseMode

namespace Graph

variable {α : Type} {compute : Node α → GraphM α Unit} {g g' g₁ : Graph α} {n m : Node α}
variable {stack calls : List (Node α)} {r : EStateM.Result Fault (Graph α) Unit}

/-! ### The loop -/

/-- The inputs of a node that hold no value, each one once. -/
def lacking (g : Graph α) (n : Node α) : List (Node α) :=
  n.distinctInputs.filter fun i => (g.slot i.id).value.isNone

/-- The value of a node supplied by a callback; it is counted if the node has been computed
before. -/
def supply (compute : Node α → GraphM α Unit) (n : Node α) : GraphM α Unit := do
  modify (countRecomputation n)
  compute n

/-- The loop from a stack of nodes, the topmost first, to its result: a node with a value is
dropped, inputs without one are pushed, the last one topmost, and a node whose inputs all hold
their values is computed and dropped. `calls` are the nodes computed, in their order. -/
inductive Drains (compute : Node α → GraphM α Unit) : List (Node α) → Graph α → List (Node α) →
    EStateM.Result Fault (Graph α) Unit → Prop
  | done {g : Graph α} : Drains compute [] g [] (.ok () g)
  | drop {top : Node α} {rest : List (Node α)} {g : Graph α} {calls : List (Node α)}
      {r : EStateM.Result Fault (Graph α) Unit} (held : (g.slot top.id).value.isSome)
      (later : Drains compute rest g calls r) : Drains compute (top :: rest) g calls r
  | push {top : Node α} {rest : List (Node α)} {g : Graph α} {calls : List (Node α)}
      {r : EStateM.Result Fault (Graph α) Unit} (absent : (g.slot top.id).value = none)
      (lacks : g.lacking top ≠ [])
      (later : Drains compute ((g.lacking top).reverse ++ top :: rest) g calls r) :
      Drains compute (top :: rest) g calls r
  | call {top : Node α} {rest : List (Node α)} {g g₁ : Graph α} {calls : List (Node α)}
      {r : EStateM.Result Fault (Graph α) Unit} (absent : (g.slot top.id).value = none)
      (ready : g.lacking top = []) (ran : supply compute top g = .ok () g₁)
      (later : Drains compute rest g₁ calls r) : Drains compute (top :: rest) g (top :: calls) r
  | raise {top : Node α} {rest : List (Node α)} {g g' : Graph α} {f : Fault}
      (absent : (g.slot top.id).value = none) (ready : g.lacking top = [])
      (raised : supply compute top g = .error f g') :
      Drains compute (top :: rest) g [top] (.error f g')

theorem lacking_eq_nil : g.lacking n = [] ↔ ∀ i ∈ n.inputs, (g.slot i.id).value.isSome := by
  rw [lacking, List.filter_eq_nil_iff]
  constructor
  · intro held i input
    obtain ⟨i', inside, same⟩ := mem_distinct input
    simpa [same, Option.isSome_iff_ne_none] using held i' inside
  · intro held i inside
    simpa [Option.isSome_iff_ne_none] using held i (Node.mem_of_mem_distinct inside)

theorem mem_lacking {i : Node α} (mem : i ∈ g.lacking n) :
    i ∈ n.inputs ∧ (g.slot i.id).value = none := by
  obtain ⟨inside, none⟩ := List.mem_filter.mp mem
  exact ⟨Node.mem_of_mem_distinct inside, Option.isNone_iff_eq_none.mp none⟩

theorem held_or_lacking {i : Node α} (input : i ∈ n.inputs) :
    (g.slot i.id).value.isSome ∨ ∃ m ∈ g.lacking n, m.id = i.id := by
  obtain ⟨m, inside, same⟩ := mem_distinct input
  cases value : (g.slot i.id).value with
  | some held => exact .inl rfl
  | none => exact .inr ⟨m, List.mem_filter.mpr ⟨inside, by simp [same, value]⟩, same⟩

theorem missing_eq_lacking : (g.missing n).map Subtype.val = (g.lacking n).reverse := by
  rw [missing, List.map_reverse, List.filter_map, List.map_map]
  conv_rhs => rw [lacking, ← List.attach_map_subtype_val n.distinctInputs, List.filter_map]
  rfl

namespace Drains

/-- A stack leads to one result only, through the same calls. -/
theorem deterministic {calls' : List (Node α)} {r' : EStateM.Result Fault (Graph α) Unit}
    (first : Drains compute stack g calls r) (second : Drains compute stack g calls' r') :
    calls' = calls ∧ r' = r := by
  induction first generalizing calls' r' with
  | done =>
    cases second
    exact ⟨rfl, rfl⟩
  | drop held _ ih =>
    cases second with
    | drop _ later => exact ih later
    | push absent | call absent | raise absent => simp [absent] at held
  | push absent lacks _ ih =>
    cases second with
    | drop held => simp [absent] at held
    | push _ _ later => exact ih later
    | call _ ready | raise _ ready => exact absurd ready lacks
  | call absent ready ran _ ih =>
    cases second with
    | drop held => simp [absent] at held
    | push _ lacks => exact absurd ready lacks
    | call _ _ ran' later =>
      cases ran.symm.trans ran'
      obtain ⟨rfl, rfl⟩ := ih later
      exact ⟨rfl, rfl⟩
    | raise _ _ raised => cases ran.symm.trans raised
  | raise absent ready raised =>
    cases second with
    | drop held => simp [absent] at held
    | push _ lacks => exact absurd ready lacks
    | call _ _ ran => cases ran.symm.trans raised
    | raise _ _ raised' =>
      cases raised.symm.trans raised'
      exact ⟨rfl, rfl⟩

/-- What is below on the stack is taken up when the nodes above it are through. -/
theorem append {below : List (Node α)} {calls' : List (Node α)}
    (first : Drains compute stack g calls (.ok () g₁)) (second : Drains compute below g₁ calls' r) :
    Drains compute (stack ++ below) g (calls ++ calls') r := by
  generalize ended : (.ok () g₁ : EStateM.Result Fault (Graph α) Unit) = r₁ at first
  induction first with
  | done =>
    cases ended
    exact second
  | drop held _ ih => exact .drop held (ih ended)
  | push absent lacks _ ih =>
    refine .push absent lacks ?_
    have := ih ended
    rwa [List.append_assoc] at this
  | call absent ready ran _ ih => exact .call absent ready ran (ih ended)
  | raise => cases ended

/-- Where the nodes above raise, nothing below is taken up. -/
theorem append_raise {f : Fault} (below : List (Node α))
    (first : Drains compute stack g calls (.error f g')) :
    Drains compute (stack ++ below) g calls (.error f g') := by
  generalize ended : (.error f g' : EStateM.Result Fault (Graph α) Unit) = r₁ at first ⊢
  induction first with
  | done => cases ended
  | drop held _ ih => exact .drop held (ih ended)
  | push absent lacks _ ih =>
    refine .push absent lacks ?_
    have := ih ended
    rwa [List.append_assoc] at this
  | call absent ready ran _ ih => exact .call absent ready ran (ih ended)
  | raise absent ready raised => exact .raise absent ready raised

end Drains

/-! ### Callbacks -/

/-- What is expected of a callback: it answers with the value of the node in place and the other
slots as they were, or raises with all slots as they were, and it leaves the count of
recomputations alone. -/
structure Supplies (compute : Node α → GraphM α Unit) : Prop where
  fills : ∀ {n g g'}, n.id < g.slots.size → compute n g = .ok () g' →
    (g'.slot n.id).value.isSome ∧ ∀ id ≠ n.id, g'.slot id = g.slot id
  raises : ∀ {n g f g'}, compute n g = .error f g' → g'.slot = g.slot
  size : ∀ n g, (after (compute n g)).slots.size = g.slots.size
  uncounted : ∀ n g, (after (compute n g)).recomputations = g.recomputations

theorem compute_outline [Element α] (n : Node α) (g : Graph α) :
    (after (Graph.compute n g)).outline = g.outline := by
  cases ran : Graph.compute n g with
  | ok _ g' =>
    obtain ⟨held, g₁, _, outline, _, rfl⟩ := compute_places ran
    rw [after_ok, outline_setComputed, outline_setValue, outline]
  | error f g' => exact (compute_raise ran).outline

theorem compute_supplies [Element α] : Supplies (Graph.compute (α := α)) where
  fills bound ran := by
    obtain ⟨held, _, slots⟩ := compute_slot bound ran
    rw [slots]
    exact ⟨by simp, fun id other => Function.update_of_ne other _ _⟩
  raises raised := (compute_raise raised).slots
  size n g := size_of_outline (compute_outline n g)
  uncounted n g := compute_uncounted n g

theorem recomputations_countRecomputation (n : Node α) (g : Graph α) :
    (g.countRecomputation n).recomputations =
      g.recomputations + if (g.slot n.id).computed then 1 else 0 := by
  rw [countRecomputation]
  split <;> rfl

theorem supply_run (compute : Node α → GraphM α Unit) (n : Node α) (g : Graph α) :
    supply compute n g = compute n (g.countRecomputation n) := rfl

/-- One node has got its value, and nothing else about slots has changed. -/
structure Furnished (n : Node α) (g g₁ : Graph α) : Prop where
  held : (g₁.slot n.id).value.isSome
  others : ∀ id ≠ n.id, g₁.slot id = g.slot id
  size : g₁.slots.size = g.slots.size
  counted : g₁.recomputations = g.recomputations + if (g.slot n.id).computed then 1 else 0

theorem supply_answer (supplies : Supplies compute) (bound : n.id < g.slots.size)
    (ran : supply compute n g = .ok () g₁) : Furnished n g g₁ := by
  rw [supply_run] at ran
  have same : (g.countRecomputation n).slots.size = g.slots.size :=
    size_of_outline (outline_countRecomputation g n)
  have size := supplies.size n (g.countRecomputation n)
  have counted := supplies.uncounted n (g.countRecomputation n)
  obtain ⟨held, others⟩ := supplies.fills (by omega) ran
  rw [ran, after_ok] at size counted
  rw [slot_countRecomputation] at others
  exact ⟨held, others, size.trans same, counted.trans (recomputations_countRecomputation n g)⟩

theorem supply_raise {f : Fault} (supplies : Supplies compute)
    (raised : supply compute n g = .error f g') :
    g'.slot = g.slot ∧ g'.slots.size = g.slots.size := by
  rw [supply_run] at raised
  have size := supplies.size n (g.countRecomputation n)
  rw [raised, after_error] at size
  refine ⟨?_, size.trans (size_of_outline (outline_countRecomputation g n))⟩
  rw [supplies.raises raised, slot_countRecomputation]

/-! ### The calls -/

/-- Calls of the callback in a row, up to one that raises, each on a node without a value whose
inputs hold theirs. -/
inductive Calls (compute : Node α → GraphM α Unit) :
    Graph α → List (Node α) → EStateM.Result Fault (Graph α) Unit → Prop
  | done {g : Graph α} : Calls compute g [] (.ok () g)
  | next {n : Node α} {rest : List (Node α)} {g g₁ : Graph α}
      {r : EStateM.Result Fault (Graph α) Unit} (absent : (g.slot n.id).value = none)
      (ready : ∀ i ∈ n.inputs, (g.slot i.id).value.isSome)
      (ran : supply compute n g = .ok () g₁) (later : Calls compute g₁ rest r) :
      Calls compute g (n :: rest) r
  | raise {n : Node α} {g g' : Graph α} {f : Fault} (absent : (g.slot n.id).value = none)
      (ready : ∀ i ∈ n.inputs, (g.slot i.id).value.isSome)
      (raised : supply compute n g = .error f g') : Calls compute g [n] (.error f g')

theorem Drains.called (drains : Drains compute stack g calls r) : Calls compute g calls r := by
  induction drains with
  | done => exact .done
  | drop _ _ ih | push _ _ _ ih => exact ih
  | call absent ready ran _ ih => exact .next absent (lacking_eq_nil.mp ready) ran ih
  | raise absent ready raised => exact .raise absent (lacking_eq_nil.mp ready) raised

namespace Calls

theorem run (ran : Calls compute g calls r) : r = calls.forM (supply compute) g := by
  induction ran with
  | done => rfl
  | @next n rest _ _ _ _ _ ran _ ih =>
    change _ = (supply compute n >>= fun _ => rest.forM (supply compute)) _
    rw [run_bind ran]
    exact ih
  | raise _ _ raised => exact (raise_bind.mpr (.inl raised)).symm

/-- Up to any of the calls the others have answered. -/
theorem split {front back : List (Node α)} (ran : Calls compute g (front ++ n :: back) r) :
    ∃ g₁, Calls compute g front (.ok () g₁) ∧ Calls compute g₁ (n :: back) r := by
  induction front generalizing g with
  | nil => exact ⟨g, .done, ran⟩
  | cons m front ih =>
    generalize same : m :: front ++ n :: back = calls at ran
    cases ran with
    | done => cases same
    | next absent ready ran later =>
      cases same
      obtain ⟨g₁, earlier, rest⟩ := ih later
      exact ⟨g₁, .next absent ready ran earlier, rest⟩
    | raise => simp at same

theorem first {back : List (Node α)} (ran : Calls compute g (n :: back) r) :
    (g.slot n.id).value = none ∧ ∀ i ∈ n.inputs, (g.slot i.id).value.isSome := by
  cases ran with
  | next absent ready | raise absent ready => exact ⟨absent, ready⟩

/-- Where the calls raise, it is the last one that does. -/
theorem last {f : Fault} (ran : Calls compute g calls (.error f g')) :
    ∃ front n g₁, calls = front ++ [n] ∧ Calls compute g front (.ok () g₁) ∧
      supply compute n g₁ = .error f g' := by
  generalize ended : (.error f g' : EStateM.Result Fault (Graph α) Unit) = r at ran
  induction ran with
  | done => cases ended
  | next absent ready ran _ ih =>
    obtain ⟨front, n, g₁, rfl, earlier, raised⟩ := ih ended
    exact ⟨_ :: front, n, g₁, rfl, .next absent ready ran earlier, raised⟩
  | raise absent ready raised =>
    cases ended
    exact ⟨[], _, _, rfl, .done, raised⟩

section Furnished

variable (supplies : Supplies compute) (bound : ∀ m ∈ calls, m.id < g.slots.size)
include supplies bound

theorem size (ran : Calls compute g calls r) : (after r).slots.size = g.slots.size := by
  induction ran with
  | done => rfl
  | next _ _ ran _ ih =>
    obtain ⟨here, later⟩ := List.forall_mem_cons.mp bound
    have supplied := supply_answer supplies here ran
    exact (ih (supplied.size ▸ later)).trans supplied.size
  | raise _ _ raised => exact (supply_raise supplies raised).2

/-- A value that is held stays. -/
theorem steady (ran : Calls compute g calls r) {id : Nat} (held : (g.slot id).value.isSome) :
    (after r).slot id = g.slot id := by
  induction ran with
  | done => rfl
  | @next n _ _ _ _ absent _ ran _ ih =>
    obtain ⟨here, later⟩ := List.forall_mem_cons.mp bound
    have supplied := supply_answer supplies here ran
    have other : id ≠ n.id := by
      rintro rfl
      simp [absent] at held
    have same := supplied.others id other
    rw [ih (supplied.size ▸ later) (by rwa [same]), same]
  | raise _ _ raised => rw [after_error, (supply_raise supplies raised).1]

/-- The slots of other nodes stay. -/
theorem others (ran : Calls compute g calls r) {id : Nat} (other : ∀ m ∈ calls, m.id ≠ id) :
    (after r).slot id = g.slot id := by
  induction ran with
  | done => rfl
  | next _ _ ran _ ih =>
    obtain ⟨here, later⟩ := List.forall_mem_cons.mp bound
    obtain ⟨apart, apart'⟩ := List.forall_mem_cons.mp other
    have supplied := supply_answer supplies here ran
    rw [ih (supplied.size ▸ later) apart', supplied.others id apart.symm]
  | raise _ _ raised => rw [after_error, (supply_raise supplies raised).1]

theorem filled (ran : Calls compute g calls (.ok () g')) :
    ∀ m ∈ calls, (g'.slot m.id).value.isSome := by
  generalize ended : (.ok () g' : EStateM.Result Fault (Graph α) Unit) = r at ran
  induction ran with
  | done => nofun
  | next _ _ ran later ih =>
    obtain ⟨here, rest⟩ := List.forall_mem_cons.mp bound
    have supplied := supply_answer supplies here ran
    have stays := later.steady supplies (supplied.size ▸ rest) supplied.held
    subst ended
    refine List.forall_mem_cons.mpr ⟨?_, ih (supplied.size ▸ rest) rfl⟩
    rw [after_ok] at stays
    rw [stays]
    exact supplied.held
  | raise => cases ended

/-- No id is called twice: after the first call the node holds its value. -/
theorem nodup (ran : Calls compute g calls r) : (calls.map Node.id).Nodup := by
  induction ran with
  | done => exact .nil
  | next _ _ ran later ih =>
    obtain ⟨here, rest⟩ := List.forall_mem_cons.mp bound
    have supplied := supply_answer supplies here ran
    rw [← supplied.size] at rest
    refine List.nodup_cons.mpr ⟨fun again => ?_, ih rest⟩
    obtain ⟨m, inside, same⟩ := List.mem_map.mp again
    obtain ⟨front, back, rfl⟩ := List.append_of_mem inside
    obtain ⟨g₂, earlier, later⟩ := later.split
    have stays := earlier.steady supplies (fun m mem => rest m (by simp [mem])) supplied.held
    have absent := later.first.1
    rw [after_ok] at stays
    rw [same, stays, ← Option.not_isSome_iff_eq_none] at absent
    exact absent supplied.held
  | raise => exact List.nodup_singleton _

theorem recomputations (ran : Calls compute g calls (.ok () g')) : g'.recomputations =
    g.recomputations + calls.countP fun m => (g.slot m.id).computed := by
  have apart := ran.nodup supplies bound
  generalize ended : (.ok () g' : EStateM.Result Fault (Graph α) Unit) = r at ran
  induction ran with
  | done =>
    cases ended
    rfl
  | @next n rest g g₁ _ _ _ ran _ ih =>
    obtain ⟨here, later⟩ := List.forall_mem_cons.mp bound
    obtain ⟨other, apart'⟩ := List.nodup_cons.mp apart
    have supplied := supply_answer supplies here ran
    have same : rest.countP (fun m => (g₁.slot m.id).computed) =
        rest.countP fun m => (g.slot m.id).computed := by
      refine List.countP_congr fun m mem => ?_
      rw [supplied.others m.id]
      exact fun same => other (List.mem_map.mpr ⟨m, mem, same⟩)
    rw [ih (supplied.size ▸ later) apart' ended, supplied.counted, same, List.countP_cons]
    omega
  | raise => cases ended

end Furnished

end Calls

/-! ### What is computed -/

/-- What a node is made of has slots and distinct ids, and inputs have smaller ids. -/
structure Ordered (g : Graph α) (n : Node α) : Prop where
  bound : ∀ {m}, Needs n m → m.id < g.slots.size
  unique : ∀ {m m'}, Needs n m → Needs n m' → m.id = m'.id → m = m'
  smaller : ∀ {m}, Needs n m → ∀ i ∈ m.inputs, i.id < m.id

theorem Ordered.of_size (ordered : Ordered g n) (size : g₁.slots.size = g.slots.size) :
    Ordered g₁ n :=
  ⟨fun needs => size ▸ ordered.bound needs, ordered.unique, ordered.smaller⟩

theorem Ordered.input {i : Node α} (ordered : Ordered g n) (input : i ∈ n.inputs) : Ordered g i :=
  ⟨fun needs => ordered.bound (.head input needs),
    fun needs needs' => ordered.unique (.head input needs) (.head input needs'),
    fun needs => ordered.smaller (.head input needs)⟩

theorem Ordered.le (ordered : Ordered g n) (needs : Needs n m) : m.id ≤ n.id := by
  induction needs with
  | refl => exact Nat.le_refl _
  | tail needs input ih =>
    exact Nat.le_of_lt (Nat.lt_of_lt_of_le (ordered.smaller needs _ input) ih)

theorem Ordered.of_wellFormed {known : Node α → Prop} (wf : WellFormed known g) (mem : known n) :
    Ordered g n := by
  have all : ∀ {m}, Needs n m → known m := fun needs => by
    induction needs with
    | refl => exact mem
    | tail _ input ih => exact wf.known_inputs ih input
  exact ⟨fun needs => wf.bound (all needs), fun needs needs' => wf.unique (all needs) (all needs'),
    fun needs i input => (wf.inputs (all needs) input).2⟩

/-- The nodes without a value that a node reaches through its inputs, by way of nodes without a
value only. -/
inductive Wanting (g : Graph α) (n : Node α) : Node α → Prop
  | here (absent : (g.slot n.id).value = none) : Wanting g n n
  | input {m i : Node α} (wanting : Wanting g n m) (input : i ∈ m.inputs)
      (absent : (g.slot i.id).value = none) : Wanting g n i

namespace Wanting

theorem needs (wanting : Wanting g n m) : Needs n m := by
  induction wanting with
  | here => exact .refl
  | input _ input _ ih => exact .tail ih input

theorem head {i : Node α} (absent : (g.slot n.id).value = none) (input : i ∈ n.inputs)
    (wanting : Wanting g i m) : Wanting g n m := by
  induction wanting with
  | here absent' => exact .input (.here absent) input absent'
  | input _ input' absent' ih => exact .input ih input' absent'

theorem mono (kept : ∀ id, (g₁.slot id).value = none → (g.slot id).value = none)
    (wanting : Wanting g₁ n m) : Wanting g n m := by
  induction wanting with
  | here absent => exact .here (kept _ absent)
  | input _ input absent ih => exact .input ih input (kept _ absent)

end Wanting

theorem Furnished.absent (supplied : Furnished n g g₁) {id : Nat}
    (absent : (g₁.slot id).value = none) : (g.slot id).value = none := by
  by_cases same : id = n.id
  · rw [same, ← Option.not_isSome_iff_eq_none] at absent
    exact absurd supplied.held absent
  · rwa [supplied.others id same] at absent

namespace Drains

/-- Only what the nodes on the stack are made of is computed. -/
theorem needs (drains : Drains compute stack g calls r) :
    ∀ m ∈ calls, ∃ s ∈ stack, Needs s m := by
  induction drains with
  | done => nofun
  | drop _ _ ih => exact fun m mem => (ih m mem).imp fun s => .imp_left (List.mem_cons_of_mem _)
  | @push top _ _ _ _ _ _ _ ih =>
    intro m mem
    obtain ⟨s, inside, needs⟩ := ih m mem
    rcases List.mem_append.mp inside with inside | inside
    · have input := (mem_lacking (List.mem_reverse.mp inside)).1
      exact ⟨top, List.mem_cons_self, .head input needs⟩
    · exact ⟨s, inside, needs⟩
  | @call top _ _ _ _ _ _ _ _ _ ih =>
    refine List.forall_mem_cons.mpr ⟨⟨top, List.mem_cons_self, .refl⟩, fun m mem => ?_⟩
    exact (ih m mem).imp fun s => .imp_left (List.mem_cons_of_mem _)
  | @raise top => exact List.forall_mem_singleton.mpr ⟨top, List.mem_cons_self, .refl⟩

section Furnished

variable (supplies : Supplies compute)
include supplies

/-- Only nodes that are wanted for the stack are computed. -/
theorem wanting (bound : ∀ s ∈ stack, ∀ m, Needs s m → m.id < g.slots.size)
    (drains : Drains compute stack g calls r) : ∀ m ∈ calls, ∃ s ∈ stack, Wanting g s m := by
  induction drains with
  | done => nofun
  | drop _ _ ih =>
    obtain ⟨_, later⟩ := List.forall_mem_cons.mp bound
    exact fun m mem => (ih later m mem).imp fun s => .imp_left (List.mem_cons_of_mem _)
  | @push top rest g _ _ absent _ _ ih =>
    intro m mem
    have bound' : ∀ s ∈ (g.lacking top).reverse ++ top :: rest, ∀ m, Needs s m →
        m.id < g.slots.size := by
      intro s inside m needs
      rcases List.mem_append.mp inside with inside | inside
      · have input := (mem_lacking (List.mem_reverse.mp inside)).1
        exact bound top List.mem_cons_self m (.head input needs)
      · exact bound s inside m needs
    obtain ⟨s, inside, wanting⟩ := ih bound' m mem
    rcases List.mem_append.mp inside with inside | inside
    · have input := (mem_lacking (List.mem_reverse.mp inside)).1
      exact ⟨top, List.mem_cons_self, wanting.head absent input⟩
    · exact ⟨s, inside, wanting⟩
  | @call top rest g g₁ _ _ absent _ ran _ ih =>
    obtain ⟨here, later⟩ := List.forall_mem_cons.mp bound
    have supplied := supply_answer supplies (here top .refl) ran
    refine List.forall_mem_cons.mpr ⟨⟨top, List.mem_cons_self, .here absent⟩, fun m mem => ?_⟩
    obtain ⟨s, inside, wanting⟩ := ih (supplied.size ▸ later) m mem
    exact ⟨s, List.mem_cons_of_mem _ inside, wanting.mono fun _ => supplied.absent⟩
  | @raise top _ _ _ _ absent =>
    exact List.forall_mem_singleton.mpr ⟨top, List.mem_cons_self, .here absent⟩

/-- When the stack has run empty, all nodes that were on it hold their values. -/
theorem filled (bound : ∀ m ∈ calls, m.id < g.slots.size)
    (drains : Drains compute stack g calls (.ok () g')) :
    ∀ s ∈ stack, (g'.slot s.id).value.isSome := by
  generalize ended : (.ok () g' : EStateM.Result Fault (Graph α) Unit) = r at drains
  induction drains with
  | done => nofun
  | drop held later ih =>
    have stays := later.called.steady supplies bound held
    subst ended
    refine List.forall_mem_cons.mpr ⟨?_, ih bound rfl⟩
    rw [after_ok] at stays
    rwa [stays]
  | push _ _ _ ih => exact fun s inside => ih bound ended s (List.mem_append_right _ inside)
  | call absent ready ran later ih =>
    subst ended
    have held := (later.called.next absent (lacking_eq_nil.mp ready) ran).filled supplies bound
    obtain ⟨here, rest⟩ := List.forall_mem_cons.mp bound
    have size := (supply_answer supplies here ran).size
    exact List.forall_mem_cons.mpr ⟨held _ List.mem_cons_self, ih (size ▸ rest) rfl⟩
  | raise => cases ended

end Furnished

end Drains

/-! ### The recursion -/

/-- What the loop does, by recursion on the inputs. -/
def ensureBy (compute : Node α → GraphM α Unit) (n : Node α) : GraphM α Unit := do
  let g ← get
  if (g.slot n.id).value.isSome then pure ()
  else
    (g.missing n).forM fun m => ensureBy compute m.val
    supply compute n
termination_by sizeOf n
decreasing_by exact Node.sizeOf_lt_of_mem_inputs m.property

theorem ensureBy_held (held : (g.slot n.id).value.isSome) :
    ensureBy compute n g = .ok () g := by
  rw [ensureBy, run_bind (answer_get.mpr ⟨rfl, rfl⟩), if_pos held]
  rfl

theorem ensureBy_absent (absent : (g.slot n.id).value = none) :
    ensureBy compute n g = (do
      (g.lacking n).reverse.forM (ensureBy compute)
      supply compute n : GraphM α Unit) g := by
  have inputs : (g.lacking n).reverse.forM (ensureBy compute) =
      (g.missing n).forM fun m => ensureBy compute m.val := by
    rw [← missing_eq_lacking]
    exact List.forM_map
  rw [inputs, ensureBy, run_bind (answer_get.mpr ⟨rfl, rfl⟩), if_neg (by simp [absent])]

theorem ensureBy_compute [Element α] (n : Node α) :
    ensureBy (Graph.compute (α := α)) n = ensure n := by
  induction n using Node.rec_inputs with
  | step n ih =>
    rw [ensureBy, ensure_eq]
    congr 1
    funext g
    split
    · rfl
    · have same : (fun m : { m : Node α // m ∈ n.inputs } => ensureBy Graph.compute m.val) =
          fun m => ensure m.val := funext fun m => ih m.val m.property
      rw [same]
      rfl

/-- A node whose inputs all hold their values is computed at once. -/
theorem drains_ready (absent : (g.slot n.id).value = none) (ready : g.lacking n = []) :
    Drains compute [n] g [n] (supply compute n g) := by
  cases ran : supply compute n g with
  | ok _ g₁ => exact .call absent ready ran .done
  | error f g' => exact .raise absent ready ran

theorem Drains.bound (ordered : ∀ s ∈ stack, Ordered g s)
    (drains : Drains compute stack g calls r) : ∀ m ∈ calls, m.id < g.slots.size := by
  intro m mem
  obtain ⟨s, inside, needs⟩ := drains.needs m mem
  exact (ordered s inside).bound needs

section Recursion

variable (supplies : Supplies compute)
include supplies

/-- Nodes made available one after the other are a stack of nodes. -/
theorem drains_row {is : List (Node α)} (ordered : ∀ i ∈ is, Ordered g i)
    (each : ∀ i ∈ is, ∀ g, Ordered g i →
      ∃ calls, Drains compute [i] g calls (ensureBy compute i g)) :
    ∃ calls, Drains compute is g calls (is.forM (ensureBy compute) g) := by
  induction is generalizing g with
  | nil => exact ⟨[], .done⟩
  | cons i is ih =>
    obtain ⟨here, later⟩ := List.forall_mem_cons.mp ordered
    obtain ⟨first, rest⟩ := List.forall_mem_cons.mp each
    obtain ⟨calls, drains⟩ := first g here
    change ∃ calls, Drains compute ([i] ++ is) g calls
      ((ensureBy compute i >>= fun _ => is.forM (ensureBy compute)) g)
    cases ran : ensureBy compute i g with
    | ok _ g₁ =>
      rw [ran] at drains
      have size := drains.called.size supplies (drains.bound (by simpa using here))
      obtain ⟨calls', drains'⟩ := ih (fun j mem => (later j mem).of_size size) rest
      rw [run_bind ran]
      exact ⟨calls ++ calls', drains.append drains'⟩
    | error f g' =>
      rw [ran] at drains
      rw [raise_bind.mpr (.inl ran)]
      exact ⟨calls, drains.append_raise is⟩

/-- The loop does what the recursion does. -/
theorem drains_ensureBy (ordered : Ordered g n) :
    ∃ calls, Drains compute [n] g calls (ensureBy compute n g) := by
  induction n using Node.rec_inputs generalizing g with
  | step n ih =>
    cases value : (g.slot n.id).value with
    | some held =>
      have held : (g.slot n.id).value.isSome := by rw [value]; rfl
      rw [ensureBy_held held]
      exact ⟨[], .drop held .done⟩
    | none =>
      rw [ensureBy_absent value]
      by_cases ready : g.lacking n = []
      · rw [ready]
        exact ⟨[n], drains_ready value ready⟩
      have inputs : ∀ i ∈ (g.lacking n).reverse, i ∈ n.inputs := fun i mem =>
        (mem_lacking (List.mem_reverse.mp mem)).1
      have below : ∀ i ∈ (g.lacking n).reverse, Ordered g i := fun i mem =>
        ordered.input (inputs i mem)
      obtain ⟨calls, drains⟩ := drains_row supplies below fun i mem g => ih i (inputs i mem)
      cases ran : (g.lacking n).reverse.forM (ensureBy compute) g with
      | error f g' =>
        rw [ran] at drains
        rw [raise_bind.mpr (.inl ran)]
        exact ⟨calls, .push value ready (drains.append_raise [n])⟩
      | ok _ g₁ =>
        rw [ran] at drains
        rw [run_bind ran]
        have bound := drains.bound below
        -- the inputs hold their values now, and the slot of the node has not been touched
        have other : ∀ m ∈ calls, m.id ≠ n.id := by
          intro m mem
          obtain ⟨i, inside, needs⟩ := drains.needs m mem
          have less := ordered.smaller .refl i (inputs i inside)
          exact Nat.ne_of_lt (Nat.lt_of_le_of_lt ((below i inside).le needs) less)
        have absent : (g₁.slot n.id).value = none := by
          rw [← value, ← drains.called.others supplies bound other, after_ok]
        have ready' : g₁.lacking n = [] := by
          refine lacking_eq_nil.mpr fun i input => ?_
          rcases held_or_lacking (g := g) input with held | ⟨m, lacks, same⟩
          · have stays := drains.called.steady supplies bound held
            rw [after_ok] at stays
            rwa [stays]
          · rw [← same]
            exact drains.filled supplies bound m (List.mem_reverse.mpr lacks)
        exact ⟨calls ++ [n], .push value ready (drains.append (drains_ready absent ready'))⟩

end Recursion

/-! ### Exactly what is missing -/

section Complete

variable (supplies : Supplies compute) (ordered : Ordered g n)
include supplies ordered

/-- A node that has got a value has been called. -/
theorem Calls.mem (needed : ∀ c ∈ calls, Needs n c) (ran : Calls compute g calls r)
    (needs : Needs n m) (absent : (g.slot m.id).value = none)
    (held : ((after r).slot m.id).value.isSome) : m ∈ calls := by
  by_contra outside
  have other : ∀ c ∈ calls, c.id ≠ m.id := fun c mem same =>
    outside (ordered.unique (needed c mem) needs same ▸ mem)
  rw [ran.others supplies (fun c mem => ordered.bound (needed c mem)) other, absent] at held
  cases held

/-- Every node that is wanted is computed: the node itself holds its value in the end, and an input
of a node holds it when that node is computed. -/
theorem Drains.complete (drains : Drains compute [n] g calls (.ok () g'))
    (wanting : Wanting g n m) : m ∈ calls := by
  have needed : ∀ c ∈ calls, Needs n c := by simpa using drains.needs
  have bound := fun c mem => ordered.bound (needed c mem)
  induction wanting with
  | here absent =>
    exact drains.called.mem supplies ordered needed .refl absent
      (drains.filled supplies bound n (by simp))
  | @input m i wanting input absent ih =>
    obtain ⟨front, back, rfl⟩ := List.append_of_mem ih
    obtain ⟨g₁, earlier, later⟩ := drains.called.split
    have inside := earlier.mem supplies ordered (fun c mem => needed c (by simp [mem]))
      (.tail wanting.needs input) absent (later.first.2 i input)
    exact List.mem_append_left _ inside

end Complete

/-- Values are made available from a node on: the calls are made once each, on nodes that are
wanted, with the values of all inputs in place, and the values they make are kept. An answer comes
after all nodes that are wanted have been computed, with the value of the node and no other slot
changed, and counts those that had been computed before. If a call raises it is the last one, and
only the nodes computed before it have changed. -/
structure Recomputes (compute : Node α → GraphM α Unit) (n : Node α) (g : Graph α)
    (calls : List (Node α)) (r : EStateM.Result Fault (Graph α) Unit) : Prop where
  run : r = calls.forM (supply compute) g
  once : calls.Nodup
  wanted : ∀ m ∈ calls, Wanting g n m
  ready : ∀ front m back, calls = front ++ m :: back → ∃ g₁,
    front.forM (supply compute) g = .ok () g₁ ∧ (g₁.slot m.id).value = none ∧
    ∀ i ∈ m.inputs, (g₁.slot i.id).value.isSome
  kept : ∀ front back g₁, calls = front ++ back → front.forM (supply compute) g = .ok () g₁ →
    ∀ m ∈ front, (g₁.slot m.id).value.isSome ∧ (after r).slot m.id = g₁.slot m.id
  answer : ∀ g', r = .ok () g' → (∀ m, m ∈ calls ↔ Wanting g n m) ∧
    (∃ t, g'.held? n.id = some t) ∧
    (∀ id, (∀ m, Wanting g n m → m.id ≠ id) → g'.slot id = g.slot id) ∧
    g'.recomputations = g.recomputations + calls.countP fun m => (g.slot m.id).computed
  raise : ∀ f g', r = .error f g' → ∃ front m g₁, calls = front ++ [m] ∧
    front.forM (supply compute) g = .ok () g₁ ∧ supply compute m g₁ = .error f g' ∧
    ∀ id, (∀ i ∈ front, i.id ≠ id) → g'.slot id = g.slot id

theorem Drains.recomputes (supplies : Supplies compute) (ordered : Ordered g n)
    (drains : Drains compute [n] g calls r) : Recomputes compute n g calls r := by
  have bound := drains.bound (by simpa using ordered)
  have wanted : ∀ m ∈ calls, Wanting g n m := by
    simpa using drains.wanting supplies (by simpa using fun _ => ordered.bound)
  have ran := drains.called
  refine ⟨ran.run, .of_map _ (ran.nodup supplies bound), wanted, ?ready, ?kept, ?answer, ?raise⟩
  case ready =>
    rintro front m back rfl
    obtain ⟨g₁, earlier, later⟩ := ran.split
    exact ⟨g₁, earlier.run.symm, later.first⟩
  case kept =>
    rintro front back g₁ rfl ended m mem
    have bound' : ∀ i ∈ front, i.id < g.slots.size := fun i mem => bound i (by simp [mem])
    cases back with
    | nil =>
      rw [List.append_nil] at ran
      cases ran.run.trans ended
      exact ⟨ran.filled supplies bound' m mem, rfl⟩
    | cons c back =>
      obtain ⟨g₂, earlier, later⟩ := ran.split
      cases earlier.run.trans ended
      have held := earlier.filled supplies bound' m mem
      have size := earlier.size supplies bound'
      rw [after_ok] at size
      refine ⟨held, later.steady supplies (fun i mem => ?_) held⟩
      exact size ▸ bound i (List.mem_append_right _ mem)
  case answer =>
    rintro g' rfl
    have held := drains.filled supplies bound n (by simp)
    refine ⟨fun m => ⟨wanted m, drains.complete supplies ordered⟩, ?_, fun id other => ?_,
      ran.recomputations supplies bound⟩
    · obtain ⟨t, value⟩ := Option.isSome_iff_exists.mp held
      exact ⟨t.array, by rw [held?, value]; rfl⟩
    · exact ran.others supplies bound fun m mem => other m (wanted m mem)
  case raise =>
    rintro f g' rfl
    obtain ⟨front, m, g₁, rfl, earlier, raised⟩ := ran.last
    refine ⟨front, m, g₁, rfl, earlier.run.symm, raised, fun id other => ?_⟩
    rw [(supply_raise supplies raised).1]
    exact earlier.others supplies (fun i mem => bound i (by simp [mem])) other

/-- The loop from one node ends, in one way only, and computes exactly what is missing; with the
computation of a node as its callback it does what `ensure` does, which answers with the value of
the node in place. -/
theorem ensure_recomputes [Element α] (ordered : Ordered g n) :
    (∀ compute : Node α → GraphM α Unit, Supplies compute → ∃ calls r,
      (∀ calls' r', Drains compute [n] g calls' r' ↔ calls' = calls ∧ r' = r) ∧
      Recomputes compute n g calls r) ∧
    Supplies (Graph.compute (α := α)) ∧
    (∀ r, (∃ calls, Drains Graph.compute [n] g calls r) ↔ r = ensure n g) ∧
    ∀ g', ensure n g = .ok () g' → ∃ t, ensured n g = .ok t g' ∧ g'.held? n.id = some t := by
  have supplies := compute_supplies (α := α)
  obtain ⟨calls, drains⟩ := drains_ensureBy supplies ordered
  rw [ensureBy_compute] at drains
  refine ⟨fun compute supplies => ?_, supplies, fun r => ⟨?_, ?_⟩, fun g' answered => ?_⟩
  · obtain ⟨calls, drains⟩ := drains_ensureBy supplies ordered
    refine ⟨calls, _, fun calls' r' => ⟨drains.deterministic, ?_⟩,
      drains.recomputes supplies ordered⟩
    rintro ⟨rfl, rfl⟩
    exact drains
  · rintro ⟨calls', drains'⟩
    exact (drains.deterministic drains').2
  · rintro rfl
    exact ⟨calls, drains⟩
  · obtain ⟨_, ⟨t, held⟩, _⟩ := (drains.recomputes supplies ordered).answer g' answered
    refine ⟨t, ?_, held⟩
    rw [ensured, run_bind answered, run_bind (answer_get.mpr ⟨rfl, rfl⟩), held]
    rfl

end Graph

/-! ### An example -/

namespace Sample

open ReverseMode.Graph

theorem late_ordered : Ordered grown.graph late := by
  have wf := grown_extended.reachable.invariant.sound.toWellFormed
  exact .of_wellFormed wf (wf.tape.mp (by simp [grown_tape])).1

/-- After the first pass the square and the sum have been dropped. The loop computes them again for
the new node, and counts both. -/
theorem late_recomputes : ∃ calls g', Drains Graph.compute [late] grown.graph calls (.ok () g') ∧
    (∀ m, m ∈ calls ↔ Wanting grown.graph late m) ∧ square ∈ calls ∧ sum ∈ calls ∧
    g'.recomputations = grown.graph.recomputations + 2 := by
  obtain ⟨each, supplies, ends, _⟩ := ensure_recomputes late_ordered
  obtain ⟨calls, r, only, recomputes⟩ := each Graph.compute supplies
  have drains := (only calls r).mpr ⟨rfl, rfl⟩
  have result := (ends r).mp ⟨calls, drains⟩
  obtain ⟨_, answered⟩ := answer_of_answers
    (r := (ensure late : GraphM Int Unit) grown.graph) (by decide +kernel)
  cases result.trans answered
  obtain ⟨exactly, _⟩ := recomputes.answer _ rfl
  have empty : ∀ m ∈ [late, sum, square], (grown.graph.slot m.id).value.isSome = false := by
    decide +kernel
  simp only [List.mem_cons, List.not_mem_nil, or_false, forall_eq_or_imp, forall_eq,
    Option.isSome_eq_false_iff, Option.isNone_iff_eq_none] at empty
  obtain ⟨first, second, third⟩ := empty
  have wanted : Wanting grown.graph late sum :=
    .input (.here first) (by simp [late, Node.inputs]) second
  refine ⟨calls, _, drains, exactly, (exactly square).mpr ?_, (exactly sum).mpr wanted, ?_⟩
  · exact wanted.input (by simp [sum, Node.inputs]) third
  · decide +kernel

end Sample

end ReverseMode
