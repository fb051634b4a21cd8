import ReverseMode.Proofs.Invariant
import ReverseMode.Proofs.OperatorTypes

/-!
Graphs whose arrays conform to their nodes.

`Typed` says that values and gradients have the extents and the element types of their nodes, and
that nodes which show one storage have one element type, so that what is written to the storage
suits all of them. Each change of one slot keeps a graph typed if what is put there conforms and its
storage is new or is that of a node of the same type.
-/

namespace ReverseMode

variable {α : Type}

/-- What is held of a node, its value or its gradient, is in this storage. -/
def Slot.Stores (s : Slot α) (storage : Nat) : Prop :=
  (∃ held, s.value = some held ∧ held.storage = storage) ∨
    ∃ held, s.grad = some held ∧ held.storage = storage

/-- Operators apply lawful functions, and only parameters of float type are trainable leaves. -/
def Node.Lawful : Node Scalar → Prop
  | .leaf s _ => s.trainable.holds = true → s.episode = none ∧ s.type.isFloat = true
  | .apply _ op _ => op.Lawful

namespace Graph

variable {known : Node Scalar → Prop} {g g' : Graph Scalar}

/-- Values and gradients conform to their nodes, and a storage to all nodes that show it. -/
structure Typed (known : Node Scalar → Prop) (g : Graph Scalar) : Prop where
  value : ∀ {n}, known n → ∀ {held}, (g.slot n.id).value = some held →
    held.array.Conforms n.signature
  grad : ∀ {n}, known n → ∀ {held}, (g.slot n.id).grad = some held →
    held.array.Conforms n.signature
  used : ∀ {n}, known n → ∀ {k}, (g.slot n.id).Stores k → k < g.allocator.fresh
  shared : ∀ {m n}, known m → known n → ∀ {k}, (g.slot m.id).Stores k → (g.slot n.id).Stores k →
    m.type = n.type

/-- Something that is held may be put into the slot of a node. -/
structure Suits (known : Node Scalar → Prop) (g g' : Graph Scalar) (n : Node Scalar)
    (held : Held Scalar) : Prop where
  conforms : held.array.Conforms n.signature
  place : New g g' held.storage ∨
    ∃ m, known m ∧ m.type = n.type ∧ (g.slot m.id).Stores held.storage

/-- Nothing is held that was not held before. -/
theorem Typed.of_fewer (typed : Typed known g) (fresh : g.allocator.fresh ≤ g'.allocator.fresh)
    (value : ∀ n, known n → ∀ held, (g'.slot n.id).value = some held →
      (g.slot n.id).value = some held)
    (grad : ∀ n, known n → ∀ held, (g'.slot n.id).grad = some held →
      (g.slot n.id).grad = some held) : Typed known g' := by
  have stores : ∀ {n}, known n → ∀ {k}, (g'.slot n.id).Stores k → (g.slot n.id).Stores k := by
    intro n mem k stores
    rcases stores with ⟨held, found, here⟩ | ⟨held, found, here⟩
    · exact .inl ⟨held, value n mem held found, here⟩
    · exact .inr ⟨held, grad n mem held found, here⟩
  constructor
  · exact fun mem _ found => typed.value mem (value _ mem _ found)
  · exact fun mem _ found => typed.grad mem (grad _ mem _ found)
  · exact fun mem _ used => Nat.lt_of_lt_of_le (typed.used mem (stores mem used)) fresh
  · exact fun mem mem' _ first second => typed.shared mem mem' (stores mem first)
      (stores mem' second)

theorem Typed.of_slots (typed : Typed known g) (fresh : g.allocator.fresh ≤ g'.allocator.fresh)
    (slots : g'.slot = g.slot) : Typed known g' :=
  typed.of_fewer fresh (fun _ _ _ held => slots ▸ held) fun _ _ _ held => slots ▸ held

/-- One slot changes, and what is new in it suits its node. -/
theorem Typed.of_update {n : Node Scalar} {s : Slot Scalar} (typed : Typed known g)
    (wf : WellFormed known g) (mem : known n) (fresh : g.allocator.fresh ≤ g'.allocator.fresh)
    (slots : g'.slot = Function.update g.slot n.id s)
    (value : ∀ held, s.value = some held →
      (g.slot n.id).value = some held ∨ Suits known g g' n held)
    (grad : ∀ held, s.grad = some held → (g.slot n.id).grad = some held ∨ Suits known g g' n held) :
    Typed known g' := by
  have here : g'.slot n.id = s := by rw [slots, Function.update_self]
  have there : ∀ {m}, known m → m ≠ n → g'.slot m.id = g.slot m.id := by
    intro m mem' other
    rw [slots, Function.update_of_ne (wf.ne_of_id mem' mem other)]
  -- a storage that is shown is new, or a node of the same type has shown it
  have stores : ∀ {m}, known m → ∀ {k}, (g'.slot m.id).Stores k →
      (∃ m', known m' ∧ m'.type = m.type ∧ (g.slot m'.id).Stores k) ∨ m = n ∧ New g g' k := by
    intro m mem' k stores
    by_cases same : m = n
    · subst same
      rw [here] at stores
      rcases stores with ⟨held, found, rfl⟩ | ⟨held, found, rfl⟩
      · rcases value held found with before | suits
        · exact .inl ⟨m, mem', rfl, .inl ⟨held, before, rfl⟩⟩
        · exact suits.place.elim (fun new => .inr ⟨rfl, new⟩) .inl
      · rcases grad held found with before | suits
        · exact .inl ⟨m, mem', rfl, .inr ⟨held, before, rfl⟩⟩
        · exact suits.place.elim (fun new => .inr ⟨rfl, new⟩) .inl
    · rw [there mem' same] at stores
      exact .inl ⟨m, mem', rfl, stores⟩
  constructor
  · intro m mem' held found
    by_cases same : m = n
    · subst same
      rw [here] at found
      exact (value held found).elim (typed.value mem) Suits.conforms
    · rw [there mem' same] at found
      exact typed.value mem' found
  · intro m mem' held found
    by_cases same : m = n
    · subst same
      rw [here] at found
      exact (grad held found).elim (typed.grad mem) Suits.conforms
    · rw [there mem' same] at found
      exact typed.grad mem' found
  · intro m mem' k used
    rcases stores mem' used with ⟨m', inside, _, before⟩ | ⟨_, new⟩
    · exact Nat.lt_of_lt_of_le (typed.used inside before) fresh
    · exact new.2
  · intro m m' mem₁ mem₂ k first second
    rcases stores mem₁ first with ⟨m₁, inside₁, type₁, before₁⟩ | ⟨rfl, new⟩
    · rcases stores mem₂ second with ⟨m₂, inside₂, type₂, before₂⟩ | ⟨_, new⟩
      · exact type₁.symm.trans ((typed.shared inside₁ inside₂ before₁ before₂).trans type₂)
      · exact absurd (typed.used inside₁ before₁) (Nat.not_lt_of_le new.1)
    · rcases stores mem₂ second with ⟨m₂, inside₂, _, before₂⟩ | ⟨rfl, _⟩
      · exact absurd (typed.used inside₂ before₂) (Nat.not_lt_of_le new.1)
      · rfl

/-- A new node holds nothing. -/
theorem Typed.with {n : Node Scalar} (typed : Typed known g) (admits : Admits known g n)
    (slots : g'.slot = g.slot) (allocator : g'.allocator = g.allocator) :
    Typed (With known n) g' := by
  have empty : g'.slot n.id = {} := by
    rw [slots, admits.id]
    exact slot_size g
  have nothing : ∀ {k}, ¬(g'.slot n.id).Stores k := by
    rw [empty]
    rintro k (⟨_, impossible, _⟩ | ⟨_, impossible, _⟩)
    · cases impossible
    · cases impossible
  refine ⟨?_, ?_, ?_, ?_⟩
  · rintro m (rfl | mem) held found
    · rw [empty] at found
      cases found
    · exact typed.value mem (slots ▸ found)
  · rintro m (rfl | mem) held found
    · rw [empty] at found
      cases found
    · exact typed.grad mem (slots ▸ found)
  · rintro m (rfl | mem) k stores
    · exact absurd stores nothing
    · rw [allocator]
      exact typed.used mem (slots ▸ stores)
  · rintro m m' (rfl | mem) (rfl | mem') k first second
    · rfl
    · exact absurd first nothing
    · exact absurd second nothing
    · exact typed.shared mem mem' (slots ▸ first) (slots ▸ second)

/-! ### Steps of calls -/

/-- A call on a well-formed and typed graph leaves one, with the same outline. -/
def Types (known : Node Scalar → Prop) (g g' : Graph Scalar) : Prop :=
  WellFormed known g → Typed known g → g'.outline = g.outline ∧ Typed known g'

theorem Types.refl (g : Graph Scalar) : Types known g g := fun _ typed => ⟨rfl, typed⟩

theorem Types.trans {g₁ g₂ g₃ : Graph Scalar} (first : Types known g₁ g₂)
    (second : Types known g₂ g₃) : Types known g₁ g₃ := by
  intro wf typed
  obtain ⟨outline, typed⟩ := first wf typed
  obtain ⟨outline', typed⟩ := second (wf.of_outline outline) typed
  exact ⟨outline'.trans outline, typed⟩

theorem Types.of_quiet (quiet : Quiet g g') : Types known g g' := fun _ typed =>
  ⟨quiet.outline, typed.of_slots quiet.storages quiet.slots⟩

theorem releaseValue_types {n : Node Scalar} (mem : known n) :
    Types known g (g.releaseValue n.id) := fun wf typed =>
  ⟨by simp, typed.of_update wf mem (by simp) (slot_releaseValue (wf.bound mem)) nofun
    fun _ found => .inl found⟩

theorem releaseGrad_types {n : Node Scalar} (mem : known n) :
    Types known g (g.releaseGrad n.id) := fun wf typed =>
  ⟨by simp, typed.of_update wf mem (by simp) (slot_releaseGrad (wf.bound mem))
    (fun _ found => .inl found) nofun⟩

theorem flag_types {n : Node Scalar} (mem : known n) {f : Slot Scalar → Slot Scalar}
    (value : (f (g.slot n.id)).value = (g.slot n.id).value)
    (grad : (f (g.slot n.id)).grad = (g.slot n.id).grad) :
    Types known g (g.modifySlot n.id f) := fun wf typed =>
  ⟨by simp, typed.of_update wf mem (Nat.le_refl _) (slot_modifySlot (wf.bound mem) f)
    (fun _ found => .inl (value ▸ found)) fun _ found => .inl (grad ▸ found)⟩

/-- A gradient is replaced by another one that conforms. -/
theorem setGrad_types {n : Node Scalar} (mem : known n) {t : Tensor Scalar}
    (conforms : t.Conforms n.signature) : Types known g (g.setGrad n.id t) := by
  intro wf typed
  refine ⟨by simp, typed.of_update wf mem (Nat.le_refl _) (slot_modifySlot (wf.bound mem) _)
    (fun _ found => .inl found) fun held found => .inr ⟨?_, .inr ⟨n, mem, rfl, ?_⟩⟩⟩
  · obtain ⟨old, _, rfl⟩ := Option.map_eq_some_iff.mp found
    exact conforms
  · obtain ⟨old, before, rfl⟩ := Option.map_eq_some_iff.mp found
    exact .inr ⟨old, before, rfl⟩

theorem gradBuffer_types {n : Node Scalar} (mem : known n) :
    Leads (Types known) (gradBuffer n) := by
  intro g wf typed
  cases run : gradBuffer n g with
  | ok t g' =>
    obtain ⟨rfl, ⟨_, rfl⟩ | ⟨absent, aside, held, array, new, slots⟩⟩ :=
      gradBuffer_answer (wf.bound mem) run
    · exact ⟨rfl, typed⟩
    · refine ⟨aside.outline, typed.of_update wf mem aside.storages slots (fun _ found => .inl found)
        fun held' found => .inr ⟨?_, .inl ?_⟩⟩
      · cases found
        rw [array, buffer, absent]
        exact Tensor.zeros_conforms n.signature
      · cases found
        exact new
  | error f g' => exact Types.of_quiet (gradBuffer_raise run) wf typed

/-- The gradient that has been made ready conforms. -/
theorem gradBuffer_conforms {n : Node Scalar} (mem : known n) (wf : WellFormed known g)
    (typed : Typed known g) {t : Tensor Scalar} (answered : gradBuffer n g = .ok t g') :
    t.Conforms n.signature := by
  obtain ⟨rfl, _⟩ := gradBuffer_answer (wf.bound mem) answered
  unfold buffer grad?
  cases found : (g.slot n.id).grad with
  | none => exact Tensor.zeros_conforms n.signature
  | some held => exact typed.grad mem found

/-! ### Computations -/

/-- What is read of the inputs conforms to their signatures. -/
theorem Typed.reads (typed : Typed known g) {inputs : List (Node Scalar)}
    {ts : List (Tensor Scalar)}
    (mem : ∀ i ∈ inputs, known i) (reads : g.Reads inputs ts) :
    List.Forall₂ Tensor.Conforms ts (inputs.map Node.signature) := by
  induction inputs generalizing ts with
  | nil =>
    rw [Yields.nil.mp reads]
    exact .nil
  | cons n inputs ih =>
    obtain ⟨t, rest, rfl, found, others⟩ := Yields.cons.mp reads
    obtain ⟨held, value, rfl⟩ := Option.map_eq_some_iff.mp found
    exact .cons (typed.value (mem n (by simp)) value)
      (ih (fun i input => mem i (by simp [input])) others)

/-- A view is in the storage of its input. -/
theorem showView_storage {s : Stamp} {op : Operator Scalar} {inputs : List (Node Scalar)}
    {ts : List (Tensor Scalar)} (answered : showView s op inputs ts g = .ok () g') :
    ∃ i rest source held, inputs = i :: rest ∧ (g.slot i.id).value = some source ∧
      held.storage = source.storage ∧ g' = g.setValue s.id held := by
  rw [showView, answer_bind] at answered
  obtain ⟨array, _, viewed, answered⟩ := answered
  obtain ⟨_, rfl⟩ := answer_lift.mp viewed
  rw [answer_bind] at answered
  obtain ⟨_, _, got, answered⟩ := answered
  obtain ⟨rfl, rfl⟩ := answer_get.mp got
  cases inputs with
  | nil => exact absurd answered not_answer_throw
  | cons i rest =>
    cases value : (g.slot i.id).value with
    | none =>
      simp only [List.head?_cons, Option.bind_some, value] at answered
      exact absurd answered not_answer_throw
    | some source =>
      simp only [List.head?_cons, Option.bind_some, value] at answered
      exact ⟨i, rest, source, ⟨source.storage, false, array⟩, rfl, value, rfl,
        (answer_modify.mp answered).symm⟩

/-- What an application computes is in a new storage, or in that of the input it shows. -/
theorem compute_storage {s : Stamp} {op : Operator Scalar} {inputs : List (Node Scalar)}
    (bound : s.id < g.slots.size) (answered : compute (.apply s op inputs) g = .ok () g')
    {held : Held Scalar} (value : (g'.slot s.id).value = some held) :
    New g g' held.storage ∨ op.isView = true ∧ ∃ i rest source, inputs = i :: rest ∧
      (g.slot i.id).value = some source ∧ held.storage = source.storage := by
  rw [compute_apply, answer_bind] at answered
  obtain ⟨_, g₂, computed, answered⟩ := answered
  rw [← answer_modify.mp answered] at value ⊢
  have filled : ∀ (g₁ : Graph Scalar) {new : Held Scalar}, g₁.outline = g.outline →
      (((g₁.setValue s.id new).setComputed true s.id).slot s.id).value = some new := by
    intro g₁ new outline
    rw [fill_slots (by rwa [size_of_outline outline]), Function.update_self]
  unfold computeApply at computed
  split at computed
  next view =>
    refine .inr ⟨view, ?_⟩
    rw [computeView_eq, answer_bind] at computed
    obtain ⟨ts, _, read, computed⟩ := computed
    obtain ⟨_, rfl⟩ := answer_inputValues.mp read
    rw [answer_bind] at computed
    obtain ⟨_, g₁, told, computed⟩ := computed
    have quiet : Quiet g g₁ := by simpa [told] using tell_leads op ts g
    obtain ⟨i, rest, source, new, rfl, shown, storage, rfl⟩ := showView_storage computed
    rw [filled g₁ quiet.outline] at value
    cases value
    exact ⟨i, rest, source, rfl, quiet.slots ▸ shown, storage⟩
  next =>
    obtain ⟨_, t, _, _, _, rfl⟩ := computeOwned_answer.mp computed
    rw [filled (g.allocated ⟨s.shape, s.type⟩) rfl] at value
    cases value
    exact .inl ⟨Nat.le_refl _, by simp [setComputed, modifySlot, allocated, Allocator.allocate]⟩

/-- A computation puts a value into the slot of its node that suits it. -/
theorem compute_types {n : Node Scalar} (lawful : ∀ n, known n → n.Lawful) (mem : known n) :
    Leads (Types known) (compute n) := by
  intro g wf typed
  have bound := wf.bound mem
  cases run : compute n g with
  | error f g' => exact Types.of_quiet (compute_raise run) wf typed
  | ok u g' =>
    rw [after_ok]
    cases n with
    | leaf s init =>
      obtain ⟨held, supplied, outline, new, slots⟩ := compute_leaf_answer bound run
      refine ⟨outline, typed.of_update wf mem (Nat.le_trans new.1 (Nat.le_of_lt new.2)) slots
        (fun held' found => .inr ⟨?_, .inl ?_⟩) fun _ found => .inl found⟩
      · cases found
        obtain ⟨made, _, supplied⟩ := bind_eq_ok.mp supplied
        obtain ⟨array, assigned, supplied⟩ := bind_eq_ok.mp supplied
        obtain ⟨shape, stored⟩ := Tensor.assign_typed assigned
        rw [← (Prod.mk.inj (pure_eq_ok.mp supplied)).1]
        exact ⟨shape, stored⟩
      · cases found
        exact new
    | apply s op inputs =>
      obtain ⟨ts, held, reads, made, aside, slots⟩ := compute_apply_answer (s := s) bound run
      have value : (g'.slot s.id).value = some held := by rw [slots, Function.update_self]
      have below : ∀ i ∈ inputs, known i := fun i input => wf.known_inputs mem input
      refine ⟨aside.outline, typed.of_update wf mem aside.storages slots
        (fun held' found => .inr ⟨?_, ?_⟩) fun _ found => .inl found⟩
      · cases found
        exact Operator.result_conforms (lawful _ mem) (typed.reads below reads) (wf.inferred mem)
          (Operator.attempt_eq_ok.mp made).2
      · cases found
        refine (compute_storage (s := s) bound run value).imp_right ?_
        rintro ⟨view, i, rest, source, rfl, shown, storage⟩
        refine ⟨i, below i (by simp), ?_, .inl ⟨source, shown, storage.symm⟩⟩
        exact Operator.type_of_view view (wf.inferred mem)

end Graph

end ReverseMode
