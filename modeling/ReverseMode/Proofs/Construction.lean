import Mathlib.Data.List.Pairwise
import ReverseMode.Proofs.Faithful
import ReverseMode.Proofs.Storage

/-!
Construction and the bounds of an episode.

A node that has been built gets an id beyond all others and an empty slot, so nothing that
held before is lost. Ending an episode or forgetting what was computed only drops values,
gradients and flags.
-/

namespace ReverseMode

namespace Graph

variable {α : Type} {known : Node α → Prop} {g g' : Graph α}

/-! ### A new id -/

/-- The graph with one more, empty slot. -/
def widened (g : Graph α) : Graph α := { g with slots := g.slots.push {} }

theorem slot_widened (g : Graph α) : g.widened.slot = g.slot := by
  funext id
  unfold slot widened
  rw [Array.getD_eq_getD_getElem?, Array.getD_eq_getD_getElem?, Array.getElem?_push]
  split
  next last => simp [last]
  · rfl

theorem size_widened (g : Graph α) : g.widened.slots.size = g.slots.size + 1 := by
  simp [widened]

theorem slot_size (g : Graph α) : g.slot g.slots.size = {} := by
  simp [slot]

theorem WellFormed.widened (wf : WellFormed known g) : WellFormed known g.widened where
  home := wf.home
  bound mem := by
    rw [size_widened]
    exact Nat.lt_succ_of_lt (wf.bound mem)
  unique := wf.unique
  inputs := wf.inputs
  tape := wf.tape
  sorted := wf.sorted
  index := wf.index
  keys := wf.keys
  past := wf.past
  parameter := wf.parameter
  sameEpisode := wf.sameEpisode
  parameters := wf.parameters
  trainable := wf.trainable
  inferred := wf.inferred

theorem Sound.widened (sound : Sound known g) : Sound known g.widened where
  toWellFormed := sound.toWellFormed.widened
  heldComputed mem := by
    rw [slot_widened]
    exact sound.heldComputed mem
  computedInputs mem := by
    rw [slot_widened]
    exact sound.computedInputs mem
  leafHeld mem := by
    rw [slot_widened]
    exact sound.leafHeld mem
  gradShape mem := by
    unfold grad?
    rw [slot_widened]
    exact sound.gradShape mem
  gradTrainable mem := by
    unfold grad?
    rw [slot_widened]
    exact sound.gradTrainable mem

/-! ### A new node -/

/-- The new node beside the known ones. -/
def With (known : Node α → Prop) (n : Node α) (m : Node α) : Prop := m = n ∨ known m

/-- What a graph checks of a new node before it hands it out. -/
structure Admits (known : Node α → Prop) (g : Graph α) (n : Node α) : Prop where
  home : n.graph = g.serial
  id : n.id = g.slots.size
  inputs : ∀ m ∈ n.inputs, known m ∧ (m.episode = none ∨ m.episode = some g.episode)
  current : n.episode = some g.episode ∨ n.episode = none ∧ n.isLeaf = true
  trainable : ∀ {s op inputs}, n = .apply s op inputs →
    s.trainable = .ofBool (carriesGradient op s.type inputs)
  inferred : ∀ {s op inputs}, n = .apply s op inputs →
    op.infer (inputs.map Node.signature) = .ok ⟨s.shape, s.type⟩
  unfound : ∀ {entry}, n.entry? = some entry → ∀ old ∈ g.index.toList, entry.1.same old.1 = false

/-- The graph with a new node on the tape, and in the index if it is to be found again. -/
def recorded (n : Node α) (g : Graph α) : Graph α :=
  { g.widened with tape := g.tape.push n, index := g.index.enter n }

/-- The graph with a new parameter. -/
def registered (n : Node α) (g : Graph α) : Graph α :=
  { g.widened with parameters := g.parameters.push n }

theorem toList_push (t : Tape α) (n : Node α) : (t.push n).toList = t.toList ++ [n] := by
  simp [Tape.push, Tape.toList]

section Admitted

variable {n : Node α} (wf : WellFormed known g) (admits : Admits known g n)

include wf admits

theorem unique_with : ∀ {m m'}, With known n m → With known n m' → m.id = m'.id → m = m' := by
  have other : ∀ {m}, known m → m.id ≠ n.id := by
    intro m mem same
    have := wf.bound mem
    rw [same, admits.id] at this
    omega
  rintro m m' (rfl | mem) (rfl | mem') same
  · rfl
  · exact absurd same.symm (other mem')
  · exact absurd same (other mem)
  · exact wf.unique mem mem' same

theorem inputs_with : ∀ {m}, With known n m → ∀ {i}, i ∈ m.inputs →
    With known n i ∧ i.id < m.id := by
  rintro m (rfl | mem) i input
  · have inner := (admits.inputs i input).1
    refine ⟨.inr inner, ?_⟩
    rw [admits.id]
    exact wf.bound inner
  · obtain ⟨inner, less⟩ := wf.inputs mem input
    exact ⟨.inr inner, less⟩

theorem past_with : ∀ {m}, With known n m → ∀ {e}, m.episode = some e → e ≤ g.episode := by
  rintro m (rfl | mem) e dated
  · rcases admits.current with now | ⟨free, _⟩
    · rw [now] at dated
      cases dated
      exact Nat.le_refl _
    · rw [free] at dated
      cases dated
  · exact wf.past mem dated

theorem parameter_with : ∀ {m}, With known n m → m.episode = none → m.isLeaf = true := by
  rintro m (rfl | mem) free
  · rcases admits.current with now | ⟨_, leaf⟩
    · rw [now] at free
      cases free
    · exact leaf
  · exact wf.parameter mem free

theorem sameEpisode_with (applied : n.isLeaf = false → n.episode = some g.episode) :
    ∀ {m}, With known n m → ∀ {i}, i ∈ m.inputs → i.episode = none ∨ i.episode = m.episode := by
  rintro m (rfl | mem) i input
  · rcases (admits.inputs i input).2 with free | now
    · exact .inl free
    · refine .inr (now.trans (applied ?_).symm)
      cases m with
      | leaf => simp [Node.inputs] at input
      | apply => rfl
  · exact wf.sameEpisode mem input

theorem WellFormed.recorded (now : n.episode = some g.episode) :
    WellFormed (With known n) (g.recorded n) where
  home := by
    rintro m (rfl | mem)
    · exact admits.home
    · exact wf.home mem
  bound := by
    intro m mem
    change m.id < g.widened.slots.size
    rw [size_widened]
    rcases mem with rfl | mem
    · rw [admits.id]
      exact Nat.lt_succ_self _
    · exact Nat.lt_succ_of_lt (wf.bound mem)
  unique := unique_with wf admits
  inputs := inputs_with wf admits
  tape := by
    intro m
    change m ∈ (g.tape.push n).toList ↔ With known n m ∧ m.episode = some g.episode
    rw [toList_push, List.mem_append, wf.tape, List.mem_singleton, With]
    constructor
    · rintro (⟨mem, current⟩ | rfl)
      · exact ⟨.inr mem, current⟩
      · exact ⟨.inl rfl, now⟩
    · rintro ⟨rfl | mem, current⟩
      · exact .inr rfl
      · exact .inl ⟨mem, current⟩
  sorted := by
    change (g.tape.push n).toList.Pairwise _
    rw [toList_push, List.pairwise_append]
    refine ⟨wf.sorted, List.pairwise_singleton _ _, fun m on i last => ?_⟩
    rw [List.mem_singleton.mp last, admits.id]
    exact wf.bound (wf.known_of_tape on)
  index := by
    change (g.index.enter n).toList = (g.tape.push n).toList.filterMap Node.entry?
    rw [Index.toList_enter, toList_push, List.filterMap_append, wf.index]
    cases entry : n.entry? <;> simp [entry]
  keys := by
    change (g.index.enter n).toList.Pairwise _
    rw [Index.toList_enter, List.pairwise_append]
    refine ⟨wf.keys, Option.pairwise_toList, fun old mem new entered => ?_⟩
    exact admits.unfound (Option.mem_toList.mp entered) old mem
  past := past_with wf admits
  parameter := parameter_with wf admits
  sameEpisode := sameEpisode_with wf admits fun _ => now
  parameters mem := ⟨.inr (wf.parameters mem).1, (wf.parameters mem).2⟩
  trainable := by
    rintro s op inputs (same | mem)
    · exact admits.trainable same.symm
    · exact wf.trainable mem
  inferred := by
    rintro s op inputs (same | mem)
    · exact admits.inferred same.symm
    · exact wf.inferred mem

theorem WellFormed.registered (free : n.episode = none) (leaf : n.isLeaf = true) :
    WellFormed (With known n) (g.registered n) where
  home := by
    rintro m (rfl | mem)
    · exact admits.home
    · exact wf.home mem
  bound := by
    intro m mem
    change m.id < g.widened.slots.size
    rw [size_widened]
    rcases mem with rfl | mem
    · rw [admits.id]
      exact Nat.lt_succ_self _
    · exact Nat.lt_succ_of_lt (wf.bound mem)
  unique := unique_with wf admits
  inputs := inputs_with wf admits
  tape := by
    intro m
    change m ∈ g.tape.toList ↔ With known n m ∧ m.episode = some g.episode
    rw [wf.tape, With]
    constructor
    · rintro ⟨mem, current⟩
      exact ⟨.inr mem, current⟩
    · rintro ⟨rfl | mem, current⟩
      · rw [free] at current
        cases current
      · exact ⟨mem, current⟩
  sorted := wf.sorted
  index := wf.index
  keys := wf.keys
  past := past_with wf admits
  parameter := parameter_with wf admits
  sameEpisode := sameEpisode_with wf admits fun inner => by simp [leaf] at inner
  parameters := by
    intro m mem
    change m ∈ (g.parameters.push n).toList at mem
    rw [Array.toList_push, List.mem_append, List.mem_singleton] at mem
    rcases mem with mem | rfl
    · exact ⟨.inr (wf.parameters mem).1, (wf.parameters mem).2⟩
    · exact ⟨.inl rfl, free⟩
  trainable := by
    rintro s op inputs (same | mem)
    · exact admits.trainable same.symm
    · exact wf.trainable mem
  inferred := by
    rintro s op inputs (same | mem)
    · exact admits.inferred same.symm
    · exact wf.inferred mem

end Admitted

/-- A graph stays sound with a new node, whose slot is empty. -/
theorem Sound.with {n : Node α} (sound : Sound known g) (admits : Admits known g n)
    (wf : WellFormed (With known n) g') (slots : g'.slot = g.slot)
    (tape : ∀ m, m ∈ g'.tape.toList → m = n ∨ m ∈ g.tape.toList) : Sound (With known n) g' where
  toWellFormed := wf
  heldComputed := by
    intro m mem held
    rw [slots] at held ⊢
    rcases mem with rfl | mem
    · simp [admits.id, slot_size] at held
    · exact sound.heldComputed mem held
  computedInputs := by
    intro m on done i input
    rw [slots] at done ⊢
    rcases tape m on with rfl | on
    · simp [admits.id, slot_size] at done
    · exact sound.computedInputs on done input
  leafHeld := by
    intro m on leaf done
    rw [slots] at done ⊢
    rcases tape m on with rfl | on
    · simp [admits.id, slot_size] at done
    · exact sound.leafHeld on leaf done
  gradShape := by
    intro m mem t found
    rw [grad?, slots] at found
    rcases mem with rfl | mem
    · simp [admits.id, slot_size] at found
    · exact sound.gradShape mem found
  gradTrainable := by
    intro m mem found
    rw [grad?, slots] at found
    rcases mem with rfl | mem
    · simp [admits.id, slot_size] at found
    · exact sound.gradTrainable mem found

theorem mem_recorded {m n : Node α} (on : m ∈ (g.recorded n).tape.toList) :
    m = n ∨ m ∈ g.tape.toList := by
  change m ∈ (g.tape.push n).toList at on
  rw [toList_push, List.mem_append, List.mem_singleton] at on
  exact on.symm

theorem Sound.recorded {n : Node α} (sound : Sound known g) (admits : Admits known g n)
    (now : n.episode = some g.episode) : Sound (With known n) (g.recorded n) :=
  sound.with admits (sound.toWellFormed.recorded admits now) (slot_widened g)
    fun _ => mem_recorded

theorem Sound.registered {n : Node α} (sound : Sound known g) (admits : Admits known g n)
    (free : n.episode = none) (leaf : n.isLeaf = true) : Sound (With known n) (g.registered n) :=
  sound.with admits (sound.toWellFormed.registered admits free leaf) (slot_widened g)
    fun _ => .inr

theorem Stored.widened (stored : Stored known g) : Stored known g.widened := by
  refine stored.of_slots (Nat.le_refl _) (fun n _ _ h held => ?_) fun n _ h held => ?_
  · exact ⟨h, slot_widened g ▸ held, rfl⟩
  · exact ⟨h, slot_widened g ▸ held, rfl⟩

/-- A new node stores nothing. -/
theorem Stored.with {n : Node α} (stored : Stored known g) (admits : Admits known g n)
    (slots : g'.slot = g.slot) (fresh : g'.allocator = g.allocator) : Stored (With known n) g' := by
  have empty : g'.slot n.id = {} := by
    rw [slots, admits.id]
    exact slot_size g
  refine ⟨?_, ?_, ?_, ?_⟩
  · rintro m (rfl | mem) leaf h held
    · simp [empty] at held
    · rw [fresh]
      exact stored.valueUsed mem leaf (slots ▸ held)
  · rintro m (rfl | mem) h held
    · simp [empty] at held
    · rw [fresh]
      exact stored.gradUsed mem (slots ▸ held)
  · rintro m k (rfl | mem) leaf mem' leaf' h h' held held'
    · simp [empty] at held
    · rcases mem' with rfl | mem'
      · simp [empty] at held'
      · exact stored.values mem leaf mem' leaf' (slots ▸ held) (slots ▸ held')
  · rintro m k (rfl | mem) leaf mem' h h' held held'
    · simp [empty] at held
    · rcases mem' with rfl | mem'
      · simp [empty] at held'
      · exact stored.apart mem leaf mem' (slots ▸ held) (slots ▸ held')

/-! ### Construction calls -/

/-- An equal application that is on the tape. -/
def found? (g : Graph α) (op : Operator α) (nodes : List (Node α)) : Option (Node α) :=
  if op.memoize then g.find? (Node.key op nodes) else none

theorem found?_eq (op : Operator α) (nodes : List (Node α)) :
    g.found? op nodes = if op.memoize then g.find? (Node.key op nodes) else none := rfl

/-- A new application. -/
def application (g : Graph α) (op : Operator α) (nodes : List (Node α)) (s : Signature) : Node α :=
  .apply
    { graph := g.serial, id := g.slots.size, shape := s.shape, type := s.type
      episode := some g.episode, trainable := .ofBool (carriesGradient op s.type nodes)
      name := none }
    op nodes

theorem add_answer {op : Operator α} {inputs : List (Input α)} {n : Node α} :
    add op inputs g = .ok n g' ↔ ∃ nodes s, inputs.mapM g.checkInput = .ok nodes ∧
      op.infer (nodes.map Node.signature) = .ok s ∧
      (g.found? op nodes = some n ∧ g' = g ∨
        g.found? op nodes = none ∧ n = g.application op nodes s ∧ g' = g.recorded n) := by
  simp only [add, answer_bind, answer_get, answer_lift]
  constructor
  · rintro ⟨_, _, ⟨rfl, rfl⟩, nodes, _, ⟨checked, rfl⟩, s, _, ⟨inferred, rfl⟩, answered⟩
    refine ⟨nodes, s, checked, inferred, ?_⟩
    rw [← found?_eq] at answered
    cases found : g.found? op nodes with
    | some m =>
      simp only [found, answer_pure] at answered
      exact .inl ⟨congrArg some answered.1, answered.2.symm⟩
    | none =>
      simp only [found, answer_bind, answer_modifyGet, answer_modify, answer_pure] at answered
      obtain ⟨_, _, fresh, _, _, rfl, rfl, rfl⟩ := answered
      cases fresh
      exact .inr ⟨rfl, rfl, rfl⟩
  · rintro ⟨nodes, s, checked, inferred, answered⟩
    refine ⟨g, g, ⟨rfl, rfl⟩, nodes, g, ⟨checked, rfl⟩, s, g, ⟨inferred, rfl⟩, ?_⟩
    rw [← found?_eq]
    rcases answered with ⟨found, rfl⟩ | ⟨found, rfl, rfl⟩
    · simp only [found, answer_pure]
      exact ⟨trivial, trivial⟩
    · simp only [found, answer_bind, answer_modifyGet, answer_modify, answer_pure]
      exact ⟨_, _, rfl, ⟨⟩, _, rfl, rfl, rfl⟩

theorem add_raise {op : Operator α} {inputs : List (Input α)} {f : Fault}
    (raised : add op inputs g = .error f g') : g' = g := by
  rw [add, raise_bind] at raised
  rcases raised with impossible | ⟨_, _, got, raised⟩
  · exact absurd impossible not_raise_get
  obtain ⟨rfl, rfl⟩ := answer_get.mp got
  rw [raise_bind] at raised
  rcases raised with refused | ⟨nodes, _, checked, raised⟩
  · exact (raise_lift.mp refused).2.symm
  obtain ⟨_, rfl⟩ := answer_lift.mp checked
  rw [raise_bind] at raised
  rcases raised with refused | ⟨s, _, inferred, raised⟩
  · exact (raise_lift.mp refused).2.symm
  obtain ⟨_, rfl⟩ := answer_lift.mp inferred
  dsimp only at raised
  rw [← found?_eq] at raised
  cases found : g.found? op nodes with
  | some m =>
    simp only [found] at raised
    exact absurd raised not_raise_pure
  | none =>
    simp only [found, raise_bind] at raised
    rcases raised with impossible | ⟨_, _, _, impossible | ⟨_, _, _, impossible⟩⟩
    · cases impossible
    · exact absurd impossible not_raise_modify
    · exact absurd impossible not_raise_pure

/-- A new constant. -/
def constantNode (g : Graph α) (shape : Shape) (init : Initializer α) (type : ElementType)
    (name : Option Written) : Node α :=
  .leaf
    { graph := g.serial, id := g.slots.size, shape, type, episode := some g.episode
      trainable := .ofBool false, name }
    init

theorem constant_answer {shape : Shape} {init : Initializer α}
    {type : Deferred (Option ElementType)} {name : Option Written} {n : Node α} :
    constant shape init type name g = .ok n g' ↔ checkHeld init shape = .ok () ∧
      ∃ t, g.typeOr type = .ok t ∧ n = g.constantNode shape init t name ∧ g' = g.recorded n := by
  simp only [constant, answer_bind, answer_get, answer_lift, answer_modifyGet, answer_modify,
    answer_pure]
  constructor
  · rintro ⟨_, _, ⟨held, rfl⟩, _, _, fresh, _, _, ⟨rfl, rfl⟩, t, _, ⟨typed, rfl⟩, _, _, rfl, rfl, rfl⟩
    cases fresh
    exact ⟨held, t, typed, rfl, rfl⟩
  · rintro ⟨held, t, typed, rfl, rfl⟩
    exact ⟨(), g, ⟨held, rfl⟩, _, _, rfl, g.widened, g.widened, ⟨rfl, rfl⟩, t, g.widened,
      ⟨typed, rfl⟩, ⟨⟩, _, rfl, rfl, rfl⟩

theorem constant_raise {shape : Shape} {init : Initializer α}
    {type : Deferred (Option ElementType)} {name : Option Written} {f : Fault}
    (raised : constant shape init type name g = .error f g') : g' = g ∨ g' = g.widened := by
  rw [constant, raise_bind] at raised
  rcases raised with refused | ⟨_, _, held, raised⟩
  · exact .inl (raise_lift.mp refused).2.symm
  obtain ⟨_, rfl⟩ := answer_lift.mp held
  rw [raise_bind] at raised
  rcases raised with impossible | ⟨_, _, fresh, raised⟩
  · cases impossible
  cases answer_modifyGet.mp fresh
  rw [raise_bind] at raised
  rcases raised with impossible | ⟨_, _, got, raised⟩
  · exact absurd impossible not_raise_get
  obtain ⟨rfl, rfl⟩ := answer_get.mp got
  rw [raise_bind] at raised
  rcases raised with refused | ⟨_, _, _, raised⟩
  · exact .inr (raise_lift.mp refused).2.symm
  · simp only [raise_bind] at raised
    rcases raised with impossible | ⟨_, _, _, impossible⟩
    · exact absurd impossible not_raise_modify
    · exact absurd impossible not_raise_pure

/-- A new parameter. -/
def parameterNode (g : Graph α) (name : Written) (shape : Shape) (init : Initializer α)
    (type : ElementType) (trainable : Written) : Node α :=
  .leaf
    { graph := g.serial, id := g.slots.size, shape, type, episode := none, trainable
      name := some name }
    init

/-- The element type of a new parameter. -/
def parameterType (g : Graph α) (type : Deferred (Option ElementType)) :
    Except Fault ElementType := do
  let type ← g.typeOr type
  type.requireFloat "parameter"

theorem parameter_found {name : Written} {shape : Shape} {init : Except Fault (Initializer α)}
    {type : Deferred (Option ElementType)} {trainable : Written} {m : Node α}
    (found : g.parameter? name.value = some m) :
    parameter name shape init type trainable g =
      if m.shape = shape then .ok m g
      else .error (.parameterShape name.shown m.shape.extents shape.extents) g := by
  rw [parameter, run_bind (answer_get.mpr ⟨rfl, rfl⟩), found]
  dsimp only
  split <;> rfl

/-- A parameter that there is none of yet. -/
def newParameter (name : Written) (shape : Shape) (init : Except Fault (Initializer α))
    (type : Deferred (Option ElementType)) (trainable : Written) : GraphM α (Node α) := do
  let g ← get
  let type ← lift (g.typeOr type)
  let type ← lift (type.requireFloat "parameter")
  let id ← modifyGet freshId
  let init ← lift init
  lift (checkHeld init shape)
  let stamp : Stamp :=
    { graph := g.serial, id, shape, type, episode := none, trainable, name := some name }
  let n := Node.leaf stamp init
  modify fun g => { g with parameters := g.parameters.push n }
  pure n

theorem parameter_new {name : Written} {shape : Shape} {init : Except Fault (Initializer α)}
    {type : Deferred (Option ElementType)} {trainable : Written}
    (absent : g.parameter? name.value = none) :
    parameter name shape init type trainable g =
      newParameter name shape init type trainable g := by
  rw [parameter, run_bind (answer_get.mpr ⟨rfl, rfl⟩), absent]
  rfl

theorem newParameter_answer {name : Written} {shape : Shape}
    {init : Except Fault (Initializer α)} {type : Deferred (Option ElementType)}
    {trainable : Written} {n : Node α} :
    newParameter name shape init type trainable g = .ok n g' ↔
      ∃ t made, g.parameterType type = .ok t ∧ init = .ok made ∧ checkHeld made shape = .ok () ∧
        n = g.parameterNode name shape made t trainable ∧ g' = g.registered n := by
  simp only [newParameter, parameterType, bind_eq_ok, answer_bind, answer_get, answer_lift,
    answer_modifyGet, answer_modify, answer_pure]
  constructor
  · rintro ⟨_, _, ⟨rfl, rfl⟩, t₁, _, ⟨typed, rfl⟩, t, _, ⟨float, rfl⟩, _, _, fresh, made, _,
      ⟨given, rfl⟩, _, _, ⟨held, rfl⟩, _, _, rfl, rfl, rfl⟩
    cases fresh
    exact ⟨t, made, ⟨t₁, typed, float⟩, given, held, rfl, rfl⟩
  · rintro ⟨t, made, ⟨t₁, typed, float⟩, given, held, rfl, rfl⟩
    exact ⟨g, g, ⟨rfl, rfl⟩, t₁, g, ⟨typed, rfl⟩, t, g, ⟨float, rfl⟩, _, g.widened, rfl, made,
      g.widened, ⟨given, rfl⟩, (), g.widened, ⟨held, rfl⟩, ⟨⟩, _, rfl, rfl, rfl⟩

theorem newParameter_raise {name : Written} {shape : Shape}
    {init : Except Fault (Initializer α)} {type : Deferred (Option ElementType)}
    {trainable : Written} {f : Fault}
    (raised : newParameter name shape init type trainable g = .error f g') :
    g' = g ∨ g' = g.widened := by
  rw [newParameter, raise_bind] at raised
  rcases raised with impossible | ⟨_, _, got, raised⟩
  · exact absurd impossible not_raise_get
  obtain ⟨rfl, rfl⟩ := answer_get.mp got
  rw [raise_bind] at raised
  rcases raised with refused | ⟨_, _, typed, raised⟩
  · exact .inl (raise_lift.mp refused).2.symm
  obtain ⟨_, rfl⟩ := answer_lift.mp typed
  rw [raise_bind] at raised
  rcases raised with refused | ⟨_, _, float, raised⟩
  · exact .inl (raise_lift.mp refused).2.symm
  obtain ⟨_, rfl⟩ := answer_lift.mp float
  rw [raise_bind] at raised
  rcases raised with impossible | ⟨_, _, fresh, raised⟩
  · cases impossible
  cases answer_modifyGet.mp fresh
  rw [raise_bind] at raised
  rcases raised with refused | ⟨_, _, given, raised⟩
  · exact .inr (raise_lift.mp refused).2.symm
  obtain ⟨_, rfl⟩ := answer_lift.mp given
  rw [raise_bind] at raised
  rcases raised with refused | ⟨_, _, held, raised⟩
  · exact .inr (raise_lift.mp refused).2.symm
  · simp only [raise_bind] at raised
    rcases raised with impossible | ⟨_, _, _, impossible⟩
    · exact absurd impossible not_raise_modify
    · exact absurd impossible not_raise_pure

/-! ### New nodes are admitted -/

theorem find_eq_none {key : ApplicationKey} :
    g.find? key = none ↔ ∀ old ∈ g.index.toList, key.same old.1 = false := by
  simp [find?, Index.find?, Index.toList]

theorem application_admits (wf : WellFormed known g) {op : Operator α} {nodes : List (Node α)}
    {s : Signature} (used : ∀ n ∈ nodes, known n ∧ g.checkNode n = .ok ())
    (inferred : op.infer (nodes.map Node.signature) = .ok s)
    (unfound : g.found? op nodes = none) : Admits known g (g.application op nodes s) where
  home := rfl
  id := rfl
  inputs := by
    intro m input
    obtain ⟨mem, checked⟩ := used m input
    refine ⟨mem, ?_⟩
    rcases wf.usable mem checked with on | ⟨free, _⟩
    · exact .inr (wf.tape.mp on).2
    · exact .inl free
  current := .inl rfl
  trainable := by
    rintro s' op' inputs same
    cases same
    rfl
  inferred := by
    rintro s' op' inputs same
    cases same
    exact inferred
  unfound := by
    intro entry entered
    obtain ⟨memoize, entered⟩ := Option.ite_none_right_eq_some.mp entered
    cases entered
    rw [found?, if_pos memoize] at unfound
    exact find_eq_none.mp unfound

theorem leaf_admits {s : Stamp} {init : Initializer α} (home : s.graph = g.serial)
    (id : s.id = g.slots.size)
    (current : s.episode = some g.episode ∨ s.episode = none) : Admits known g (.leaf s init) where
  home := home
  id := id
  inputs := by simp [Node.inputs]
  current := current.imp_right fun free => ⟨free, rfl⟩
  trainable := by
    rintro _ _ _ same
    cases same
  inferred := by
    rintro _ _ _ same
    cases same
  unfound := nofun

/-- What is found in the index stands on the tape, and its own key is the one looked for. -/
theorem WellFormed.find_eq_some (wf : WellFormed known g) {key : ApplicationKey} {n : Node α}
    (found : g.find? key = some n) : n ∈ g.tape.toList ∧ ∃ s op inputs,
      n = .apply s op inputs ∧ op.memoize = true ∧ key.same (Node.key op inputs) = true := by
  obtain ⟨⟨own, m⟩, first, rfl⟩ := Option.map_eq_some_iff.mp found
  have same := Array.find?_some first
  have entered : (own, m) ∈ g.index.toList :=
    Array.mem_def.mp (Array.mem_of_find?_eq_some first)
  rw [wf.index] at entered
  obtain ⟨on, stands, entry⟩ := List.mem_filterMap.mp entered
  cases on with
  | leaf => cases entry
  | apply s op inputs =>
    obtain ⟨memoize, entry⟩ := Option.ite_none_right_eq_some.mp entry
    cases entry
    exact ⟨stands, s, op, inputs, rfl, memoize, same⟩

theorem WellFormed.mem_of_found (wf : WellFormed known g) {op : Operator α}
    {nodes : List (Node α)} {n : Node α} (found : g.found? op nodes = some n) :
    n ∈ g.tape.toList := by
  unfold found? at found
  split at found
  · exact (wf.find_eq_some found).1
  · cases found

theorem mem_of_parameter? {name : Datum} {n : Node α} (found : g.parameter? name = some n) :
    n ∈ g.parameters.toList :=
  Array.mem_def.mp (Array.mem_of_find?_eq_some found)

/-- A graph stays faithful with a new node, which has not been computed. -/
theorem Faithful.with [Element α] {n : Node α} (faithful : Faithful known g)
    (admits : Admits known g n) (sound : Sound (With known n) g') (slots : g'.slot = g.slot)
    (settings : g'.settings = g.settings)
    (tape : ∀ m, m ∈ g'.tape.toList → m = n ∨ m ∈ g.tape.toList) :
    Faithful (With known n) g' := by
  have held : g'.held? = g.held? := by
    funext id
    rw [held?, slots, held?]
  have den : g'.den = g.den := by
    funext m
    rw [Graph.den, held, Graph.den]
  have empty : g.slot n.id = {} := by
    rw [admits.id]
    exact slot_size g
  refine { toSound := sound, held := ?_, repeatable := ?_ }
  · intro m on t found
    rw [held] at found
    rw [den]
    rcases tape m on with rfl | on
    · simp [held?, empty] at found
    · exact faithful.held on found
  · intro s op inputs on done
    rw [slots] at done
    rw [den, settings]
    rcases tape _ on with same | on
    · subst same
      simp only [Node.id, Node.stamp] at empty
      simp [empty] at done
    · exact faithful.repeatable on done

theorem Faithful.widened [Element α] (faithful : Faithful known g) :
    Faithful known g.widened := by
  have held : g.widened.held? = g.held? := by
    funext id
    rw [held?, slot_widened, held?]
  have den : g.widened.den = g.den := by
    funext m
    rw [Graph.den, held, Graph.den]
  refine { toSound := faithful.toSound.widened, held := ?_, repeatable := ?_ }
  · intro n on t found
    rw [held] at found
    rw [den]
    exact faithful.held on found
  · intro s op inputs on done
    rw [slot_widened] at done
    rw [den]
    exact faithful.repeatable on done

theorem Faithful.recorded [Element α] {n : Node α} (faithful : Faithful known g)
    (admits : Admits known g n) (now : n.episode = some g.episode) :
    Faithful (With known n) (g.recorded n) :=
  faithful.with admits (faithful.toSound.recorded admits now) (slot_widened g) rfl
    fun _ => mem_recorded

theorem Faithful.registered [Element α] {n : Node α} (faithful : Faithful known g)
    (admits : Admits known g n) (free : n.episode = none) (leaf : n.isLeaf = true) :
    Faithful (With known n) (g.registered n) :=
  faithful.with admits (faithful.toSound.registered admits free leaf) (slot_widened g) rfl
    fun _ => .inr

/-! ### The end of an episode -/

/-- The nodes released, one after the other. -/
def releaseAll (ns : List (Node α)) (g : Graph α) : Graph α :=
  ns.foldl (fun g n => g.release n.id) g

theorem outline_releaseAll (ns : List (Node α)) (g : Graph α) :
    (g.releaseAll ns).outline = g.outline := by
  induction ns generalizing g with
  | nil => rfl
  | cons n ns ih => exact (ih _).trans (outline_release g n.id)

theorem random_releaseAll (ns : List (Node α)) (g : Graph α) :
    (g.releaseAll ns).random = g.random := by
  induction ns generalizing g with
  | nil => rfl
  | cons n ns ih => exact (ih _).trans (random_release g n.id)

/-- Nodes that are released all hold neither value nor gradient. -/
theorem slot_releaseAll {ns : List (Node α)} (bound : ∀ n ∈ ns, n.id < g.slots.size) (id : Nat) :
    (g.releaseAll ns).slot id =
      if id ∈ ns.map Node.id then { g.slot id with value := none, grad := none } else g.slot id := by
  induction ns generalizing g with
  | nil => rfl
  | cons n ns ih =>
    have inside := bound n (by simp)
    have size : (g.release n.id).slots.size = g.slots.size :=
      size_of_outline (outline_release g n.id)
    change ((g.release n.id).releaseAll ns).slot id = _
    rw [ih (g := g.release n.id) fun m mem => size ▸ bound m (by simp [mem]), slot_release inside]
    by_cases same : id = n.id
    · subst same
      simp
    · simp [same]

/-- The nodes that lose their buffers when an episode ends. -/
def discarded (keepParameters : Bool) (g : Graph α) : List (Node α) :=
  g.tape.toList ++ if keepParameters then [] else g.parameters.toList

/-- The tape released and emptied. -/
def cleared (g : Graph α) : Graph α :=
  { g.releaseAll g.tape.toList with tape := {}, index := {} }

theorem outline_cleared (g : Graph α) :
    g.cleared.outline = { g.outline with tape := {}, index := {} } := by
  have same := outline_releaseAll g.tape.toList g
  simp only [outline, Outline.mk.injEq] at same
  simp [cleared, outline, same]

/-- The parameters released. -/
def stripped (g : Graph α) : Graph α := g.cleared.releaseAll g.cleared.parameters.toList

theorem outline_stripped (g : Graph α) :
    g.stripped.outline = { g.outline with tape := {}, index := {} } :=
  (outline_releaseAll _ _).trans (outline_cleared g)

theorem reset_keep (g : Graph α) :
    g.reset true = { g.cleared with episode := g.cleared.episode + 1, forwarded := false } := rfl

theorem reset_drop (g : Graph α) :
    g.reset false =
      { g.stripped with
        parameters := #[], episode := g.stripped.episode + 1, forwarded := false } := by
  simp only [reset, Bool.false_eq_true, if_false, stripped, releaseAll, cleared, Array.foldl_toList]

theorem outline_reset (keepParameters : Bool) (g : Graph α) :
    (g.reset keepParameters).outline =
      ⟨g.serial, g.settings, {}, {}, if keepParameters then g.parameters else #[],
        g.episode + 1, false,
        g.slots.size⟩ := by
  cases keepParameters with
  | true =>
    have same := outline_cleared g
    rw [reset_keep]
    simp only [outline, Outline.mk.injEq] at same ⊢
    simp [same]
  | false =>
    have same := outline_stripped g
    rw [reset_drop]
    simp only [outline, Outline.mk.injEq] at same ⊢
    simp [same]

theorem random_reset (keepParameters : Bool) (g : Graph α) :
    (g.reset keepParameters).random = g.random := by
  have first : g.cleared.random = g.random := random_releaseAll _ g
  cases keepParameters with
  | true =>
    rw [reset_keep]
    exact first
  | false =>
    rw [reset_drop]
    exact (random_releaseAll _ g.cleared).trans first

theorem slot_reset (wf : WellFormed known g) (keepParameters : Bool) (id : Nat) :
    (g.reset keepParameters).slot id =
      if id ∈ (g.discarded keepParameters).map Node.id
      then { g.slot id with value := none, grad := none } else g.slot id := by
  have first : ∀ id, g.cleared.slot id = if id ∈ g.tape.toList.map Node.id
      then { g.slot id with value := none, grad := none } else g.slot id :=
    slot_releaseAll fun n on => wf.bound (wf.known_of_tape on)
  have outline := outline_cleared g
  cases keepParameters with
  | true =>
    rw [reset_keep]
    change g.cleared.slot id = _
    simp [first, discarded]
  | false =>
    have parameters : g.cleared.parameters = g.parameters := congrArg Outline.parameters outline
    have size : g.cleared.slots.size = g.slots.size := congrArg Outline.size outline
    have second : g.stripped.slot id = if id ∈ g.parameters.toList.map Node.id
        then { g.cleared.slot id with value := none, grad := none } else g.cleared.slot id := by
      rw [stripped, parameters]
      exact slot_releaseAll (fun n mem => size ▸ wf.bound (wf.parameters mem).1) id
    rw [reset_drop]
    change g.stripped.slot id = _
    have both : (g.discarded false).map Node.id =
        g.tape.toList.map Node.id ++ g.parameters.toList.map Node.id := by
      simp [discarded]
    rw [second, first, both]
    by_cases tape : id ∈ g.tape.toList.map Node.id
    · by_cases parameter : id ∈ g.parameters.toList.map Node.id
      · simp only [tape, parameter, List.mem_append, or_self, if_true]
      · simp only [tape, parameter, List.mem_append, or_false, if_true, if_false]
    · by_cases parameter : id ∈ g.parameters.toList.map Node.id
      · simp only [tape, parameter, List.mem_append, or_true, if_true, if_false]
      · simp only [tape, parameter, List.mem_append, or_self, if_false]

theorem WellFormed.reset (wf : WellFormed known g) (keepParameters : Bool) :
    WellFormed known (g.reset keepParameters) := by
  have same := outline_reset keepParameters g
  have tape : (g.reset keepParameters).tape = {} := congrArg Outline.tape same
  have episode : (g.reset keepParameters).episode = g.episode + 1 := congrArg Outline.episode same
  exact
    { home := fun mem => (wf.home mem).trans (congrArg Outline.serial same).symm
      bound := fun mem => by
        rw [show (g.reset keepParameters).slots.size = _ from congrArg Outline.size same]
        exact wf.bound mem
      unique := wf.unique
      inputs := wf.inputs
      tape := by
        intro n
        rw [tape, episode]
        refine ⟨fun on => by simp [Tape.toList] at on, fun ⟨mem, dated⟩ => ?_⟩
        have := wf.past mem dated
        omega
      sorted := by
        rw [tape]
        exact List.Pairwise.nil
      index := by
        rw [tape, show (g.reset keepParameters).index = {} from congrArg Outline.index same]
        rfl
      keys := by
        rw [show (g.reset keepParameters).index = {} from congrArg Outline.index same]
        exact List.Pairwise.nil
      past := by
        intro n mem e dated
        rw [episode]
        exact Nat.le_succ_of_le (wf.past mem dated)
      parameter := wf.parameter
      sameEpisode := wf.sameEpisode
      parameters := by
        intro n mem
        have parameters : (g.reset keepParameters).parameters = _ := congrArg Outline.parameters same
        rw [parameters] at mem
        cases keepParameters with
        | true => exact wf.parameters mem
        | false => simp at mem
      trainable := wf.trainable
      inferred := wf.inferred }

theorem Sound.reset (sound : Sound known g) (keepParameters : Bool) :
    Sound known (g.reset keepParameters) where
  toWellFormed := sound.toWellFormed.reset keepParameters
  heldComputed mem := by
    rw [slot_reset sound.toWellFormed]
    split
    · simp
    · exact sound.heldComputed mem
  computedInputs on := by
    rw [show (g.reset keepParameters).tape = {} from
      congrArg Outline.tape (outline_reset keepParameters g)] at on
    simp [Tape.toList] at on
  leafHeld on := by
    rw [show (g.reset keepParameters).tape = {} from
      congrArg Outline.tape (outline_reset keepParameters g)] at on
    simp [Tape.toList] at on
  gradShape mem := by
    unfold grad?
    rw [slot_reset sound.toWellFormed]
    split
    · simp
    · exact sound.gradShape mem
  gradTrainable mem := by
    unfold grad?
    rw [slot_reset sound.toWellFormed]
    split
    · simp
    · exact sound.gradTrainable mem

theorem fresh_releaseAll (ns : List (Node α)) (g : Graph α) :
    (g.releaseAll ns).allocator.fresh = g.allocator.fresh := by
  induction ns generalizing g with
  | nil => rfl
  | cons n ns ih => exact (ih _).trans (fresh_release g n.id)

theorem fresh_reset (keepParameters : Bool) (g : Graph α) :
    (g.reset keepParameters).allocator.fresh = g.allocator.fresh := by
  have first : g.cleared.allocator.fresh = g.allocator.fresh := fresh_releaseAll _ g
  cases keepParameters with
  | true =>
    rw [reset_keep]
    exact first
  | false =>
    rw [reset_drop]
    exact (fresh_releaseAll _ g.cleared).trans first

theorem Stored.reset (stored : Stored known g) (wf : WellFormed known g) (keepParameters : Bool) :
    Stored known (g.reset keepParameters) := by
  refine stored.of_slots (Nat.le_of_eq (fresh_reset keepParameters g).symm) (fun n _ _ h held => ?_)
    fun n _ h held => ?_
  · rw [slot_reset wf] at held
    split at held
    · cases held
    · exact ⟨h, held, rfl⟩
  · rw [slot_reset wf] at held
    split at held
    · cases held
    · exact ⟨h, held, rfl⟩

/-! ### Forgotten values -/

/-- The value of an application forgotten. -/
def forgetInner (g : Graph α) (n : Node α) : Graph α := if n.isLeaf then g else g.forget n.id

@[simp] theorem outline_forgetInner (g : Graph α) (n : Node α) :
    (g.forgetInner n).outline = g.outline := by
  unfold forgetInner
  split
  · rfl
  · exact outline_forget g n.id

/-- The applications among the nodes forgotten, one after the other. -/
def forgetAll (ns : List (Node α)) (g : Graph α) : Graph α := ns.foldl forgetInner g

theorem outline_forgetAll (ns : List (Node α)) (g : Graph α) :
    (g.forgetAll ns).outline = g.outline := by
  induction ns generalizing g with
  | nil => rfl
  | cons n ns ih => exact (ih _).trans (outline_forgetInner g n)

@[simp] theorem fresh_forget (g : Graph α) (id : Nat) :
    (g.forget id).allocator.fresh = g.allocator.fresh :=
  fresh_releaseValue g id

theorem fresh_forgetAll (ns : List (Node α)) (g : Graph α) :
    (g.forgetAll ns).allocator.fresh = g.allocator.fresh := by
  induction ns generalizing g with
  | nil => rfl
  | cons n ns ih =>
    refine (ih _).trans ?_
    unfold forgetInner
    split
    · rfl
    · exact fresh_forget g n.id

/-- The ids of the applications among some nodes. -/
def innerIds (ns : List (Node α)) : List Nat := (ns.filter fun n => !n.isLeaf).map Node.id

theorem slot_forgetAll {ns : List (Node α)} (bound : ∀ n ∈ ns, n.id < g.slots.size) (id : Nat) :
    (g.forgetAll ns).slot id =
      if id ∈ innerIds ns then { g.slot id with value := none, computed := false }
      else g.slot id := by
  induction ns generalizing g with
  | nil => rfl
  | cons n ns ih =>
    have bound' : ∀ m ∈ ns, m.id < (g.forgetInner n).slots.size := by
      intro m mem
      rw [size_of_outline (outline_forgetInner g n)]
      exact bound m (by simp [mem])
    have rest : (g.forgetAll (n :: ns)).slot id = _ := ih bound'
    rw [rest]
    cases leaf : n.isLeaf with
    | true =>
      have ids : innerIds (n :: ns) = innerIds ns := by simp [innerIds, leaf]
      simp only [forgetInner, leaf, if_true, ids]
    | false =>
      have first : (g.forgetInner n).slot = Function.update g.slot n.id
          { g.slot n.id with value := none, computed := false } := by
        rw [forgetInner, leaf, if_neg (by simp), slot_forget (bound n (by simp))]
      have ids : innerIds (n :: ns) = n.id :: innerIds ns := by simp [innerIds, leaf]
      rw [first, ids]
      by_cases same : id = n.id
      · subst same
        simp
      · simp only [Function.update_of_ne same, List.mem_cons, same, false_or]

/-- Nothing on the tape has been computed from other values. -/
def Unread (g : Graph α) : Prop :=
  ∀ n ∈ g.tape.toList, n.isLeaf = false → (g.slot n.id).computed = false

/-- Before anything is computed from other values a sound graph is faithful. -/
theorem Sound.faithful [Element α] (sound : Sound known g) (unread : g.Unread) :
    Faithful known g where
  toSound := sound
  held := by
    intro n on t found
    cases n with
    | leaf s init => rwa [den_leaf]
    | apply s op inputs =>
      have done := sound.heldComputed (sound.known_of_tape on)
        (by simpa [held?] using Option.isSome_of_eq_some found)
      simp [unread _ on rfl] at done
  repeatable := by
    intro s op inputs on done
    simp [show (g.slot s.id).computed = false from unread _ on rfl] at done

theorem mem_innerIds {ns : List (Node α)} {id : Nat} :
    id ∈ innerIds ns ↔ ∃ n ∈ ns, n.isLeaf = false ∧ n.id = id := by
  simp [innerIds, and_assoc]

/-- A value with its flag forgotten. -/
def Slot.forgotten (s : Slot α) : Slot α := { s with value := none, computed := false }

/-- Where all applications of the tape and any other values are forgotten, a graph stays sound. -/
theorem Sound.forgotten (sound : Sound known g) (outline : g'.outline = g.outline)
    (slots : ∀ id, g'.slot id = g.slot id ∨ g'.slot id = Slot.forgotten (g.slot id))
    (inner : ∀ n ∈ g.tape.toList, n.isLeaf = false → (g'.slot n.id).computed = false) :
    Sound known g' ∧ g'.Unread := by
  have tape := tape_of_outline outline
  have unread : g'.Unread := fun n on => inner n (tape ▸ on)
  have grads : ∀ id, (g'.slot id).grad = (g.slot id).grad := by
    intro id
    rcases slots id with same | gone
    · rw [same]
    · rw [gone, Slot.forgotten]
  refine ⟨{ toWellFormed := sound.toWellFormed.of_outline outline, heldComputed := ?_,
            computedInputs := ?_, leafHeld := ?_, gradShape := ?_, gradTrainable := ?_ }, unread⟩
  · intro n mem
    rcases slots n.id with same | gone
    · rw [same]
      exact sound.heldComputed mem
    · simp [gone, Slot.forgotten]
  · intro n on done m input
    cases n with
    | leaf => simp [Node.inputs] at input
    | apply s op inputs => simp [unread _ on rfl] at done
  · intro n on leaf done
    rcases slots n.id with same | gone
    · rw [same] at done ⊢
      exact sound.leafHeld (tape ▸ on) leaf done
    · simp [gone, Slot.forgotten] at done
  · intro n mem t
    rw [grad?, grads]
    exact sound.gradShape mem
  · intro n mem
    rw [grad?, grads]
    exact sound.gradTrainable mem

theorem Sound.forgetAll (sound : Sound known g) :
    Sound known (g.forgetAll g.tape.toList) ∧ (g.forgetAll g.tape.toList).Unread := by
  have slots := slot_forgetAll fun n on => sound.bound (sound.known_of_tape on)
  refine sound.forgotten (outline_forgetAll _ g) (fun id => ?_) fun n on inner => ?_
  · rw [slots]
    split
    · exact .inr rfl
    · exact .inl rfl
  · rw [slots, if_pos (mem_innerIds.mpr ⟨n, on, inner, rfl⟩)]

/-- A value forgotten before the applications of the tape are. -/
theorem Sound.forget_forgetAll (sound : Sound known g) {n : Node α} (mem : known n) :
    Sound known ((g.forget n.id).forgetAll g.tape.toList) ∧
      ((g.forget n.id).forgetAll g.tape.toList).Unread := by
  have size := size_of_outline (outline_forget g n.id)
  have slots := slot_forgetAll (g := g.forget n.id)
    (fun n on => size.symm ▸ sound.bound (sound.known_of_tape on))
  have first := slot_forget (sound.bound mem)
  have outline := (outline_forgetAll g.tape.toList (g.forget n.id)).trans (outline_forget g n.id)
  refine sound.forgotten outline (fun id => ?_) fun m on inner => ?_
  · rw [slots, first]
    by_cases same : id = n.id
    · subst same
      right
      split
      · simp [Slot.forgotten]
      · simp [Slot.forgotten]
    · rw [Function.update_of_ne same]
      split
      · exact .inr rfl
      · exact .inl rfl
  · rw [slots, if_pos (mem_innerIds.mpr ⟨m, on, inner, rfl⟩)]

/-- Forgotten values give up their storages. -/
theorem Stored.forgetAll {ns : List (Node α)} (stored : Stored known g)
    (bound : ∀ n ∈ ns, n.id < g.slots.size) : Stored known (g.forgetAll ns) := by
  refine stored.of_slots (Nat.le_of_eq (fresh_forgetAll ns g).symm) (fun n _ _ h held => ?_)
    fun n _ h held => ?_
  · rw [slot_forgetAll bound] at held
    split at held
    · cases held
    · exact ⟨h, held, rfl⟩
  · rw [slot_forgetAll bound] at held
    split at held
    · exact ⟨h, held, rfl⟩
    · exact ⟨h, held, rfl⟩

theorem Stored.forget {id : Nat} (stored : Stored known g) (bound : id < g.slots.size) :
    Stored known (g.forget id) := by
  refine stored.of_update (Nat.le_of_eq (fresh_forget g id).symm) (slot_forget bound)
    (fun _ _ _ _ h held => ?_)
    fun h held => ⟨h, held, rfl⟩
  cases held

end Graph

end ReverseMode
