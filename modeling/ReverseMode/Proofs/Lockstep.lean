import ReverseMode.Proofs.Alike
import ReverseMode.Proofs.Growth

/-!
Calls on graphs that show the same.

Beside passes and calls of values, every call on graphs that are alike answers the same and
leaves graphs that are alike: calls that build, end an episode, forget values, or set gradients
to zero, and the moves of an optimizer. Keeping or checkpointing a node leaves a graph that is
alike to the one before.
-/

namespace ReverseMode

namespace Graph

variable {α : Type} {known : Node α → Prop} {g g' g₁ g₂ g₁' g₂' : Graph α}

/-! ### Construction -/

/-- A new node on both graphs, which holds nothing yet. -/
theorem Alike.with {n : Node α} (alike : Alike known true g₁ g₂) (fresh : n.id = g₁.slots.size)
    (face : g₁'.face = g₂'.face) (random : g₁'.random = g₁.random)
    (random' : g₂'.random = g₂.random) (slots : g₁'.slot = g₁.slot)
    (slots' : g₂'.slot = g₂.slot) : Alike (With known n) true g₁' g₂' := by
  have empty : g₁.slot n.id = g₂.slot n.id := by
    rw [fresh, slot_size, alike.size, slot_size]
  refine ⟨face, by rw [random, random', alike.random], ?_, ?_, ?_⟩
  · rintro m (rfl | mem) leaf
    · rw [held?, held?, slots, slots', empty]
    · rw [held?, held?, slots, slots']
      exact alike.value m mem leaf
  · rintro compared m (rfl | mem) leaf
    · rw [grad?, grad?, slots, slots', empty]
    · rw [grad?, grad?, slots, slots']
      exact alike.grad compared m mem leaf
  · rintro m (rfl | mem)
    · rw [slots, slots', empty]
    · rw [slots, slots']
      exact alike.computed m mem

theorem face_recorded (n : Node α) (g : Graph α) :
    (g.recorded n).face =
      { g.face with
        tape := g.face.tape.push n
        index := g.face.index.enter n
        size := g.face.size + 1 } := by
  simp [face, outline, recorded, widened]

theorem face_registered (n : Node α) (g : Graph α) :
    (g.registered n).face =
      { g.face with parameters := g.face.parameters.push n, size := g.face.size + 1 } := by
  simp [face, outline, registered, widened]

theorem Alike.recorded {n : Node α} (alike : Alike known true g₁ g₂)
    (fresh : n.id = g₁.slots.size) :
    Alike (With known n) true (g₁.recorded n) (g₂.recorded n) :=
  alike.with fresh (by rw [face_recorded, face_recorded, alike.face]) rfl rfl (slot_widened g₁)
    (slot_widened g₂)

theorem Alike.registered {n : Node α} (alike : Alike known true g₁ g₂)
    (fresh : n.id = g₁.slots.size) :
    Alike (With known n) true (g₁.registered n) (g₂.registered n) :=
  alike.with fresh (by rw [face_registered, face_registered, alike.face]) rfl rfl
    (slot_widened g₁) (slot_widened g₂)

/-- Two graphs have been built alike. They may differ in their memory policy, and in what passes have
left. -/
def Abreast (g g' : Graph α) : Prop :=
  { g.face with forwarded := false } = { g'.face with forwarded := false }

theorem Alike.abreast {graded : Bool} (alike : Alike known graded g₁ g₂) : Abreast g₁ g₂ := by
  rw [Abreast, alike.face]

namespace Abreast

theorem serial (abreast : Abreast g g') : g.serial = g'.serial :=
  congrArg Outline.serial abreast

theorem settings (abreast : Abreast g g') : g.settings.policyFree = g'.settings.policyFree :=
  congrArg Outline.settings abreast

theorem tape (abreast : Abreast g g') : g.tape = g'.tape :=
  congrArg Outline.tape abreast

theorem index (abreast : Abreast g g') : g.index = g'.index :=
  congrArg Outline.index abreast

theorem parameters (abreast : Abreast g g') : g.parameters = g'.parameters :=
  congrArg Outline.parameters abreast

theorem episode (abreast : Abreast g g') : g.episode = g'.episode :=
  congrArg Outline.episode abreast

theorem size (abreast : Abreast g g') : g.slots.size = g'.slots.size :=
  congrArg Outline.size abreast

theorem found? (abreast : Abreast g g') : g.found? = g'.found? := by
  funext op nodes
  rw [Graph.found?, Graph.found?, find?, find?, abreast.index]

theorem typeOr (abreast : Abreast g g') : g.typeOr = g'.typeOr := by
  funext type
  have same : g.settings.type = g'.settings.type := (congrArg Settings.type abreast.settings :)
  rw [Graph.typeOr, Graph.typeOr, same]

theorem recorded (abreast : Abreast g g') (n : Node α) : Abreast (g.recorded n) (g'.recorded n) := by
  have entered := congrArg (fun face : Outline α =>
    { face with
      tape := face.tape.push n
      index := face.index.enter n
      size := face.size + 1 }) abreast
  rw [Abreast, face_recorded, face_recorded]
  exact entered

theorem registered (abreast : Abreast g g') (n : Node α) :
    Abreast (g.registered n) (g'.registered n) := by
  have entered := congrArg (fun face : Outline α =>
    { face with parameters := face.parameters.push n, size := face.size + 1 }) abreast
  rw [Abreast, face_registered, face_registered]
  exact entered

end Abreast

/-- What a construction call leaves on two graphs where it answers the same node: the node was
there, or it is a new one of the tape, or a new parameter. -/
inductive Together (g₁ g₂ : Graph α) (n : Node α) : Graph α → Graph α → Prop
  | same (there : n ∈ g₁.tape.toList ∨ n ∈ g₁.parameters.toList) : Together g₁ g₂ n g₁ g₂
  | recorded (fresh : n.id = g₁.slots.size) :
      Together g₁ g₂ n (g₁.recorded n) (g₂.recorded n)
  | registered (fresh : n.id = g₁.slots.size) :
      Together g₁ g₂ n (g₁.registered n) (g₂.registered n)

theorem Together.abreast {n : Node α} (together : Together g₁ g₂ n g₁' g₂')
    (abreast : Abreast g₁ g₂) : Abreast g₁' g₂' := by
  cases together with
  | same => exact abreast
  | recorded => exact abreast.recorded n
  | registered => exact abreast.registered n

theorem Together.alike {n : Node α} (together : Together g₁ g₂ n g₁' g₂')
    (wf : WellFormed known g₁) (alike : Alike known true g₁ g₂) :
    Alike (World.knownAfter known (.node n)) true g₁' g₂' := by
  cases together with
  | same there =>
    have mem : known n := by
      rcases there with on | among
      · exact wf.known_of_tape on
      · exact (wf.parameters among).1
    rw [World.knownAfter_of_known mem]
    exact alike
  | recorded fresh =>
    rw [World.knownAfter_node]
    exact alike.recorded fresh
  | registered fresh =>
    rw [World.knownAfter_node]
    exact alike.registered fresh

theorem add_together {op : Operator α} {inputs : List (Input α)} {n m : Node α}
    (wf : WellFormed known g₁) (abreast : Abreast g₁ g₂)
    (first : add op inputs g₁ = .ok n g₁') (second : add op inputs g₂ = .ok m g₂') :
    n = m ∧ Together g₁ g₂ n g₁' g₂' := by
  obtain ⟨nodes, s, checked, inferred, added⟩ := add_answer.mp first
  obtain ⟨nodes', s', checked', inferred', added'⟩ := add_answer.mp second
  rw [← checkInput_congr abreast.serial abreast.episode, checked] at checked'
  cases checked'
  cases inferred.symm.trans inferred'
  rw [← abreast.found?] at added'
  have application : g₂.application op nodes s = g₁.application op nodes s := by
    rw [Graph.application, Graph.application, abreast.serial, abreast.size, abreast.episode]
  rw [application] at added'
  rcases added with ⟨found, rfl⟩ | ⟨absent, rfl, rfl⟩
  · rcases added' with ⟨found', rfl⟩ | ⟨absent, _, _⟩
    · cases found.symm.trans found'
      exact ⟨rfl, .same (.inl (wf.mem_of_found found))⟩
    · cases found.symm.trans absent
  · rcases added' with ⟨found, _⟩ | ⟨_, rfl, rfl⟩
    · cases absent.symm.trans found
    · exact ⟨rfl, .recorded rfl⟩

theorem constant_together {shape : Shape} {init : Initializer α}
    {type : Deferred (Option ElementType)} {name : Option Written} {n m : Node α}
    (abreast : Abreast g₁ g₂) (first : constant shape init type name g₁ = .ok n g₁')
    (second : constant shape init type name g₂ = .ok m g₂') :
    n = m ∧ Together g₁ g₂ n g₁' g₂' := by
  obtain ⟨_, t, typed, rfl, rfl⟩ := constant_answer.mp first
  obtain ⟨_, t', typed', rfl, rfl⟩ := constant_answer.mp second
  rw [← abreast.typeOr, typed] at typed'
  cases typed'
  have node : g₂.constantNode shape init t name = g₁.constantNode shape init t name := by
    rw [constantNode, constantNode, abreast.serial, abreast.size, abreast.episode]
  rw [node]
  exact ⟨rfl, .recorded rfl⟩

theorem parameter_together {name : Written} {shape : Shape}
    {init : Except Fault (Initializer α)} {type : Deferred (Option ElementType)}
    {trainable : Written} {n m : Node α} (abreast : Abreast g₁ g₂)
    (first : parameter name shape init type trainable g₁ = .ok n g₁')
    (second : parameter name shape init type trainable g₂ = .ok m g₂') :
    n = m ∧ Together g₁ g₂ n g₁' g₂' := by
  have found : g₁.parameter? name.value = g₂.parameter? name.value := by
    rw [parameter?, parameter?, abreast.parameters]
  rcases World.parameter_answer.mp first with
    ⟨had, _, rfl⟩ | ⟨absent, t, made, typed, given, _, rfl, rfl⟩
  · rcases World.parameter_answer.mp second with ⟨had', _, rfl⟩ | ⟨absent, _⟩
    · cases had.symm.trans (found.trans had')
      exact ⟨rfl, .same (.inr (mem_of_parameter? had))⟩
    · cases had.symm.trans (found.trans absent)
  · rcases World.parameter_answer.mp second with
      ⟨had, _⟩ | ⟨_, t', made', typed', given', _, rfl, rfl⟩
    · cases absent.symm.trans (found.trans had)
    · cases given.symm.trans given'
      rw [parameterType, ← abreast.typeOr, ← parameterType, typed] at typed'
      cases typed'
      have node : g₂.parameterNode name shape made t trainable =
          g₁.parameterNode name shape made t trainable := by
        rw [parameterNode, parameterNode, abreast.serial, abreast.size]
      rw [node]
      exact ⟨rfl, .registered rfl⟩

/-! ### Ends of episodes -/

theorem Alike.discarded {graded : Bool} (alike : Alike known graded g₁ g₂)
    (keepParameters : Bool) : g₁.discarded keepParameters = g₂.discarded keepParameters := by
  rw [Graph.discarded, Graph.discarded, alike.tape, alike.parameters]

theorem face_reset (keepParameters : Bool) (g : Graph α) :
    (g.reset keepParameters).face = { g.face with
      tape := {}
      index := {}
      parameters := if keepParameters then g.face.parameters else #[]
      episode := g.face.episode + 1
      forwarded := false } := by
  have same := outline_reset keepParameters g
  have settings : (g.reset keepParameters).settings = g.settings := congrArg Outline.settings same
  rw [face, same, settings]
  rfl

theorem reset_alike (wf₁ : WellFormed known g₁) (wf₂ : WellFormed known g₂)
    (alike : Alike known true g₁ g₂) (keepParameters : Bool) :
    Alike known true (g₁.reset keepParameters) (g₂.reset keepParameters) := by
  have slots := slot_reset wf₁ keepParameters
  have slots' := slot_reset wf₂ keepParameters
  rw [← alike.discarded] at slots'
  refine ⟨?_, ?_, ?_, ?_, ?_⟩
  · rw [face_reset, face_reset, alike.face]
  · rw [random_reset, random_reset, alike.random]
  · intro n mem leaf
    rw [held?, held?, slots, slots']
    split
    · rfl
    · exact alike.value n mem leaf
  · intro compared n mem leaf
    rw [grad?, grad?, slots, slots']
    split
    · rfl
    · exact alike.grad compared n mem leaf
  · intro n mem
    rw [slots, slots']
    split
    · exact alike.computed n mem
    · exact alike.computed n mem

/-! ### Forgotten values -/

theorem forget_alike {n : Node α} (wf₁ : WellFormed known g₁) (wf₂ : WellFormed known g₂)
    (alike : Alike known true g₁ g₂) (mem : known n) :
    Alike known true (g₁.forget n.id) (g₂.forget n.id) := by
  have slots := slot_forget (wf₁.bound mem)
  have slots' := slot_forget (wf₂.bound mem)
  refine ⟨?_, by simp [alike.random], ?_, ?_, ?_⟩
  · rw [face_of_outline (outline_forget g₁ n.id), face_of_outline (outline_forget g₂ n.id),
      alike.face]
  · intro m inside leaf
    by_cases same : m.id = n.id
    · simp [held?, slots, slots', same]
    · simpa [held?, slots, slots', Function.update_of_ne same] using alike.value m inside leaf
  · intro compared m inside leaf
    rw [grad?_of_value slots, grad?_of_value slots']
    exact alike.grad compared m inside leaf
  · intro m inside
    by_cases same : m.id = n.id
    · simp [slots, slots', same]
    · simpa [slots, slots', Function.update_of_ne same] using alike.computed m inside

theorem forgetAll_alike {ns : List (Node α)} (wf₁ : WellFormed known g₁)
    (wf₂ : WellFormed known g₂) (alike : Alike known true g₁ g₂) (mem : ∀ n ∈ ns, known n) :
    Alike known true (g₁.forgetAll ns) (g₂.forgetAll ns) := by
  induction ns generalizing g₁ g₂ with
  | nil => exact alike
  | cons n rest ih =>
    refine ih (wf₁.of_outline (outline_forgetInner g₁ n))
      (wf₂.of_outline (outline_forgetInner g₂ n)) ?_ fun m inside => mem m (by simp [inside])
    unfold forgetInner
    split
    · exact alike
    · exact forget_alike wf₁ wf₂ alike (mem n (by simp))

theorem forgotten_alike (wf₁ : WellFormed known g₁) (wf₂ : WellFormed known g₂)
    (alike : Alike known true g₁ g₂) : Alike known true g₁.forgotten g₂.forgotten := by
  have all := forgetAll_alike wf₁ wf₂ alike fun n => wf₁.known_of_tape
  unfold forgotten
  rw [← alike.tape]
  exact ⟨congrArg (fun face => { face with forwarded := false }) all.face, all.random, all.value,
    all.grad, all.computed⟩

/-- The node whose value a call is asked to forget. -/
theorem forgetLeaf_parts {n : Option (Input α)} (answered : forgetLeaf n g = .ok () g') :
    (n = none ∧ g' = g) ∨ ∃ m, n = some (.node m) ∧ g.checkNode m = .ok () ∧
      g' = if m.isLeaf then g.forget m.id else g := by
  cases n with
  | none => exact .inl ⟨rfl, (answer_pure.mp answered).2.symm⟩
  | some input =>
    rw [forgetLeaf, answer_bind] at answered
    obtain ⟨_, _, got, answered⟩ := answered
    obtain ⟨rfl, rfl⟩ := answer_get.mp got
    rw [answer_bind] at answered
    obtain ⟨m, _, checked, answered⟩ := answered
    obtain ⟨accepted, rfl⟩ := answer_lift.mp checked
    obtain ⟨rfl, used⟩ := checkInput_eq_ok.mp accepted
    refine .inr ⟨m, rfl, used, ?_⟩
    split at answered
    next leaf => rw [if_pos leaf, answer_modify.mp answered]
    next inner => rw [if_neg inner, (answer_pure.mp answered).2]

theorem invalidate_alike {n : Option (Input α)} (wf₁ : WellFormed known g₁)
    (wf₂ : WellFormed known g₂) (alike : Alike known true g₁ g₂)
    (known' : ∀ m, n = some (.node m) → m.graph = g₁.serial → known m)
    (first : invalidate n g₁ = .ok () g₁') (second : invalidate n g₂ = .ok () g₂') :
    Alike known true g₁' g₂' := by
  rw [invalidate_eq, answer_bind] at first second
  obtain ⟨_, h₁, leaf, first⟩ := first
  obtain ⟨_, h₂, leaf', second⟩ := second
  rw [← answer_modify.mp first, ← answer_modify.mp second]
  rcases forgetLeaf_parts leaf with ⟨rfl, rfl⟩ | ⟨m, rfl, used, rfl⟩
  · rcases forgetLeaf_parts leaf' with ⟨_, rfl⟩ | ⟨_, impossible, _⟩
    · exact forgotten_alike wf₁ wf₂ alike
    · cases impossible
  · rcases forgetLeaf_parts leaf' with ⟨impossible, _⟩ | ⟨_, same, _, rfl⟩
    · cases impossible
    · cases same
      have mem := known' m rfl (serial_of_checkNode used)
      split
      · exact forgotten_alike (wf₁.of_outline (outline_forget g₁ m.id))
          (wf₂.of_outline (outline_forget g₂ m.id)) (forget_alike wf₁ wf₂ alike mem)
      · exact forgotten_alike wf₁ wf₂ alike

/-! ### Gradients set to zero -/

section Zero

variable [Element α]

theorem zeroGrad_steady (wf : WellFormed known g) {n : Node α} (mem : known n) :
    Steady known g (g.zeroGrad n) ∧ (g.zeroGrad n).grad? =
      if (g.grad? n.id).isSome then Function.update g.grad? n.id (some (zeros n.signature))
      else g.grad? := by
  cases found : g.grad? n.id with
  | none =>
    have same : g.zeroGrad n = g := by rw [zeroGrad, found]
    rw [same]
    exact ⟨.refl g, rfl⟩
  | some t =>
    have step : g.zeroGrad n = g.setGrad n.id (zeros n.signature) := by rw [zeroGrad, found]
    obtain ⟨held, grad, _⟩ := Option.map_eq_some_iff.mp found
    have slots := slot_setGrad (wf.bound mem) grad (zeros n.signature)
    rw [step]
    exact ⟨.of_grad ⟨by simp, rfl, Nat.le_refl _⟩ slots, grad?_of_grad slots⟩

theorem zeroGrad_alike {n : Node α} (wf₁ : WellFormed known g₁) (wf₂ : WellFormed known g₂)
    (alike : Alike known true g₁ g₂) (mem : known n) :
    Alike known true (g₁.zeroGrad n) (g₂.zeroGrad n) := by
  obtain ⟨steady, grads⟩ := zeroGrad_steady wf₁ mem
  obtain ⟨steady', grads'⟩ := zeroGrad_steady wf₂ mem
  have rest : Alike known false (g₁.zeroGrad n) (g₂.zeroGrad n) :=
    alike.ungraded.both (.of_steady steady nofun) (.of_steady steady' nofun)
  refine rest.of_grads fun m inside leaf => ?_
  have before := alike.grad rfl m inside leaf
  rw [grads, grads']
  by_cases same : m.id = n.id
  · rw [same] at before
    rw [same, before]
    split
    · rw [Function.update_self, Function.update_self]
    · exact before
  · have kept : ∀ {γ : Nat → Option (Tensor α)} {b : Bool},
        (if b then Function.update γ n.id (some (zeros n.signature)) else γ) m.id = γ m.id := by
      intro γ b
      split
      · rw [Function.update_of_ne same]
      · rfl
    rw [kept, kept]
    exact before

theorem zeroGrads_alike (wf₁ : WellFormed known g₁) (wf₂ : WellFormed known g₂)
    (alike : Alike known true g₁ g₂) : Alike known true g₁.zeroGrads g₂.zeroGrads := by
  have all : ∀ ns : List (Node α), (∀ n ∈ ns, known n) → ∀ g₁ g₂ : Graph α,
      WellFormed known g₁ → WellFormed known g₂ → Alike known true g₁ g₂ →
      Alike known true (ns.foldl (fun g n => g.zeroGrad n) g₁)
        (ns.foldl (fun g n => g.zeroGrad n) g₂) := by
    intro ns
    induction ns with
    | nil => exact fun _ _ _ _ _ alike => alike
    | cons n ns ih =>
      intro mem g₁ g₂ wf₁ wf₂ alike
      have inside := mem n (by simp)
      exact ih (fun m later => mem m (by simp [later])) _ _
        (wf₁.of_outline (zeroGrad_steady wf₁ inside).1.outline)
        (wf₂.of_outline (zeroGrad_steady wf₂ inside).1.outline)
        (zeroGrad_alike wf₁ wf₂ alike inside)
  rw [zeroGrads, zeroGrads, ← Array.foldl_toList, ← Array.foldl_toList, ← alike.parameters]
  exact all _ (fun n mem => (wf₁.parameters mem).1) g₁ g₂ wf₁ wf₂ alike

end Zero

/-! ### Moves of an optimizer -/

/-- The elements of a leaf changed in place, from its value and its gradient. Nothing happens
where it does not have both. -/
def moved (n : Node α) (f : Tensor α → Tensor α → Tensor α) (g : Graph α) : Graph α :=
  match Session.active? n g with
  | some (held, grad) => g.write held.storage (f held.array grad)
  | none => g

/-- The value of a leaf after such a change, which has its extents. -/
def shifted (f : Tensor α → Tensor α → Tensor α) (value grad : Option (Tensor α)) :
    Option (Tensor α) :=
  match value, grad with
  | some t, some d => some (((f t d).reshape t.shape).toOption.getD t)
  | _, _ => value

theorem active?_eq_some {n : Node α} {held : Held α} {grad : Tensor α} :
    Session.active? n g = some (held, grad) ↔
      (g.slot n.id).value = some held ∧ g.grad? n.id = some grad := by
  unfold Session.active?
  split
  next held' grad' value found => simp [value, found]
  next absent =>
    simp only [reduceCtorEq, false_iff, not_and]
    exact absent held grad

theorem active?_eq_none {n : Node α} (idle : Session.active? n g = none) :
    (g.slot n.id).value = none ∨ g.grad? n.id = none := by
  unfold Session.active? at idle
  cases value : (g.slot n.id).value with
  | none => exact .inl rfl
  | some held =>
    cases found : g.grad? n.id with
    | none => exact .inr rfl
    | some grad => simp [value, found] at idle

theorem outline_moved (n : Node α) (f : Tensor α → Tensor α → Tensor α) (g : Graph α) :
    (g.moved n f).outline = g.outline := by
  unfold moved
  split
  · exact outline_write _ _ g
  · rfl

theorem random_moved (n : Node α) (f : Tensor α → Tensor α → Tensor α) (g : Graph α) :
    (g.moved n f).random = g.random := by
  unfold moved
  split
  · rfl
  · rfl

theorem computed_moved (n : Node α) (f : Tensor α → Tensor α → Tensor α) (id : Nat) :
    ((g.moved n f).slot id).computed = (g.slot id).computed := by
  unfold moved
  split
  · rw [slot_written]
  · rfl

/-- A move changes no gradient. -/
theorem grad?_moved (stored : Stored known g) {n m : Node α} (mem : known n)
    (leaf : n.isLeaf = true) (mem' : known m) (f : Tensor α → Tensor α → Tensor α) :
    (g.moved n f).grad? m.id = g.grad? m.id := by
  unfold moved
  split
  next held grad active =>
    obtain ⟨value, _⟩ := active?_eq_some.mp active
    rw [grad?, slot_written, grad?]
    cases found : (g.slot m.id).grad with
    | none => rfl
    | some held' =>
      have apart := stored.apart mem leaf mem' value found
      rw [Option.map_some, rewritten_other apart.symm]
  · rfl

/-- A move changes the value of its own leaf. -/
theorem held?_moved_self {n : Node α} (f : Tensor α → Tensor α → Tensor α) :
    (g.moved n f).held? n.id = shifted f (g.held? n.id) (g.grad? n.id) := by
  unfold moved
  split
  next held grad active =>
    obtain ⟨value, found⟩ := active?_eq_some.mp active
    rw [held?, slot_written, held?, value, found]
    simp only [Option.map_some, rewritten, if_true, shifted]
    cases reshaped : (f held.array grad).reshape held.array.shape with
    | ok t => rfl
    | error e => rfl
  next idle =>
    rcases active?_eq_none idle with absent | absent
    · rw [held?, absent]
      rfl
    · rw [absent]
      cases g.held? n.id with
      | none => rfl
      | some t => rfl

/-- A move changes the value of no other leaf. -/
theorem held?_moved_other (stored : Stored known g) {n m : Node α} (mem : known n)
    (leaf : n.isLeaf = true) (mem' : known m) (leaf' : m.isLeaf = true) (other : m ≠ n)
    (f : Tensor α → Tensor α → Tensor α) : (g.moved n f).held? m.id = g.held? m.id := by
  unfold moved
  split
  next held grad active =>
    obtain ⟨value, _⟩ := active?_eq_some.mp active
    rw [held?, slot_written, held?]
    cases found : (g.slot m.id).value with
    | none => rfl
    | some held' =>
      have apart : held'.storage ≠ held.storage := fun same =>
        other (stored.values mem' leaf' mem leaf found value same)
      rw [Option.map_some, rewritten_other apart]
  · rfl

theorem Sound.moved (sound : Sound known g) (n : Node α) (f : Tensor α → Tensor α → Tensor α) :
    Sound known (g.moved n f) := by
  unfold Graph.moved
  split
  · exact sound.write _ _
  · exact sound

theorem Stored.moved (stored : Stored known g) (n : Node α)
    (f : Tensor α → Tensor α → Tensor α) : Stored known (g.moved n f) := by
  unfold Graph.moved
  split
  · exact stored.write _ _
  · exact stored

/-- Graphs that are alike make the same moves, whatever shows the elements of the leaf. -/
theorem moved_alike (stored₁ : Stored known g₁) (stored₂ : Stored known g₂)
    (alike : Alike known true g₁ g₂) {n : Node α} (mem : known n) (leaf : n.isLeaf = true)
    (f : Tensor α → Tensor α → Tensor α) :
    Alike known true (g₁.moved n f) (g₂.moved n f) := by
  refine ⟨?_, ?_, ?_, ?_, ?_⟩
  · rw [face_of_outline (outline_moved n f g₁), face_of_outline (outline_moved n f g₂), alike.face]
  · rw [random_moved, random_moved, alike.random]
  · intro m inside leaf'
    by_cases same : m = n
    · rw [same, held?_moved_self, held?_moved_self, alike.value n mem leaf,
        alike.grad rfl n mem leaf]
    · rw [held?_moved_other stored₁ mem leaf inside leaf' same,
        held?_moved_other stored₂ mem leaf inside leaf' same, alike.value m inside leaf']
  · intro compared m inside leaf'
    rw [grad?_moved stored₁ mem leaf inside, grad?_moved stored₂ mem leaf inside,
      alike.grad compared m inside leaf']
  · intro m inside
    rw [computed_moved, computed_moved, alike.computed m inside]

end Graph

namespace Session

open ReverseMode.Graph

variable {α : Type}

variable [Element α]

/-- A leaf with a value and a gradient moved by an optimizer. -/
def stepActive (serial : Nat) (o : Optimizer α) (n : Node α) (held : Held α) (grad : Tensor α) :
    SessionM α (Optimizer α) := do
  let (fault?, moved) := match o.rule.step o.steps grad ⟨held.array, o.state? n.label⟩ with
    | .ok _ moved => (none, moved)
    | .error f moved => (some f, moved)
  onGraph n.graph (modify (Graph.write held.storage moved.value))
  let o := match moved.averages with
    | some averages => o.setState n.label averages
    | none => o
  putOptimizer serial o
  match fault? with
  | some f => throw f
  | none => pure o

theorem stepParameter_eq (serial : Nat) (o : Optimizer α) (n : Node α) (s : Session α) :
    stepParameter serial o (.node n) s = match active? n (s.graphs.getD n.graph default) with
      | none => .ok o s
      | some (held, grad) => stepActive serial o n held grad s := by
  have asks : (ask n.graph (active? n) : SessionM α _) s =
      .ok (active? n (s.graphs.getD n.graph default)) s := rfl
  have nodes : (asNode (.node n) : SessionM α (Node α)) s = .ok n s := rfl
  rw [stepParameter, run_bind nodes, run_bind asks]
  cases active? n (s.graphs.getD n.graph default) with
  | none => rfl
  | some p => rfl

end Session
end ReverseMode
