import ReverseMode.Proofs.BackwardSweep

/-!
Graphs that show the same.

Two graphs are alike if they differ at most in their memory policy, in the accounting, and in
what applications hold. What only drops values or computes them again leads to a graph that is
alike, and where two graphs that are alike draw a leaf, they draw the same value. So forward
passes and calls of values on such graphs answer the same and leave graphs that are alike.
-/

namespace ReverseMode

/-- The settings without the memory policy. -/
def Settings.policyFree (s : Settings) : Settings :=
  { s with releaseMemory := true, inference := false }

namespace Graph

variable {α : Type}

/-- What two graphs have in common that are alike, beside what their nodes show. -/
def face (g : Graph α) : Outline α := { g.outline with settings := g.settings.policyFree }

/-- Two graphs show the same. Gradients are compared if asked for. -/
structure Alike (known : Node α → Prop) (graded : Bool) (g g' : Graph α) : Prop where
  face : g.face = g'.face
  random : g.random = g'.random
  value : ∀ n, known n → n.isLeaf = true → g.held? n.id = g'.held? n.id
  grad : graded = true → ∀ n, known n → n.isLeaf = true → g.grad? n.id = g'.grad? n.id
  computed : ∀ n, known n → (g.slot n.id).computed = (g'.slot n.id).computed

variable {known : Node α → Prop} {graded : Bool} {g g' g₁ g₂ g₁' g₂' : Graph α}

theorem face_of_outline (same : g'.outline = g.outline) : g'.face = g.face := by
  rw [face, face, same, settings_of_outline same]

namespace Alike

theorem refl (g : Graph α) : Alike known graded g g :=
  ⟨rfl, rfl, fun _ _ _ => rfl, fun _ _ _ _ => rfl, fun _ _ => rfl⟩

theorem symm (alike : Alike known graded g g') : Alike known graded g' g :=
  ⟨alike.face.symm, alike.random.symm, fun n mem leaf => (alike.value n mem leaf).symm,
    fun compared n mem leaf => (alike.grad compared n mem leaf).symm,
    fun n mem => (alike.computed n mem).symm⟩

theorem trans {g₃ : Graph α} (first : Alike known graded g₁ g₂)
    (second : Alike known graded g₂ g₃) : Alike known graded g₁ g₃ :=
  ⟨first.face.trans second.face, first.random.trans second.random,
    fun n mem leaf => (first.value n mem leaf).trans (second.value n mem leaf),
    fun compared n mem leaf => (first.grad compared n mem leaf).trans
      (second.grad compared n mem leaf),
    fun n mem => (first.computed n mem).trans (second.computed n mem)⟩

/-- Both graphs move to graphs that are alike to them. -/
theorem both (alike : Alike known graded g₁ g₂) (first : Alike known graded g₁ g₁')
    (second : Alike known graded g₂ g₂') : Alike known graded g₁' g₂' :=
  first.symm.trans (alike.trans second)

theorem serial (alike : Alike known graded g g') : g.serial = g'.serial :=
  congrArg Outline.serial alike.face

theorem tape (alike : Alike known graded g g') : g.tape = g'.tape :=
  congrArg Outline.tape alike.face

theorem parameters (alike : Alike known graded g g') : g.parameters = g'.parameters :=
  congrArg Outline.parameters alike.face

theorem episode (alike : Alike known graded g g') : g.episode = g'.episode :=
  congrArg Outline.episode alike.face

theorem size (alike : Alike known graded g g') : g.slots.size = g'.slots.size :=
  congrArg Outline.size alike.face

theorem absent (alike : Alike known graded g g') {n : Node α} (mem : known n)
    (leaf : n.isLeaf = true) (undrawn : (g.slot n.id).value = none) :
    (g'.slot n.id).value = none := by
  have same := alike.value n mem leaf
  rw [held?, undrawn, held?] at same
  simpa using same.symm

/-- Gradients are not compared. -/
theorem ungraded (alike : Alike known graded g g') : Alike known false g g' :=
  ⟨alike.face, alike.random, alike.value, nofun, alike.computed⟩

theorem of_grads (alike : Alike known false g g')
    (grads : ∀ n, known n → n.isLeaf = true → g.grad? n.id = g'.grad? n.id) :
    Alike known graded g g' :=
  ⟨alike.face, alike.random, alike.value, fun _ => grads, alike.computed⟩

theorem of_steady (steady : Steady known g g')
    (grads : graded = true → ∀ n, known n → n.isLeaf = true → g'.grad? n.id = g.grad? n.id) :
    Alike known graded g g' where
  face := (face_of_outline steady.outline).symm
  random := steady.random.symm
  value n mem leaf := by rw [held?, held?, steady.leaf n mem leaf]
  grad compared n mem leaf := (grads compared n mem leaf).symm
  computed n _ := (steady.computed n.id).symm

theorem of_quiet (quiet : Quiet g g') : Alike known graded g g' :=
  of_steady (.of_quiet quiet) fun _ n _ _ => by rw [grad?, quiet.slots, grad?]

variable [Element α]

theorem of_recalls (wf : WellFormed known g) (recalls : Recalls known g g') :
    Alike known graded g g' :=
  of_steady (.of_recalls wf recalls) fun _ n _ _ => Recalls.grad recalls n.id

theorem den (wf : WellFormed known g) (alike : Alike known graded g g') {n : Node α}
    (mem : known n) : g.den n = g'.den n := by
  refine Node.denote_congr known (fun m mem' i input => wf.known_inputs mem' input) ?_ mem
  intro s init leaf
  exact alike.value _ leaf rfl

end Alike

/-! ### Draws and computations -/

section Steps

variable [Element α]

/-- The value of a leaf has been drawn. -/
def Drawn (s : Stamp) (init : Initializer α) (g g' : Graph α) : Prop :=
  ∃ held : Held α, init.supply s g.random = .ok (held.array, g'.random) ∧
    g'.outline = g.outline ∧ New g g' held.storage ∧
    g'.slot = Function.update g.slot s.id
      { g.slot s.id with value := some held, computed := true }

/-- Graphs that are alike draw the same. -/
theorem Drawn.alike {s : Stamp} {init : Initializer α} (alike : Alike known graded g₁ g₂)
    (first : Drawn s init g₁ g₁') (second : Drawn s init g₂ g₂') :
    Alike known graded g₁' g₂' := by
  obtain ⟨held, supplied, outline, _, slots⟩ := first
  obtain ⟨held', supplied', outline', _, slots'⟩ := second
  rw [← alike.random, supplied] at supplied'
  obtain ⟨array, random⟩ := Prod.mk.inj (Except.ok.inj supplied')
  refine ⟨?_, random, ?_, ?_, ?_⟩
  · rw [face_of_outline outline, face_of_outline outline', alike.face]
  · intro n mem leaf
    by_cases same : n.id = s.id
    · simp [held?, slots, slots', same, array]
    · simpa [held?, slots, slots', Function.update_of_ne same] using alike.value n mem leaf
  · intro compared n mem leaf
    rw [grad?_of_value slots, grad?_of_value slots']
    exact alike.grad compared n mem leaf
  · intro n mem
    by_cases same : n.id = s.id
    · simp [slots, slots', same]
    · simpa [slots, slots', Function.update_of_ne same] using alike.computed n mem

/-- A node that a pass may read: a leaf, or an application of the tape that has been computed. -/
def Readable (g : Graph α) (n : Node α) : Prop :=
  n.isLeaf = true ∨ n ∈ g.tape.toList ∧ (g.slot n.id).computed = true

omit [Element α] in
theorem Readable.alike {n : Node α} (alike : Alike known graded g g') (mem : known n)
    (readable : g.Readable n) : g'.Readable n := by
  rw [Readable, ← alike.tape, ← alike.computed n mem]
  exact readable

theorem Readable.changes {n : Node α} (readable : g.Readable n) (changes : Changes known g g') :
    g'.Readable n := by
  refine readable.imp_right fun ⟨on, done⟩ => ⟨?_, changes.computed done⟩
  rwa [tape_of_outline changes.outline]

/-- A readable node can be had, or it is a leaf that is drawn. -/
theorem ensure_cases {n : Node α} (faithful : Faithful known g) (mem : known n)
    (readable : g.Readable n) (answered : ensure n g = .ok () g') :
    Recalls known g g' ∧ Ready g n ∨
      ∃ s init, n = .leaf s init ∧ (g.slot s.id).value = none ∧ Drawn s init g g' := by
  have had : Ready g n → Recalls known g g' ∧ Ready g n := fun ready =>
    ⟨ensure_answer faithful ready answered, ready⟩
  cases n with
  | leaf s init =>
    cases value : (g.slot s.id).value with
    | some held => exact .inl (had (.leaf (by simp [value])))
    | none => exact .inr ⟨s, init, rfl, value, ensure_leaf_answer (faithful.bound mem) value answered⟩
  | apply s op inputs =>
    obtain ⟨on, done⟩ := readable.resolve_left nofun
    exact .inl (had (.apply on done))

omit [Element α] in
/-- A leaf that is drawn was not ready. -/
theorem Ready.not_undrawn {s : Stamp} {init : Initializer α} (ready : Ready g (.leaf s init))
    (undrawn : (g.slot s.id).value = none) : False := by
  cases ready with
  | leaf held => simp [undrawn] at held

/-- Making a node available leaves graphs alike. -/
theorem ensure_alike {n : Node α} (faithful₁ : Faithful known g₁) (faithful₂ : Faithful known g₂)
    (alike : Alike known graded g₁ g₂) (mem : known n) (readable : g₁.Readable n)
    (first : ensure n g₁ = .ok () g₁') (second : ensure n g₂ = .ok () g₂') :
    Alike known graded g₁' g₂' := by
  have readable' := readable.alike alike mem
  rcases ensure_cases faithful₁ mem readable first with
    ⟨recalls, ready⟩ | ⟨s, init, rfl, undrawn, drawn⟩
  · rcases ensure_cases faithful₂ mem readable' second with
      ⟨recalls', _⟩ | ⟨s, init, rfl, undrawn, _⟩
    · exact alike.both (.of_recalls faithful₁.toWellFormed recalls)
        (.of_recalls faithful₂.toWellFormed recalls')
    · exact (ready.not_undrawn (alike.symm.absent mem rfl undrawn)).elim
  · rcases ensure_cases faithful₂ mem readable' second with
      ⟨_, ready⟩ | ⟨_, _, same, _, drawn'⟩
    · exact (ready.not_undrawn (alike.absent mem rfl undrawn)).elim
    · cases same
      exact drawn.alike alike drawn'

/-- Making nodes available, one after the other. -/
theorem ensureAll_alike {ns : List (Node α)} (faithful₁ : Faithful known g₁)
    (faithful₂ : Faithful known g₂) (alike : Alike known graded g₁ g₂) (mem : ∀ n ∈ ns, known n)
    (readable : ∀ n ∈ ns, g₁.Readable n) (first : ns.forM ensure g₁ = .ok () g₁')
    (second : ns.forM ensure g₂ = .ok () g₂') : Alike known graded g₁' g₂' := by
  induction ns generalizing g₁ g₂ with
  | nil =>
    obtain ⟨_, rfl⟩ := answer_pure.mp first
    obtain ⟨_, rfl⟩ := answer_pure.mp second
    exact alike
  | cons n rest ih =>
    obtain ⟨h₁, head, tail⟩ := answer_forM_cons.mp first
    obtain ⟨h₂, head', tail'⟩ := answer_forM_cons.mp second
    have inside := mem n (by simp)
    have changes₁ := ensure_changes faithful₁.toSound inside
    have changes₂ := ensure_changes faithful₂.toSound inside
    rw [head, after_ok] at changes₁
    rw [head', after_ok] at changes₂
    exact ih (changes₁.faithful faithful₁) (changes₂.faithful faithful₂)
      (ensure_alike faithful₁ faithful₂ alike inside (readable n (by simp)) head head')
      (fun m later => mem m (by simp [later]))
      (fun m later => (readable m (by simp [later])).changes changes₁) tail tail'

omit [Element α] in
/-- An application that both graphs compute. -/
theorem Alike.filled {s : Stamp} {op : Operator α} {inputs : List (Node α)} {held held' : Held α}
    (alike : Alike known graded g₁ g₂) (wf : WellFormed known g₁)
    (mem : known (.apply s op inputs)) (aside : Aside g₁ g₁') (aside' : Aside g₂ g₂')
    (slots : g₁'.slot = Function.update g₁.slot s.id
      { g₁.slot s.id with value := some held, computed := true })
    (slots' : g₂'.slot = Function.update g₂.slot s.id
      { g₂.slot s.id with value := some held', computed := true }) :
    Alike known graded g₁' g₂' := by
  refine ⟨?_, ?_, ?_, ?_, ?_⟩
  · rw [face_of_outline aside.outline, face_of_outline aside'.outline, alike.face]
  · rw [aside.random, aside'.random, alike.random]
  · intro n inside leaf
    have other : n.id ≠ s.id := by
      refine wf.ne_of_id (n := .apply s op inputs) inside mem ?_
      rintro rfl
      cases leaf
    simpa [held?, slots, slots', Function.update_of_ne other] using alike.value n inside leaf
  · intro compared n inside leaf
    rw [grad?_of_value slots, grad?_of_value slots']
    exact alike.grad compared n inside leaf
  · intro n inside
    by_cases same : n.id = s.id
    · simp [slots, slots', same]
    · simpa [slots, slots', Function.update_of_ne same] using alike.computed n inside

theorem compute_alike {n : Node α} (wf₁ : WellFormed known g₁) (wf₂ : WellFormed known g₂)
    (alike : Alike known graded g₁ g₂) (mem : known n) (first : compute n g₁ = .ok () g₁')
    (second : compute n g₂ = .ok () g₂') : Alike known graded g₁' g₂' := by
  cases n with
  | leaf s init =>
    exact Drawn.alike alike (compute_leaf_answer (wf₁.bound mem) first)
      (compute_leaf_answer (wf₂.bound mem) second)
  | apply s op inputs =>
    obtain ⟨_, _, _, _, aside, slots⟩ := compute_apply_answer (wf₁.bound mem) first
    obtain ⟨_, _, _, _, aside', slots'⟩ := compute_apply_answer (wf₂.bound mem) second
    exact alike.filled wf₁ mem aside aside' slots slots'

/-! ### Forward passes -/

omit [Element α] in
/-- A value dropped is not missed. -/
theorem releaseValue_alike (wf : WellFormed known g) {n : Node α} (mem : known n)
    (inner : n.isLeaf = false) : Alike known graded g (g.releaseValue n.id) :=
  .of_steady (releaseValue_steady wf mem inner) fun _ _ _ _ =>
    congrFun (grad?_releaseValue (wf.bound mem)) _

omit [Element α] in
theorem passInputs_alike (wf : WellFormed known g) {is : List (Node α)}
    (mem : ∀ i ∈ is, known i) (p : Pending) :
    Alike known graded g (is.foldl passInput (g, p)).1 := by
  induction is generalizing g p with
  | nil => exact .refl g
  | cons i rest ih =>
    have head : Alike known graded g (passInput (g, p) i).1 ∧
        WellFormed known (passInput (g, p) i).1 := by
      unfold passInput
      dsimp only
      split
      next last =>
        simp only [dropsEarly, Bool.and_eq_true] at last
        exact ⟨releaseValue_alike wf (mem i (by simp)) (releasable_inner last.2.1),
          wf.of_outline (by simp)⟩
      · exact ⟨.refl g, wf⟩
    exact head.1.trans (ih head.2 (fun j inside => mem j (by simp [inside])) _)

omit [Element α] in
theorem afterForward_alike (wf : WellFormed known g) {n : Node α} (mem : known n) (p : Pending) :
    Alike known graded g (afterForward n p g).2 := by
  refine (passInputs_alike wf (fun i input => ?_) p).trans (.of_quiet (record_quiet _))
  exact wf.known_inputs mem (mem_inputs_of_distinct input)

/-- The step of a node whose inputs may be read. -/
theorem forwardStep_alike {n : Node α} (faithful₁ : Faithful known g₁)
    (faithful₂ : Faithful known g₂) (alike : Alike known graded g₁ g₂) (mem : known n)
    (undrawn : (g₁.slot n.id).value = none) (undrawn' : (g₂.slot n.id).value = none)
    (readable : ∀ m ∈ n.inputs, g₁.Readable m) {p p' q q' : Pending}
    (first : forwardStep n p g₁ = .ok p' g₁') (second : forwardStep n q g₂ = .ok q' g₂') :
    Alike known graded g₁' g₂' := by
  obtain ⟨h₁, k₁, ready, made, last⟩ := forwardStep_answer.mp first
  obtain ⟨h₂, k₂, ready', made', last'⟩ := forwardStep_answer.mp second
  obtain ⟨below, own⟩ :=
    forwardStep_between mem faithful₁.toSound (fun _ => undrawn) ready made
  obtain ⟨below', own'⟩ :=
    forwardStep_between mem faithful₂.toSound (fun _ => undrawn') ready' made'
  have sound₁ := (below faithful₁.toSound).1.sound faithful₁.toSound
  have sound₂ := (below' faithful₂.toSound).1.sound faithful₂.toSound
  have inputs : Alike known graded h₁ h₂ :=
    ensureAll_alike faithful₁ faithful₂ alike
      (fun m input => faithful₁.known_inputs mem (mem_inputs_of_distinct input))
      (fun m input => readable m (mem_inputs_of_distinct input)) ready ready'
  have computes : Alike known graded k₁ k₂ :=
    compute_alike sound₁.toWellFormed sound₂.toWellFormed inputs mem made made'
  have wf₁ := ((own sound₁).1.sound sound₁).toWellFormed
  have wf₂ := ((own' sound₂).1.sound sound₂).toWellFormed
  have drops : Alike known graded k₁ (afterForward n p k₁).2 := afterForward_alike wf₁ mem p
  have drops' : Alike known graded k₂ (afterForward n q k₂).2 := afterForward_alike wf₂ mem q
  rw [last] at drops
  rw [last'] at drops'
  exact computes.both drops drops'

/-- The inputs of the nodes that a pass is to compute are there or come before them. -/
def Closed (g : Graph α) (ns : List (Node α)) : Prop :=
  ∀ n ∈ ns, ∀ m ∈ n.inputs, g.Readable m ∨ m ∈ ns

omit [Element α] in
/-- The inputs of the first node of a pass may be read: what comes later on the tape is not below
it. -/
theorem Closed.readable {n : Node α} {rest : List (Node α)} (closed : g.Closed (n :: rest))
    (wf : WellFormed known g) (mem : known n) (later : ∀ m ∈ rest, n.id < m.id) :
    ∀ m ∈ n.inputs, g.Readable m := by
  intro m input
  refine (closed n (by simp) m input).resolve_right fun among => ?_
  have less := (wf.inputs mem input).2
  rcases List.mem_cons.mp among with rfl | among
  · exact Nat.lt_irrefl _ less
  · exact Nat.lt_asymm less (later m among)

/-- The rest of a pass, once its first node has been computed. -/
theorem Closed.tail {n : Node α} {rest : List (Node α)} (closed : g.Closed (n :: rest))
    (on : n ∈ g.tape.toList) (changes : Changes known g g')
    (computed : (g'.slot n.id).computed = true) : g'.Closed rest := by
  intro m inside i input
  rcases closed m (by simp [inside]) i input with readable | among
  · exact .inl (readable.changes changes)
  · rcases List.mem_cons.mp among with rfl | among
    · exact .inl (.inr ⟨tape_of_outline changes.outline ▸ on, computed⟩)
    · exact .inr among

theorem forwardFrom_alike {ns : List (Node α)} (faithful₁ : Faithful known g₁)
    (faithful₂ : Faithful known g₂) (alike : Alike known graded g₁ g₂)
    (on : ∀ n ∈ ns, n ∈ g₁.tape.toList) (sorted : ns.Pairwise fun m n => m.id < n.id)
    (undrawn : ∀ n ∈ ns, (g₁.slot n.id).value = none)
    (undrawn' : ∀ n ∈ ns, (g₂.slot n.id).value = none) (closed : g₁.Closed ns) {p q : Pending}
    (first : forwardFrom ns p g₁ = .ok () g₁') (second : forwardFrom ns q g₂ = .ok () g₂') :
    Alike known graded g₁' g₂' := by
  induction ns generalizing g₁ g₂ p q with
  | nil =>
    obtain ⟨_, rfl⟩ := answer_pure.mp first
    obtain ⟨_, rfl⟩ := answer_pure.mp second
    exact alike
  | cons n rest ih =>
    obtain ⟨later, sorted⟩ := List.pairwise_cons.mp sorted
    have mem := faithful₁.known_of_tape (on n (by simp))
    rw [forwardFrom_cons, answer_bind] at first second
    obtain ⟨p', h₁, step, first⟩ := first
    obtain ⟨q', h₂, step', second⟩ := second
    have empty := undrawn n (by simp)
    have empty' := undrawn' n (by simp)
    obtain ⟨changes, above⟩ :=
      forwardStep_under mem faithful₁.toSound (fun _ => empty) p faithful₁.toSound
    obtain ⟨changes', above'⟩ :=
      forwardStep_under mem faithful₂.toSound (fun _ => empty') q faithful₂.toSound
    rw [step, after_ok] at changes above
    rw [step', after_ok] at changes' above'
    have readable := closed.readable faithful₁.toWellFormed mem later
    have computed := forwardStep_computed mem faithful₁.toSound (fun _ => empty) step
    refine ih (changes.faithful faithful₁) (changes'.faithful faithful₂)
      (forwardStep_alike faithful₁ faithful₂ alike mem empty empty' readable step step')
      (fun m inside => ?_) sorted (fun m inside => ?_) (fun m inside => ?_)
      (closed.tail (on n (by simp)) changes computed) first second
    · rw [tape_of_outline changes.outline]
      exact on m (by simp [inside])
    · rw [above m.id (later m inside)]
      exact undrawn m (by simp [inside])
    · rw [above' m.id (later m inside)]
      exact undrawn' m (by simp [inside])

omit [Element α] in
theorem uncomputed_closed (sound : Sound known g) : g.Closed g.uncomputed := by
  intro n inside m input
  obtain ⟨on, _⟩ := mem_uncomputed.mp inside
  rcases sound.tape_inputs on input with on' | ⟨_, leaf⟩
  · by_cases done : (g.slot m.id).computed = true
    · exact .inl (.inr ⟨on', done⟩)
    · exact .inr (mem_uncomputed.mpr ⟨on', by simpa using done⟩)
  · exact .inl (.inl leaf)

omit [Element α] in
/-- Graphs that are alike have the same nodes still to compute. -/
theorem Alike.uncomputed (wf : WellFormed known g₁) (alike : Alike known graded g₁ g₂) :
    g₁.uncomputed = g₂.uncomputed := by
  rw [Graph.uncomputed, Graph.uncomputed, ← alike.tape]
  refine List.filter_congr fun n on => ?_
  rw [alike.computed n (wf.known_of_tape on)]

omit [Element α] in
theorem Alike.marked (alike : Alike known graded g₁ g₂) : Alike known graded g₁.marked g₂.marked :=
  ⟨congrArg (fun face => { face with forwarded := true }) alike.face, alike.random, alike.value,
    alike.grad, alike.computed⟩

/-- Forward passes leave graphs alike. -/
theorem forward_alike (faithful₁ : Faithful known g₁) (faithful₂ : Faithful known g₂)
    (alike : Alike known graded g₁ g₂) (first : (forward : GraphM α Unit) g₁ = .ok () g₁')
    (second : (forward : GraphM α Unit) g₂ = .ok () g₂') : Alike known graded g₁' g₂' := by
  obtain ⟨h₁, passed, quiet⟩ := forward_passes first
  obtain ⟨h₂, passed', quiet'⟩ := forward_passes second
  have wf := faithful₁.toWellFormed
  have same := alike.uncomputed wf
  rw [← same] at passed'
  have passes : Alike known graded h₁ h₂ :=
    forwardFrom_alike faithful₁ faithful₂ alike (fun n inside => (mem_uncomputed.mp inside).1)
      (uncomputed_sorted wf) (uncomputed_absent faithful₁.toSound)
      (same ▸ uncomputed_absent faithful₂.toSound) (uncomputed_closed faithful₁.toSound)
      passed passed'
  exact passes.marked.both (.of_quiet quiet) (.of_quiet quiet')

/-! ### Values answered -/

theorem ensured_parts {n : Node α} {t : Tensor α} (answered : ensured n g = .ok t g') :
    ensure n g = .ok () g' ∧ g'.held? n.id = some t := by
  rw [ensured, answer_bind] at answered
  obtain ⟨_, h, ensures, answered⟩ := answered
  rw [answer_bind] at answered
  obtain ⟨_, _, got, answered⟩ := answered
  obtain ⟨rfl, rfl⟩ := answer_get.mp got
  cases held : h.held? n.id with
  | some t' =>
    simp only [held] at answered
    obtain ⟨rfl, rfl⟩ := answer_pure.mp answered
    exact ⟨ensures, held⟩
  | none =>
    simp only [held] at answered
    exact absurd answered not_answer_throw

/-- Graphs that are alike answer the same values. -/
theorem value_alike {n : Input α} (faithful₁ : Faithful known g₁) (faithful₂ : Faithful known g₂)
    (alike : Alike known graded g₁ g₂) (known' : ∀ m ∈ n.nodes, m.graph = g₁.serial → known m)
    {t u : Tensor α} (first : value n g₁ = .ok t g₁') (second : value n g₂ = .ok u g₂') :
    t = u ∧ Alike known graded g₁' g₂' := by
  obtain ⟨m, rfl, used, had, answers⟩ := value_parts first
  obtain ⟨_, same, _, _, answers'⟩ := value_parts second
  cases same
  have mem := known' m (by simp [Input.nodes]) (serial_of_checkNode used)
  have readable : g₁.Readable m := by
    rcases had with leaf | computed
    · exact .inl leaf
    · cases leaf : m.isLeaf with
      | true => exact .inl leaf
      | false => exact .inr ⟨faithful₁.usable_apply mem used leaf, computed⟩
  obtain ⟨ensures, held⟩ := ensured_parts answers
  obtain ⟨ensures', held'⟩ := ensured_parts answers'
  have alike' : Alike known graded g₁' g₂' :=
    ensure_alike faithful₁ faithful₂ alike mem readable ensures ensures'
  refine ⟨?_, alike'⟩
  have ready : m.isLeaf = false → Ready g₁ m ∧ Ready g₂ m := by
    intro inner
    obtain ⟨on, computed⟩ := readable.resolve_left (by simp [inner])
    refine ⟨.of_computed faithful₁.toSound on computed, .of_computed faithful₂.toSound ?_ ?_⟩
    · rwa [← alike.tape]
    · rwa [← alike.computed m mem]
  cases leaf : m.isLeaf with
  | true => exact Option.some.inj (held.symm.trans ((alike'.value m mem leaf).trans held'))
  | false =>
    obtain ⟨ready, ready'⟩ := ready leaf
    obtain ⟨_, value⟩ := ensured_answer faithful₁ mem ready answers
    obtain ⟨_, value'⟩ := ensured_answer faithful₂ mem ready' answers'
    have same := alike.den faithful₁.toWellFormed mem
    exact Option.some.inj (value.symm.trans (same.trans value'))

/-- Graphs that are alike answer the values of the same nodes. -/
theorem value_answers {n : Node α} (faithful₁ : Faithful known g₁) (faithful₂ : Faithful known g₂)
    (alike : Alike known graded g₁ g₂) (mem : known n) {t : Tensor α}
    (answered : value (.node n) g₁ = .ok t g₁') : ∃ g₂', value (.node n) g₂ = .ok t g₂' := by
  obtain ⟨m, same, used, had, answers⟩ := value_parts answered
  cases same
  have used' : g₂.checkNode n = .ok () := by
    rwa [checkNode, ← alike.serial, ← alike.episode]
  have had' : n.isLeaf = true ∨ (g₂.slot n.id).computed = true := by
    rwa [← alike.computed n mem]
  suffices answers' : ∃ u g₂', ensured n g₂ = .ok u g₂' by
    obtain ⟨u, g₂', answers'⟩ := answers'
    have answered' := value_of_ensured used' had' answers'
    obtain ⟨rfl, _⟩ := value_alike faithful₁ faithful₂ alike
      (by simpa [Input.nodes] using fun _ => mem) answered answered'
    exact ⟨g₂', answered'⟩
  by_cases undrawn : ∃ s init, n = .leaf s init ∧ (g₂.slot s.id).value = none
  · obtain ⟨s, init, rfl, absent⟩ := undrawn
    obtain ⟨ensures, _⟩ := ensured_parts answers
    obtain ⟨g₂', ensures'⟩ := ensure_leaf_answers alike.random
      (alike.symm.absent mem rfl absent) absent ensures
    have filled := ensure_filled faithful₂.toSound mem ensures'
    obtain ⟨held, value⟩ := Option.isSome_iff_exists.mp filled
    exact ⟨held.array, g₂', ensured_of_held ensures' (by simp [held?, value])⟩
  · have ready : Ready g₂ n := by
      cases n with
      | leaf s init =>
        refine .leaf (Option.isSome_iff_ne_none.mpr fun absent => undrawn ?_)
        exact ⟨s, init, rfl, absent⟩
      | apply s op inputs =>
        exact .apply (faithful₂.usable_apply mem used' rfl) (had'.resolve_left Bool.noConfusion)
    obtain ⟨g₂', u, answers', _⟩ := ensured_recalls faithful₂ mem ready
    exact ⟨u, g₂', answers'⟩

/-! ### Backward passes -/

omit [Element α] in
/-- Flags other than that of a computed value are not compared. -/
theorem flag_alike {id : Nat} (f : Slot α → Slot α) (bound : id < g.slots.size)
    (value : ∀ s, (f s).value = s.value) (grad : ∀ s, (f s).grad = s.grad)
    (computed : ∀ s, (f s).computed = s.computed) : Alike known graded g (g.modifySlot id f) := by
  have slots := slot_modifySlot bound f
  refine ⟨(face_of_outline (by simp)).symm, rfl, ?_, ?_, ?_⟩
  · intro n _ _
    by_cases same : n.id = id
    · simp [held?, slots, same, value]
    · simp [held?, slots, Function.update_of_ne same]
  · intro _ n _ _
    by_cases same : n.id = id
    · simp [grad?, slots, same, grad]
    · simp [grad?, slots, Function.update_of_ne same]
  · intro n _
    by_cases same : n.id = id
    · simp [slots, same, computed]
    · simp [slots, Function.update_of_ne same]

omit [Element α] in
theorem dropGrads_alike (wf : WellFormed known g) : Alike known false g g.dropGrads := by
  have all : ∀ ns : List (Node α), (∀ n ∈ ns, known n) → ∀ g : Graph α, WellFormed known g →
      Alike known false g (ns.foldl (fun g n => if n.isLeaf then g else g.releaseGrad n.id) g) := by
    intro ns
    induction ns with
    | nil => exact fun _ g _ => .refl g
    | cons n ns ih =>
      intro mem g wf
      have later : ∀ m ∈ ns, known m := fun m inside => mem m (by simp [inside])
      rw [List.foldl_cons]
      cases n.isLeaf with
      | true => exact ih later g wf
      | false =>
        refine Alike.trans ?_ (ih later (g.releaseGrad n.id) (wf.of_outline (by simp)))
        exact .of_steady (releaseGrad_steady wf (mem n (by simp))) nofun
  exact all _ (fun n => wf.known_of_tape) g wf

/-- A root has its value, and its gradient changes. -/
theorem seedRoot_parts (faithful : Faithful known g) {root : Node α × Option Literal}
    (mem : known root.1) (answered : seedRoot root g = .ok () g') :
    ∃ h, ensure root.1 (g.modifySlot root.1.id fun s => { s with retained := true }) = .ok () h ∧
      Steady known h g' := by
  obtain ⟨n, seed⟩ := root
  rw [seedRoot_eq, answer_bind] at answered
  obtain ⟨_, g₁, kept, answered⟩ := answered
  obtain rfl := answer_modify.mp kept
  rw [answer_bind] at answered
  obtain ⟨_, h, ensures, answered⟩ := answered
  refine ⟨h, ensures, ?_⟩
  have sound₁ := (retain_through (g := g) mem faithful.toSound).sound faithful.toSound
  have changes := ensure_changes sound₁ mem
  rw [ensures, after_ok] at changes
  cases trainable : n.trainable with
  | true =>
    simp only [trainable, if_true] at answered
    obtain ⟨_, _, added⟩ := seedGrad_answer answered
    exact (addToGrad_add (sound₁.toWellFormed.of_outline changes.outline) mem added).2
  | false =>
    simp only [trainable] at answered
    obtain ⟨_, rfl⟩ := answer_pure.mp answered
    exact .refl h

theorem seedRoot_alike {root : Node α × Option Literal} (faithful₁ : Faithful known g₁)
    (faithful₂ : Faithful known g₂) (alike : Alike known false g₁ g₂) (mem : known root.1)
    (readable : g₁.Readable root.1) (first : seedRoot root g₁ = .ok () g₁')
    (second : seedRoot root g₂ = .ok () g₂') : Alike known false g₁' g₂' := by
  obtain ⟨h₁, ensures, steady⟩ := seedRoot_parts faithful₁ mem first
  obtain ⟨h₂, ensures', steady'⟩ := seedRoot_parts faithful₂ mem second
  have retains := retain_through (g := g₁) mem faithful₁.toSound
  have retains' := retain_through (g := g₂) mem faithful₂.toSound
  have retained := alike.both
    (flag_alike (fun s => { s with retained := true }) (faithful₁.bound mem) (fun _ => rfl)
      (fun _ => rfl) fun _ => rfl)
    (flag_alike (fun s => { s with retained := true }) (faithful₂.bound mem) (fun _ => rfl)
      (fun _ => rfl) fun _ => rfl)
  have had : Alike known false h₁ h₂ :=
    ensure_alike (retains.faithful faithful₁) (retains'.faithful faithful₂) retained mem
      (readable.changes retains) ensures ensures'
  exact had.both (.of_steady steady nofun) (.of_steady steady' nofun)

theorem seedRoots_alike {started : List (Node α × Option Literal)} (faithful₁ : Faithful known g₁)
    (faithful₂ : Faithful known g₂) (alike : Alike known false g₁ g₂)
    (readable : ∀ root ∈ started, known root.1 ∧ g₁.Readable root.1)
    (first : started.forM seedRoot g₁ = .ok () g₁')
    (second : started.forM seedRoot g₂ = .ok () g₂') : Alike known false g₁' g₂' := by
  induction started generalizing g₁ g₂ with
  | nil =>
    obtain ⟨_, rfl⟩ := answer_pure.mp first
    obtain ⟨_, rfl⟩ := answer_pure.mp second
    exact alike
  | cons root rest ih =>
    obtain ⟨h₁, head, tail⟩ := answer_forM_cons.mp first
    obtain ⟨h₂, head', tail'⟩ := answer_forM_cons.mp second
    obtain ⟨mem, had⟩ := readable root (by simp)
    have changes₁ := seedRoot_through mem root.2 g₁ faithful₁.toSound
    have changes₂ := seedRoot_through mem root.2 g₂ faithful₂.toSound
    rw [head, after_ok] at changes₁
    rw [head', after_ok] at changes₂
    exact ih (changes₁.faithful faithful₁) (changes₂.faithful faithful₂)
      (seedRoot_alike faithful₁ faithful₂ alike mem had head head')
      (fun r inside => (readable r (by simp [inside])).imp_right fun had => had.changes changes₁)
      tail tail'

omit [Element α] in
/-- Graphs that are alike accept the same nodes. -/
theorem Alike.checkInput (alike : Alike known graded g₁ g₂) : g₁.checkInput = g₂.checkInput :=
  checkInput_congr alike.serial alike.episode

omit [Element α] in
/-- Graphs that are alike start backward passes from the same roots. -/
theorem Alike.started (alike : Alike known graded g₁ g₂) {roots : Roots α} {seeds : Seeds}
    {started started' : List (Node α × Option Literal)}
    (first : g₁.checkBackward roots seeds = .ok started)
    (second : g₂.checkBackward roots seeds = .ok started') : started = started' := by
  obtain ⟨_, _, _, inputs, listed, accepted⟩ := checkBackward_eq_ok first
  obtain ⟨_, _, _, inputs', listed', accepted'⟩ := checkBackward_eq_ok second
  have lists : g₁.rootList roots = g₂.rootList roots := by
    cases roots with
    | last => rw [rootList, rootList, alike.tape]
    | one => rfl
    | many => rfl
  have checks : g₁.checkRoot = g₂.checkRoot := by
    funext root seed
    rw [checkRoot, checkRoot, alike.checkInput]
  rw [lists, listed'] at listed
  cases listed
  rw [checks, accepted'] at accepted
  cases accepted
  rfl

/-- The parts of a backward pass that ends, with what its walk leaves alone. -/
theorem backward_parts (faithful : Faithful known g) {roots : Roots α} {seeds : Seeds}
    (known' : ∀ n ∈ roots.nodes, n.graph = g.serial → known n)
    {started : List (Node α × Option Literal)}
    (accepted : g.checkBackward roots seeds = .ok started)
    (answered : backward roots seeds g = .ok () g') :
    Faithful known g.dropGrads ∧
      (∀ root ∈ started, known root.1 ∧ g.dropGrads.Readable root.1) ∧
      ∃ h, started.forM seedRoot g.dropGrads = .ok () h ∧ Steady known h g' := by
  have wf := faithful.toWellFormed
  obtain ⟨_, _, uncomputed, _⟩ := checkBackward_eq_ok accepted
  have computed : ∀ m ∈ g.tape.toList, (g.slot m.id).computed = true := by
    intro m on
    by_contra undone
    have := mem_uncomputed.mpr ⟨on, by simpa using undone⟩
    simp [uncomputed] at this
  have usable := known_started faithful.toSound known' accepted
  obtain ⟨h, k, seeded, walked, logged⟩ := backward_answer accepted answered
  have drops := dropGrads_through (g := g) wf faithful.toSound
  have faithful₀ := drops.faithful faithful
  have changes : Changes known g.dropGrads h := by
    have leads := Leads.forM Through.refl Through.trans
      (fun p inside => seedRoot_through (usable p inside).1 p.2) g.dropGrads faithful₀.toSound
    rwa [seeded, after_ok] at leads
  have all := drops.trans changes
  have tape := tape_of_outline (Changes.outline all)
  refine ⟨faithful₀, fun root inside => ?_, h, seeded, ?_⟩
  · obtain ⟨mem, used⟩ := usable root inside
    have readable : g.Readable root.1 := by
      rcases wf.usable mem used with on | ⟨_, leaf⟩
      · exact .inr ⟨on, computed _ on⟩
      · exact .inl leaf
    exact ⟨mem, readable.changes drops⟩
  · rw [tape_of_outline (Changes.outline drops)] at walked
    have faithful₁ : Faithful known h := Changes.faithful faithful all
    obtain ⟨_, _, steady, _⟩ := backwardFrom_sweep (γ := h.grad?) faithful₁
      (fun n inside => by rw [tape]; exact List.mem_reverse.mp inside)
      (fun n inside => Changes.computed all (computed n (List.mem_reverse.mp inside)))
      (List.pairwise_reverse.mpr wf.sorted)
      (fun n inside m input => by
        rcases wf.tape_inputs (List.mem_reverse.mp inside) input with on | ⟨_, leaf⟩
        · exact .inr (List.mem_reverse.mpr on)
        · exact .inl leaf)
      (fun _ _ => rfl) walked
    have quiet := logBackward_leads (started.map Prod.fst) k
    rw [logged, after_ok] at quiet
    exact steady.trans (.of_quiet quiet)

/-- The gradients of leaves. -/
noncomputable def leafGrads (known : Node α → Prop) (g : Graph α) : Gradients α :=
  open Classical in fun id => if ∃ n, known n ∧ n.isLeaf = true ∧ n.id = id then g.grad? id else none

omit [Element α] in
theorem leafGrads_leaf {n : Node α} (mem : known n) (leaf : n.isLeaf = true) :
    g.leafGrads known n.id = g.grad? n.id :=
  if_pos ⟨n, mem, leaf, rfl⟩

omit [Element α] in
theorem leafGrads_inner (wf : WellFormed known g) {n : Node α} (mem : known n)
    (inner : n.isLeaf = false) : g.leafGrads known n.id = none := by
  refine if_neg ?_
  rintro ⟨m, mem', leaf, same⟩
  obtain rfl := wf.unique mem' mem same
  simp [inner] at leaf

/-- Backward passes leave graphs alike, with the same gradients of leaves. -/
theorem backward_alike (faithful₁ : Faithful known g₁) (faithful₂ : Faithful known g₂)
    (alike : Alike known true g₁ g₂) {roots : Roots α} {seeds : Seeds}
    (known' : ∀ n ∈ roots.nodes, n.graph = g₁.serial → known n)
    (first : backward roots seeds g₁ = .ok () g₁')
    (second : backward roots seeds g₂ = .ok () g₂') : Alike known true g₁' g₂' := by
  have wf₁ := faithful₁.toWellFormed
  have wf₂ := faithful₂.toWellFormed
  have known'' : ∀ n ∈ roots.nodes, n.graph = g₂.serial → known n := alike.serial ▸ known'
  obtain ⟨started, accepted⟩ := backward_accepted first
  obtain ⟨started', accepted'⟩ := backward_accepted second
  obtain rfl := alike.started accepted accepted'
  -- the passes differ in gradients only, and those of leaves are the ones of a common sweep
  have rest : Alike known false g₁' g₂' := by
    obtain ⟨faithful, readable, h₁, seeded, steady⟩ :=
      backward_parts faithful₁ known' accepted first
    obtain ⟨faithful', _, h₂, seeded', steady'⟩ := backward_parts faithful₂ known'' accepted' second
    have drops := alike.ungraded.both (dropGrads_alike wf₁) (dropGrads_alike wf₂)
    have seeds := seedRoots_alike faithful faithful' drops readable seeded seeded'
    exact seeds.both (.of_steady steady nofun) (.of_steady steady' nofun)
  refine rest.of_grads fun n mem leaf => ?_
  obtain ⟨γ₁, γ₁', seeds, sweep, agree⟩ := backward_sweep (γ := g₁.leafGrads known) faithful₁
    known' accepted first (fun n => leafGrads_leaf)
    fun n on inner => leafGrads_inner wf₁ (wf₁.known_of_tape on) inner
  obtain ⟨γ₂, γ₂', seeds', sweep', agree'⟩ := backward_sweep (γ := g₁.leafGrads known) faithful₂
    known'' accepted' second
    (fun n mem leaf => (leafGrads_leaf mem leaf).trans (alike.grad rfl n mem leaf))
    fun n on inner => leafGrads_inner wf₁ (wf₂.known_of_tape on) inner
  cases seeds.symm.trans seeds'
  rw [← alike.tape] at sweep'
  have common : Gradients.Sweep g₂.den _ γ₁ γ₁' := sweep.of_values fun n inside => by
    have mem := wf₁.known_of_tape (List.mem_reverse.mp inside)
    exact ⟨(alike.den wf₁ mem).symm,
      fun i input => (alike.den wf₁ (wf₁.known_inputs mem input)).symm⟩
  cases common.unique sweep'
  rw [agree n ⟨mem, .inl leaf⟩, agree' n ⟨mem, .inl leaf⟩]

end Steps

end Graph

end ReverseMode
