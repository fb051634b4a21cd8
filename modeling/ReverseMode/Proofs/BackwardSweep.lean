import ReverseMode.Proofs.Invariant
import ReverseMode.Proofs.Sweep

/-!
Backward passes as sweeps.

On a faithful graph whose tape has been computed, the step of a node does to the gradients what
a visit does, and the values it works with are denotations. What is dropped after a step is not
read again: the inputs of a node are leaves or still to be visited. So the gradients that a
graph keeps are those of the sweep.
-/

namespace ReverseMode

namespace Graph

variable {α : Type} [Element α] {known : Node α → Prop} {g g' : Graph α}

/-! ### What the steps of a pass leave alone -/

/-- Values of applications and gradients may change, but no flag and no leaf. -/
structure Steady (known : Node α → Prop) (g g' : Graph α) : Prop extends Aside g g' where
  computed : ∀ id, (g'.slot id).computed = (g.slot id).computed
  retained : ∀ id, (g'.slot id).retained = (g.slot id).retained
  leaf : ∀ n, known n → n.isLeaf = true → (g'.slot n.id).value = (g.slot n.id).value

namespace Steady

omit [Element α] in
theorem refl (g : Graph α) : Steady known g g :=
  ⟨⟨rfl, rfl, Nat.le_refl _⟩, fun _ => rfl, fun _ => rfl, fun _ _ _ => rfl⟩

omit [Element α] in
theorem trans {g₁ g₂ g₃ : Graph α} (first : Steady known g₁ g₂) (second : Steady known g₂ g₃) :
    Steady known g₁ g₃ :=
  ⟨first.toAside.trans second.toAside,
    fun id => (second.computed id).trans (first.computed id),
    fun id => (second.retained id).trans (first.retained id),
    fun n mem isLeaf => (second.leaf n mem isLeaf).trans (first.leaf n mem isLeaf)⟩

omit [Element α] in
theorem of_quiet (quiet : Quiet g g') : Steady known g g' :=
  ⟨quiet.toAside, fun _ => by rw [quiet.slots], fun _ => by rw [quiet.slots],
    fun _ _ _ => by rw [quiet.slots]⟩

omit [Element α] in
theorem of_update {id : Nat} {s : Slot α} (aside : Aside g g')
    (slots : g'.slot = Function.update g.slot id s) (computed : s.computed = (g.slot id).computed)
    (retained : s.retained = (g.slot id).retained)
    (leaf : ∀ n, known n → n.isLeaf = true → n.id = id → s.value = (g.slot id).value) :
    Steady known g g' := by
  have of_field : ∀ {β : Type} (field : Slot α → β) (j : Nat),
      (j = id → field s = field (g.slot id)) → field (g'.slot j) = field (g.slot j) := by
    intro β field j same
    rw [slots]
    by_cases h : j = id
    · rw [h, Function.update_self]
      exact same h
    · rw [Function.update_of_ne h]
  exact ⟨aside, fun j => of_field Slot.computed j fun _ => computed,
    fun j => of_field Slot.retained j fun _ => retained,
    fun n mem isLeaf => of_field Slot.value n.id (leaf n mem isLeaf)⟩

theorem of_recalls (wf : WellFormed known g) (recalls : Recalls known g g') : Steady known g g' :=
  ⟨recalls.aside, recalls.computed, recalls.retained,
    fun n mem isLeaf => by rw [recalls.leaf wf mem isLeaf]⟩

omit [Element α] in
theorem of_grad {id : Nat} {grad : Option (Held α)} (aside : Aside g g')
    (slots : g'.slot = Function.update g.slot id { g.slot id with grad }) : Steady known g g' :=
  of_update aside slots rfl rfl fun _ _ _ _ => rfl

theorem den (wf : WellFormed known g) (steady : Steady known g g') {n : Node α} (mem : known n) :
    g'.den n = g.den n := by
  refine Node.denote_congr known (fun m mem' i input => wf.known_inputs mem' input) ?_ mem
  intro s init leaf
  have same := steady.leaf _ leaf rfl
  simp only [Node.id, Node.stamp] at same
  rw [held?, same, held?]

end Steady

omit [Element α] in
theorem releaseValue_steady (wf : WellFormed known g) {n : Node α} (mem : known n)
    (inner : n.isLeaf = false) : Steady known g (g.releaseValue n.id) := by
  refine .of_update ⟨by simp, by simp, by simp⟩ (slot_releaseValue (wf.bound mem)) rfl rfl ?_
  intro m mem' isLeaf same
  obtain rfl := wf.unique mem' mem same
  simp [inner] at isLeaf

omit [Element α] in
theorem releaseGrad_steady (wf : WellFormed known g) {n : Node α} (mem : known n) :
    Steady known g (g.releaseGrad n.id) :=
  .of_grad ⟨by simp, by simp, by simp⟩ (slot_releaseGrad (wf.bound mem))

omit [Element α] in
theorem release_steady (wf : WellFormed known g) {n : Node α} (mem : known n)
    (inner : n.isLeaf = false) : Steady known g (g.release n.id) := by
  have first := releaseValue_steady wf mem inner
  exact first.trans (releaseGrad_steady (wf.of_outline first.outline) mem)

/-! ### Gradients under slot updates -/

omit [Element α] in
theorem grad?_of_grad {id : Nat} {held : Held α}
    (slots : g'.slot = Function.update g.slot id { g.slot id with grad := some held }) :
    g'.grad? = Function.update g.grad? id (some held.array) := by
  funext j
  by_cases same : j = id
  · simp [grad?, slots, same]
  · simp [grad?, slots, Function.update_of_ne same]

omit [Element α] in
theorem grad?_of_value {id : Nat} {value : Option (Held α)} {computed : Bool}
    (slots : g'.slot = Function.update g.slot id { g.slot id with value, computed }) :
    g'.grad? = g.grad? := by
  funext j
  by_cases same : j = id
  · simp [grad?, slots, same]
  · simp [grad?, slots, Function.update_of_ne same]

omit [Element α] in
theorem grad?_of_quiet (quiet : Quiet g g') : g'.grad? = g.grad? := by
  funext j
  rw [grad?, quiet.slots, grad?]

omit [Element α] in
theorem grad?_releaseValue {id : Nat} (bound : id < g.slots.size) :
    (g.releaseValue id).grad? = g.grad? :=
  @grad?_of_value α g _ id none (g.slot id).computed (slot_releaseValue bound)

omit [Element α] in
theorem grad?_releaseGrad {id : Nat} (bound : id < g.slots.size) :
    (g.releaseGrad id).grad? = Function.update g.grad? id none := by
  have slots := slot_releaseGrad (g := g) bound
  funext j
  by_cases same : j = id
  · simp [grad?, slots, same]
  · simp [grad?, slots, Function.update_of_ne same]

omit [Element α] in
theorem grad?_release {id : Nat} (bound : id < g.slots.size) :
    (g.release id).grad? = Function.update g.grad? id none := by
  rw [release, grad?_releaseGrad (by rwa [size_releaseValue]), grad?_releaseValue bound]

/-! ### Additions -/

theorem gradBuffer_steady {n : Node α} (bound : n.id < g.slots.size) {t : Tensor α}
    (answered : gradBuffer n g = .ok t g') :
    t = g.buffer n ∧ g'.grad? = Gradients.put g.grad? n t ∧ Steady known g g' := by
  obtain ⟨same, ⟨found, rfl⟩ | ⟨_, aside, held, rfl, _, slots⟩⟩ := gradBuffer_answer bound answered
  · refine ⟨same, (Function.update_eq_self_iff.mpr found.symm).symm, .refl g'⟩
  · exact ⟨same, grad?_of_grad slots, .of_grad aside slots⟩

theorem addToGrad_add (wf : WellFormed known g) {n : Node α} (mem : known n) {c : Contribution α}
    (answered : addToGrad n c g = .ok () g') :
    Gradients.add n c g.grad? = .ok g'.grad? ∧ Steady known g g' := by
  rw [addToGrad, answer_bind] at answered
  obtain ⟨t, g₁, buffered, answered⟩ := answered
  rw [answer_bind] at answered
  obtain ⟨t', _, added, answered⟩ := answered
  obtain ⟨sum, rfl⟩ := answer_lift.mp added
  cases answer_modify.mp answered
  have bound := wf.bound mem
  obtain ⟨rfl, grads, steady⟩ : t = g.buffer n ∧ g₁.grad? = Gradients.put g.grad? n t ∧
      Steady known g g₁ := gradBuffer_steady bound buffered
  obtain ⟨held, found, _⟩ := Option.map_eq_some_iff.mp (gradBuffer_grad bound buffered)
  have slots := slot_setGrad (by rwa [size_of_outline steady.outline]) found t'
  refine ⟨Gradients.add_eq_ok.mpr ⟨t', sum, ?_⟩,
    steady.trans (.of_grad ⟨by simp, rfl, Nat.le_refl _⟩ slots)⟩
  rw [grad?_of_grad slots, grads, Gradients.put, Gradients.put, Function.update_idem]

theorem openGrad_steady (wf : WellFormed known g) {i : Node α} (mem : known i)
    (answered : (if i.trainable then discard (gradBuffer i) else pure () : GraphM α Unit) g =
      .ok () g') :
    g'.grad? = (if i.trainable then Gradients.put g.grad? i (g.buffer i) else g.grad?) ∧
      Steady known g g' := by
  split at answered
  next trainable =>
    rw [discard_run] at answered
    cases run : gradBuffer i g with
    | error => simp [run] at answered
    | ok t g₁ =>
      simp only [run, EStateM.Result.ok.injEq, true_and] at answered
      subst answered
      obtain ⟨rfl, grads, steady⟩ : t = g.buffer i ∧ g₁.grad? = Gradients.put g.grad? i t ∧
          Steady known g g₁ := gradBuffer_steady (wf.bound mem) run
      exact ⟨by rw [if_pos trainable, grads], steady⟩
  next idle =>
    obtain ⟨_, rfl⟩ := answer_pure.mp answered
    exact ⟨by rw [if_neg idle], .refl g⟩

theorem openGrads_openAll (wf : WellFormed known g) {inputs : List (Node α)}
    (mem : ∀ i ∈ inputs, known i) (answered : openGrads inputs g = .ok () g') :
    g'.grad? = Gradients.openAll inputs g.grad? ∧ Steady known g g' := by
  induction inputs generalizing g with
  | nil =>
    obtain ⟨_, rfl⟩ := answer_pure.mp answered
    exact ⟨rfl, .refl g⟩
  | cons i rest ih =>
    obtain ⟨g₁, first, others⟩ := answer_forM_cons.mp answered
    obtain ⟨grads₁, steady₁⟩ := openGrad_steady wf (mem i (by simp)) first
    obtain ⟨grads, steady⟩ :=
      ih (wf.of_outline steady₁.outline) (fun j input => mem j (by simp [input])) others
    refine ⟨?_, steady₁.trans steady⟩
    rw [grads, grads₁]
    rfl

theorem addToSlot_add (wf : WellFormed known g) {inputs : List (Node α)}
    (mem : ∀ i ∈ inputs, known i) {slot : Nat} {c : Contribution α}
    (answered : addToSlot inputs slot c g = .ok () g') :
    Gradients.addToSlot inputs slot c g.grad? = .ok g'.grad? ∧ Steady known g g' := by
  cases found : inputs[slot]? with
  | none =>
    simp only [addToSlot, found] at answered
    obtain ⟨_, rfl⟩ := answer_pure.mp answered
    exact ⟨by simp only [Gradients.addToSlot, found], .refl g⟩
  | some i =>
    cases trainable : i.trainable with
    | true =>
      simp only [addToSlot, found, trainable, if_true] at answered
      simp only [Gradients.addToSlot, found, trainable, if_true]
      exact addToGrad_add wf (mem i (List.mem_of_getElem? found)) answered
    | false =>
      simp only [addToSlot, found, trainable] at answered
      obtain ⟨_, rfl⟩ := answer_pure.mp answered
      exact ⟨by simp [Gradients.addToSlot, found, trainable], .refl g⟩

theorem addContributions_addAll (wf : WellFormed known g) {inputs : List (Node α)}
    (mem : ∀ i ∈ inputs, known i) {cs : Contributions α}
    (answered : addContributions inputs cs g = .ok () g') :
    Gradients.addAll inputs cs g.grad? = .ok g'.grad? ∧ Steady known g g' := by
  induction cs generalizing g with
  | nil =>
    obtain ⟨_, rfl⟩ := answer_pure.mp answered
    exact ⟨rfl, .refl g⟩
  | cons entry rest ih =>
    obtain ⟨slot, made⟩ := entry
    rw [addContributions_cons, answer_bind] at answered
    obtain ⟨c, _, lifted, answered⟩ := answered
    obtain ⟨had, rfl⟩ := answer_lift.mp lifted
    rw [answer_bind] at answered
    obtain ⟨_, g₁, first, others⟩ := answered
    obtain ⟨added, steady₁⟩ := addToSlot_add wf mem first
    obtain ⟨grads, steady⟩ := ih (wf.of_outline steady₁.outline) others
    exact ⟨Gradients.addAll_cons_eq_ok.mpr ⟨c, _, had, added, grads⟩, steady₁.trans steady⟩

/-! ### Visits -/

/-- The values of some nodes that can be had are their denotations. -/
theorem ensured_each (faithful : Faithful known g) {ns : List (Node α)} (mem : ∀ n ∈ ns, known n)
    (ready : ∀ n ∈ ns, Ready g n) {ts : List (Tensor α)}
    (answered : ns.mapM ensured g = .ok ts g') : Recalls known g g' ∧ Yields g.den ns ts := by
  induction ns generalizing g ts with
  | nil =>
    rw [List.mapM_nil] at answered
    obtain ⟨rfl, rfl⟩ := answer_pure.mp answered
    exact ⟨.refl, rfl⟩
  | cons n rest ih =>
    obtain ⟨t, g₁, us, first, others, rfl⟩ := answer_mapM_cons.mp answered
    obtain ⟨recalls, value⟩ := ensured_answer faithful (mem n (by simp)) (ready n (by simp)) first
    obtain ⟨recalls', yields⟩ := ih (recalls.changes.faithful faithful)
      (fun m inside => mem m (by simp [inside]))
      (fun m inside => (ready m (by simp [inside])).recalls recalls) others
    refine ⟨recalls.trans recalls', Yields.cons.mpr ⟨t, us, rfl, value, ?_⟩⟩
    refine yields.congr fun m inside u found => ?_
    rwa [← recalls.den faithful.toWellFormed (mem m (by simp [inside]))]

omit [Element α] in
/-- An application that carries gradients has a derivative and a trainable input. -/
theorem WellFormed.contributes (wf : WellFormed known g) {s : Stamp} {op : Operator α}
    {inputs : List (Node α)} (mem : known (.apply s op inputs))
    (trainable : s.trainable.holds = true) :
    (op.differentiable && (inputs.map Node.trainable).any id) = true := by
  rw [wf.trainable mem, Written.ofBool, carriesGradient] at trainable
  simp only [Bool.and_eq_true, List.any_map] at trainable ⊢
  exact ⟨trainable.1.1, trainable.2⟩

/-- The step of a node whose gradient has been reached. -/
theorem backwardStep_visit (faithful : Faithful known g) {s : Stamp} {op : Operator α}
    {inputs : List (Node α)} (on : .apply s op inputs ∈ g.tape.toList)
    (computed : (g.slot s.id).computed = true) (trainable : s.trainable.holds = true)
    {grad : Tensor α} (reached : g.grad? s.id = some grad)
    (answered : backwardStep (.apply s op inputs) op inputs g = .ok () g') :
    Gradients.Visit g.den (.apply s op inputs) g.grad? g'.grad? ∧ Steady known g g' := by
  have wf := faithful.toWellFormed
  have mem := wf.known_of_tape on
  have memInputs : ∀ i ∈ inputs, known i := fun i input => wf.known_inputs mem input
  rw [backwardStep_eq, answer_bind] at answered
  obtain ⟨out, g₁, first, answered⟩ := answered
  obtain ⟨recalls₁, output⟩ := ensured_answer faithful mem (.apply on computed) first
  rw [answer_bind] at answered
  obtain ⟨ts, g₂, second, answered⟩ := answered
  have faithful₁ := recalls₁.changes.faithful faithful
  obtain ⟨recalls₂, yields⟩ := ensured_each faithful₁ memInputs
    (fun i input => (faithful.ready_inputs on computed i input).recalls recalls₁) second
  have yields : Yields g.den inputs ts := yields.congr fun m input t found => by
    rwa [← recalls₁.den wf (memInputs m input)]
  have recalls := recalls₁.trans recalls₂
  have steady₂ := Steady.of_recalls wf recalls
  have wf₂ := wf.of_outline steady₂.outline
  rw [answer_bind] at answered
  obtain ⟨_, g₃, opened, answered⟩ := answered
  obtain ⟨grads₃, steady₃⟩ := openGrads_openAll wf₂ memInputs opened
  have grads₂ : g₂.grad? = g.grad? := funext (Recalls.grad recalls)
  have reached₃ : g₃.grad? s.id = some grad := by
    rw [grads₃, grads₂, Gradients.openAll_other, reached]
    intro i input _
    exact Nat.ne_of_lt (wf.inputs mem input).2
  rw [contribute, answer_bind] at answered
  obtain ⟨_, _, got, answered⟩ := answered
  obtain ⟨rfl, rfl⟩ := answer_get.mp got
  have contributes := wf.contributes mem trainable
  simp only [show (Node.apply s op inputs).id = s.id from rfl, reached₃, contributes, if_true]
    at answered
  rw [answer_bind] at answered
  obtain ⟨_, g₄, told, answered⟩ := answered
  have quiet := tellBackward_leads op grad g₃
  rw [told, after_ok] at quiet
  obtain ⟨added, steady⟩ := addContributions_addAll
    ((wf₂.of_outline steady₃.outline).of_outline quiet.outline) memInputs answered
  rw [grad?_of_quiet quiet, grads₃, grads₂] at added
  exact ⟨.step trainable reached output yields added,
    steady₂.trans (steady₃.trans ((Steady.of_quiet quiet).trans steady))⟩

theorem visit_visit (faithful : Faithful known g) {n : Node α} (on : n ∈ g.tape.toList)
    (computed : (g.slot n.id).computed = true) (answered : visit n g = .ok () g') :
    Gradients.Visit g.den n g.grad? g'.grad? ∧ Steady known g g' := by
  cases n with
  | leaf s init =>
    obtain ⟨_, rfl⟩ := answer_pure.mp answered
    exact ⟨.leaf, .refl g⟩
  | apply s op inputs =>
    rw [visit, answer_bind] at answered
    obtain ⟨_, _, got, answered⟩ := answered
    obtain ⟨rfl, rfl⟩ := answer_get.mp got
    by_cases reached : ((Node.apply s op inputs).trainable &&
        (g.grad? (Node.apply s op inputs).id).isSome) = true
    · rw [if_pos reached] at answered
      obtain ⟨trainable, found⟩ := Bool.and_eq_true_iff.mp reached
      obtain ⟨grad, found⟩ := Option.isSome_iff_exists.mp found
      exact backwardStep_visit faithful on computed trainable found answered
    · rw [if_neg reached] at answered
      obtain ⟨_, rfl⟩ := answer_pure.mp answered
      refine ⟨.pass ?_, .refl g⟩
      cases trainable : s.trainable.holds with
      | false => exact .inl rfl
      | true => simpa [Node.trainable, Node.id, Node.stamp, trainable] using reached

/-! ### What is dropped -/

/-- Whether a pass keeps the gradient of a node: that of a leaf, and on the tape that of a
retained node, or of any where memory is not released. -/
def KeepsGrad (g : Graph α) (n : Node α) : Prop :=
  n.isLeaf = true ∨ n ∈ g.tape.toList ∧
    ((g.slot n.id).retained = true ∨ g.settings.releaseMemory = false)

omit [Element α] in
theorem Steady.keepsGrad (steady : Steady known g g') {n : Node α} :
    g'.KeepsGrad n ↔ g.KeepsGrad n := by
  rw [KeepsGrad, steady.retained, settings_of_outline steady.outline,
    tape_of_outline steady.outline, KeepsGrad]

omit [Element α] in
theorem leaveInput_steady (wf : WellFormed known g) {i : Node α} (mem : known i) (p : Pending) :
    Steady known g (leaveInput (g, p) i).1 ∧ (leaveInput (g, p) i).1.grad? = g.grad? := by
  unfold leaveInput
  dsimp only
  split
  next last =>
    simp only [Bool.and_eq_true] at last
    exact ⟨releaseValue_steady wf mem (releasable_inner last.2), grad?_releaseValue (wf.bound mem)⟩
  · exact ⟨.refl g, rfl⟩

omit [Element α] in
theorem leaveInputs_steady (wf : WellFormed known g) {is : List (Node α)}
    (mem : ∀ i ∈ is, known i) (p : Pending) :
    Steady known g (is.foldl leaveInput (g, p)).1 ∧
      (is.foldl leaveInput (g, p)).1.grad? = g.grad? := by
  induction is generalizing g p with
  | nil => exact ⟨.refl g, rfl⟩
  | cons i is ih =>
    obtain ⟨steady, grads⟩ := leaveInput_steady wf (mem i (by simp)) p
    obtain ⟨steady', grads'⟩ := ih (wf.of_outline steady.outline)
      (fun j mem' => mem j (by simp [mem'])) (leaveInput (g, p) i).2
    exact ⟨steady.trans steady', grads'.trans grads⟩

omit [Element α] in
/-- What follows the step of a node drops no gradient but that of the node itself. -/
theorem afterBackward_steady (wf : WellFormed known g) {n : Node α} (mem : known n) (p : Pending) :
    Steady known g (afterBackward n p g).2 ∧ ∀ m, known m → (m = n → g.KeepsGrad n) →
      (afterBackward n p g).2.grad? m.id = g.grad? m.id := by
  rw [afterBackward_eq]
  cases release : g.settings.releaseMemory with
  | false => exact ⟨.of_quiet (record_quiet g), fun _ _ _ => rfl⟩
  | true =>
    simp only [if_true]
    have memInputs : ∀ i ∈ n.distinctInputs, known i := fun i input =>
      wf.known_inputs mem (mem_inputs_of_distinct input)
    obtain ⟨steady, grads⟩ := leaveInputs_steady wf memInputs p
    generalize (n.distinctInputs.foldl leaveInput (g, p)).1 = g₁ at steady grads
    have wf₁ := wf.of_outline steady.outline
    by_cases may : g₁.releasable n = true
    · have inner := releasable_inner may
      rw [leave, if_pos may]
      refine ⟨(steady.trans (release_steady wf₁ mem inner)).trans (.of_quiet (record_quiet _)), ?_⟩
      intro m mem' keeps
      have other : m.id ≠ n.id := by
        refine wf.ne_of_id mem' mem ?_
        rintro rfl
        rcases keeps rfl with leaf | ⟨_, retained | off⟩
        · simp [inner] at leaf
        · rw [← steady.retained] at retained
          simp [releasable, retained] at may
        · simp [release] at off
      change (g₁.release n.id).grad? m.id = _
      rw [grad?_release (wf₁.bound mem), Function.update_of_ne other, grads]
    · rw [leave, if_neg may]
      refine ⟨steady.trans (.of_quiet (record_quiet _)), fun m _ _ => ?_⟩
      change g₁.grad? m.id = _
      rw [grads]

/-- A walk over nodes whose inputs are leaves or come later is a sweep, as far as gradients are
kept. -/
theorem backwardFrom_sweep {ns : List (Node α)} (faithful : Faithful known g)
    (on : ∀ n ∈ ns, n ∈ g.tape.toList) (computed : ∀ n ∈ ns, (g.slot n.id).computed = true)
    (sorted : ns.Pairwise fun m n => n.id < m.id)
    (closed : ∀ n ∈ ns, ∀ m ∈ n.inputs, m.isLeaf = true ∨ m ∈ ns)
    {γ : Gradients α}
    (agree : Gradients.Agree (fun n => known n ∧ (g.KeepsGrad n ∨ n ∈ ns)) g.grad? γ)
    {p : Pending} (answered : backwardFrom ns p g = .ok () g') :
    ∃ γ', Gradients.Sweep g.den ns γ γ' ∧ Steady known g g' ∧
      Gradients.Agree (fun n => known n ∧ g.KeepsGrad n) g'.grad? γ' := by
  induction ns generalizing g p γ with
  | nil =>
    obtain ⟨_, rfl⟩ := answer_pure.mp answered
    exact ⟨γ, .nil, .refl g, agree.mono fun n inside => ⟨inside.1, .inl inside.2⟩⟩
  | cons n rest ih =>
    have wf := faithful.toWellFormed
    have mem := wf.known_of_tape (on n (by simp))
    obtain ⟨older, sorted'⟩ := List.pairwise_cons.mp sorted
    rw [backwardFrom, answer_bind] at answered
    obtain ⟨_, g₁, visited, answered⟩ := answered
    rw [answer_bind] at answered
    obtain ⟨p', g₂, left, answered⟩ := answered
    have left : afterBackward n p g₁ = (p', g₂) := answer_modifyGet.mp left
    obtain ⟨visits, steady₁⟩ := visit_visit faithful (on n (by simp)) (computed n (by simp)) visited
    -- the step reads and changes gradients of the node and its inputs only, which agree
    obtain ⟨γ₁, visits', agree₁⟩ := agree.visit ⟨mem, .inr (by simp)⟩ (fun m input =>
      ⟨wf.known_inputs mem input, (closed n (by simp) m input).imp .inl id⟩) visits
    have wf₁ := wf.of_outline steady₁.outline
    obtain ⟨steady₂, kept⟩ := afterBackward_steady wf₁ mem p
    rw [left] at steady₂ kept
    have steady := steady₁.trans steady₂
    have first := visit_through (g := g) mem
    have second := afterBackward_through (g := g₁) mem p
    rw [visited, after_ok] at first
    rw [left] at second
    have faithful₂ := (Through.trans first second faithful.toSound).faithful faithful
    have agree₂ : Gradients.Agree (fun m => known m ∧ (g₂.KeepsGrad m ∨ m ∈ rest)) g₂.grad? γ₁ := by
      rintro m ⟨mem', inside⟩
      rw [steady.keepsGrad] at inside
      rw [kept m mem' ?_]
      · exact agree₁ m ⟨mem', inside.imp_right fun h => List.mem_cons_of_mem n h⟩
      · rintro rfl
        rw [steady₁.keepsGrad]
        exact inside.resolve_right fun h => Nat.lt_irrefl _ (older m h)
    have on₂ : ∀ m ∈ rest, m ∈ g₂.tape.toList := fun m inside => by
      rw [tape_of_outline steady.outline]
      exact on m (by simp [inside])
    have closed' : ∀ m ∈ rest, ∀ i ∈ m.inputs, i.isLeaf = true ∨ i ∈ rest := by
      intro m inside i input
      rcases closed m (by simp [inside]) i input with leaf | among
      · exact .inl leaf
      · rcases List.mem_cons.mp among with rfl | later
        · have := (wf.inputs (wf.known_of_tape (on m (by simp [inside]))) input).2
          exact absurd (older m inside) (Nat.lt_asymm this)
        · exact .inr later
    obtain ⟨γ', sweeps, steady', agree'⟩ := ih faithful₂ on₂
      (fun m inside => (steady.computed m.id).trans (computed m (by simp [inside]))) sorted' closed'
      agree₂ answered
    refine ⟨γ', .cons visits' (sweeps.of_values fun m inside => ?_), steady.trans steady', ?_⟩
    · have mem' := wf.known_of_tape (on m (by simp [inside]))
      exact ⟨(steady.den wf mem').symm,
        fun i input => (steady.den wf (wf.known_inputs mem' input)).symm⟩
    · exact agree'.mono fun m inside => ⟨inside.1, steady.keepsGrad.mpr inside.2⟩

/-! ### Before the walk -/

omit [Element α] in
/-- The gradients that an earlier pass has left on applications of the tape are dropped. -/
theorem dropGrads_grad? (wf : WellFormed known g) {n : Node α} (mem : known n) :
    (n.isLeaf = true → g.dropGrads.grad? n.id = g.grad? n.id) ∧
      (n.isLeaf = false → n ∈ g.tape.toList → g.dropGrads.grad? n.id = none) := by
  have all : ∀ ns : List (Node α), (∀ m ∈ ns, known m) → ∀ g : Graph α, WellFormed known g →
      (n.isLeaf = true →
        (ns.foldl (fun g n => if n.isLeaf then g else g.releaseGrad n.id) g).grad? n.id =
          g.grad? n.id) ∧
      (n.isLeaf = false → n ∈ ns ∨ g.grad? n.id = none →
        (ns.foldl (fun g n => if n.isLeaf then g else g.releaseGrad n.id) g).grad? n.id = none) := by
    intro ns
    induction ns with
    | nil => exact fun _ g _ => ⟨fun _ => rfl, fun _ h => h.resolve_left (by simp)⟩
    | cons m ns ih =>
      intro known' g wf
      rw [List.foldl_cons]
      have memM := known' m (by simp)
      cases leaf : m.isLeaf with
      | true =>
        obtain ⟨kept, dropped⟩ := ih (fun k inside => known' k (by simp [inside])) g wf
        refine ⟨kept, fun inner h => dropped inner (h.imp_left fun among => ?_)⟩
        rcases List.mem_cons.mp among with rfl | among
        · simp [inner] at leaf
        · exact among
      | false =>
        obtain ⟨kept, dropped⟩ := ih (fun k inside => known' k (by simp [inside]))
          (g.releaseGrad m.id) (wf.of_outline (by simp))
        rw [grad?_releaseGrad (wf.bound memM)] at kept dropped
        refine ⟨fun isLeaf => (kept isLeaf).trans (Function.update_of_ne ?_ _ _), fun inner h =>
          dropped inner ?_⟩
        · refine wf.ne_of_id mem memM ?_
          rintro rfl
          simp [isLeaf] at leaf
        · by_cases same : n.id = m.id
          · exact .inr (by rw [same, Function.update_self])
          · rw [Function.update_of_ne same]
            refine h.imp_left fun among => ?_
            rcases List.mem_cons.mp among with rfl | among
            · exact absurd rfl same
            · exact among
  obtain ⟨kept, dropped⟩ := all g.tape.toList (fun m => wf.known_of_tape) g wf
  exact ⟨kept, fun inner on => dropped inner (.inl on)⟩

/-- A leaf without a value is computed. -/
theorem ensure_leaf_eq {s : Stamp} {init : Initializer α} (absent : (g.slot s.id).value = none) :
    ensure (.leaf s init) g = compute (.leaf s init) (g.countRecomputation (.leaf s init)) := by
  have absent' : ¬ (g.slot (Node.leaf s init).id).value.isSome = true := by
    simp [Node.id, Node.stamp, absent]
  rw [ensure_eq]
  change (if (g.slot (Node.leaf s init).id).value.isSome then _ else _ : GraphM α Unit) g = _
  rw [if_neg absent']
  rfl

/-- A leaf without a value draws it. -/
theorem ensure_leaf_answer {s : Stamp} {init : Initializer α} (bound : s.id < g.slots.size)
    (absent : (g.slot s.id).value = none) (answered : ensure (.leaf s init) g = .ok () g') :
    ∃ held : Held α, init.supply s g.random = .ok (held.array, g'.random) ∧
      g'.outline = g.outline ∧ New g g' held.storage ∧
      g'.slot = Function.update g.slot s.id
        { g.slot s.id with value := some held, computed := true } := by
  rw [ensure_leaf_eq absent] at answered
  have outline₂ := outline_countRecomputation g (.leaf s init)
  obtain ⟨held, supplied, outline, new, slots⟩ :=
    compute_leaf_answer (by rwa [size_of_outline outline₂]) answered
  simp only [random_countRecomputation, slot_countRecomputation] at supplied slots
  refine ⟨held, supplied, outline.trans outline₂, ?_, slots⟩
  simpa [New] using new

/-- Whether a leaf without a value can be drawn depends on the random numbers only. -/
theorem ensure_leaf_answers {s : Stamp} {init : Initializer α} {h : Graph α}
    (random : g.random = h.random) (absent : (g.slot s.id).value = none)
    (absent' : (h.slot s.id).value = none) (answered : ensure (.leaf s init) g = .ok () g') :
    ∃ h', ensure (.leaf s init) h = .ok () h' := by
  rw [ensure_leaf_eq absent, compute_leaf, answer_bind] at answered
  obtain ⟨_, _, drawn, _⟩ := answered
  rw [ensure_leaf_eq absent', compute_leaf]
  simp only [answer_bind, answer_modify]
  cases run : computeLeaf s init (h.countRecomputation (.leaf s init)) with
  | ok u h₁ => exact ⟨_, ⟨⟩, h₁, rfl, rfl⟩
  | error f h₁ =>
    have raises : ∃ g₁, computeLeaf s init (g.countRecomputation (.leaf s init)) = .error f g₁ := by
      rcases computeLeaf_raise.mp run with ⟨refused, _⟩ | ⟨admitted, failed, _⟩
      · exact ⟨_, computeLeaf_raise.mpr (.inl ⟨refused, rfl⟩)⟩
      · refine ⟨_, computeLeaf_raise.mpr (.inr ⟨admitted, ?_, rfl⟩)⟩
        rw [random_countRecomputation] at failed
        rwa [random_countRecomputation, random]
    obtain ⟨_, raises⟩ := raises
    cases drawn.symm.trans raises

omit [Element α] in
/-- A root that may be used can be had, or it is a leaf that has not been drawn. -/
theorem usable_ready (sound : Sound known g) {n : Node α} (mem : known n)
    (used : g.checkNode n = .ok ()) (computed : ∀ m ∈ g.tape.toList, (g.slot m.id).computed = true) :
    Ready g n ∨ ∃ s init, n = .leaf s init ∧ (g.slot s.id).value = none := by
  rcases sound.usable mem used with on | ⟨_, isLeaf⟩
  · exact .inl (.of_computed sound on (computed n on))
  · cases n with
    | apply => simp [Node.isLeaf] at isLeaf
    | leaf s init =>
      cases value : (g.slot s.id).value with
      | some held => exact .inl (.leaf (by simp [value]))
      | none => exact .inr ⟨s, init, rfl, value⟩

/-- Having the value of a root changes no gradient. -/
theorem ensure_grad? (faithful : Faithful known g) {n : Node α} (mem : known n)
    (used : g.checkNode n = .ok ()) (computed : ∀ m ∈ g.tape.toList, (g.slot m.id).computed = true)
    (answered : ensure n g = .ok () g') : g'.grad? = g.grad? := by
  rcases usable_ready faithful.toSound mem used computed with ready | ⟨s, init, rfl, absent⟩
  · exact funext (Recalls.grad (ensure_answer faithful ready answered))
  · obtain ⟨_, _, _, _, slots⟩ := ensure_leaf_answer (faithful.bound mem) absent answered
    exact grad?_of_value slots

theorem seedGrad_answer {n : Node α} {seed : Option Literal}
    (answered : seedGrad n seed g = .ok () g') :
    ∃ e, seedElements n.signature seed = .ok e ∧ addToGrad n (.inPlace e) g = .ok () g' := by
  simp only [seedGrad, answer_bind, answer_lift] at answered
  obtain ⟨t, g₁, buffered, e, _, ⟨elements, rfl⟩, t', _, ⟨added, rfl⟩, seeded⟩ := answered
  refine ⟨e, elements, ?_⟩
  simp only [addToGrad, answer_bind, answer_lift]
  exact ⟨t, g₁, buffered, t', g₁, ⟨added, rfl⟩, seeded⟩

theorem seedRoot_seed (faithful : Faithful known g) {root : Node α × Option Literal}
    (mem : known root.1) (used : g.checkNode root.1 = .ok ())
    (computed : ∀ m ∈ g.tape.toList, (g.slot m.id).computed = true)
    (answered : seedRoot root g = .ok () g') : Gradients.seed root g.grad? = .ok g'.grad? := by
  obtain ⟨n, seed⟩ := root
  rw [seedRoot_eq, answer_bind] at answered
  obtain ⟨_, g₁, kept, answered⟩ := answered
  obtain rfl := answer_modify.mp kept
  rw [answer_bind] at answered
  obtain ⟨_, g₂, ensured, answered⟩ := answered
  have retains := retain_through (g := g) mem faithful.toSound
  have faithful₁ := retains.faithful faithful
  have outline₁ := Changes.outline retains
  have grads₁ : (g.modifySlot n.id fun s => { s with retained := true }).grad? = g.grad? := by
    funext j
    have slots := slot_modifySlot (faithful.bound mem) fun s => { s with retained := true }
    by_cases same : j = n.id
    · simp [grad?, slots, same]
    · simp [grad?, slots, Function.update_of_ne same]
  have grads₂ := ensure_grad? faithful₁ mem
    (by simpa [checkNode, serial_of_outline outline₁, episode_of_outline outline₁] using used)
    (fun m on => Changes.computed retains (computed m (tape_of_outline outline₁ ▸ on))) ensured
  have changes := ensure_changes faithful₁.toSound mem
  rw [ensured, after_ok] at changes
  rw [Gradients.seed, ← grads₁, ← grads₂]
  cases trainable : n.trainable with
  | true =>
    simp only [trainable, if_true] at answered ⊢
    obtain ⟨e, elements, added⟩ := seedGrad_answer answered
    exact bind_eq_ok.mpr
      ⟨e, elements, (addToGrad_add (faithful₁.toWellFormed.of_outline changes.outline) mem added).1⟩
  | false =>
    simp only [trainable] at answered ⊢
    obtain ⟨_, rfl⟩ := answer_pure.mp answered
    rfl

/-- Seeding the roots of a pass. -/
theorem seedRoots_seedAll {started : List (Node α × Option Literal)} (faithful : Faithful known g)
    (usable : ∀ root ∈ started, known root.1 ∧ g.checkNode root.1 = .ok ())
    (computed : ∀ m ∈ g.tape.toList, (g.slot m.id).computed = true)
    (answered : started.forM seedRoot g = .ok () g') :
    Gradients.seedAll started g.grad? = .ok g'.grad? ∧ Changes known g g' := by
  induction started generalizing g with
  | nil =>
    obtain ⟨_, rfl⟩ := answer_pure.mp answered
    exact ⟨rfl, .refl⟩
  | cons root rest ih =>
    obtain ⟨g₁, first, others⟩ := answer_forM_cons.mp answered
    obtain ⟨mem, used⟩ := usable root (by simp)
    have seeded := seedRoot_seed faithful mem used computed first
    have changes := seedRoot_through mem root.2 g faithful.toSound
    rw [first, after_ok] at changes
    have outline := Changes.outline changes
    obtain ⟨seeds, changes'⟩ := ih (changes.faithful faithful)
      (fun r inside => by
        simpa [checkNode, serial_of_outline outline, episode_of_outline outline]
          using usable r (by simp [inside]))
      (fun m on => Changes.computed changes (computed m (tape_of_outline outline ▸ on))) others
    exact ⟨Gradients.seedAll_cons_eq_ok.mpr ⟨_, seeded, seeds⟩, changes.trans changes'⟩

/-! ### Whole passes -/

/-- A backward pass that ends has been accepted. -/
theorem backward_accepted {roots : Roots α} {seeds : Seeds}
    (answered : backward roots seeds g = .ok () g') :
    ∃ started, g.checkBackward roots seeds = .ok started := by
  rw [backward, answer_bind] at answered
  obtain ⟨_, _, got, answered⟩ := answered
  obtain ⟨rfl, rfl⟩ := answer_get.mp got
  rw [answer_bind] at answered
  obtain ⟨started, _, checked, _⟩ := answered
  exact ⟨started, (answer_lift.mp checked).1⟩

/-- The parts of a backward pass that ends. -/
theorem backward_answer {roots : Roots α} {seeds : Seeds}
    {started : List (Node α × Option Literal)} (accepted : g.checkBackward roots seeds = .ok started)
    (answered : backward roots seeds g = .ok () g') :
    ∃ g₁ g₂, started.forM seedRoot g.dropGrads = .ok () g₁ ∧
      backwardFrom g.dropGrads.tape.toList.reverse
        (Pending.start g₁.slots.size g.dropGrads.tape.toList) g₁ = .ok () g₂ ∧
      logBackward (started.map Prod.fst) g₂ = .ok () g' := by
  simp only [backward, answer_bind, answer_get, answer_lift, answer_modify] at answered
  obtain ⟨_, _, ⟨rfl, rfl⟩, _, _, ⟨accepted', rfl⟩, _, _, rfl, _, _, ⟨rfl, rfl⟩, _, g₁, seeded, _,
    _, ⟨rfl, rfl⟩, _, g₂, walked, logged⟩ := answered
  cases accepted.symm.trans accepted'
  exact ⟨g₁, g₂, seeded, walked, logged⟩

theorem Ready.den (faithful : Faithful known g) {n : Node α} (mem : known n) (ready : Ready g n) :
    ∃ t, g.den n = some t := by
  obtain ⟨_, t, _, _, value⟩ := ensured_recalls faithful mem ready
  exact ⟨t, value⟩

/-- The gradients that a backward pass keeps are those of a sweep over the tape, from gradients
that leaves had before and applications had not. -/
theorem backward_sweep (faithful : Faithful known g) {roots : Roots α} {seeds : Seeds}
    {started : List (Node α × Option Literal)}
    (known' : ∀ n ∈ roots.nodes, n.graph = g.serial → known n)
    (accepted : g.checkBackward roots seeds = .ok started)
    (answered : backward roots seeds g = .ok () g') {γ : Gradients α}
    (leaves : ∀ n, known n → n.isLeaf = true → γ n.id = g.grad? n.id)
    (applications : ∀ n ∈ g.tape.toList, n.isLeaf = false → γ n.id = none) :
    ∃ γ₁ γ', Gradients.seedAll started γ = .ok γ₁ ∧
      Gradients.Sweep g.den g.tape.toList.reverse γ₁ γ' ∧
      Gradients.Agree (fun n => known n ∧ g'.KeepsGrad n) g'.grad? γ' := by
  have wf := faithful.toWellFormed
  obtain ⟨_, _, uncomputed, _⟩ := checkBackward_eq_ok accepted
  have computed : ∀ m ∈ g.tape.toList, (g.slot m.id).computed = true := by
    intro m on
    by_contra undone
    have := mem_uncomputed.mpr ⟨on, by simpa using undone⟩
    simp [uncomputed] at this
  have usable := known_started faithful.toSound known' accepted
  obtain ⟨g₁, g₂, seeded, walked, logged⟩ := backward_answer accepted answered
  have drops := dropGrads_through (g := g) wf faithful.toSound
  have outline₀ := Changes.outline drops
  have faithful₀ := drops.faithful faithful
  obtain ⟨seeds, changes⟩ := seedRoots_seedAll faithful₀
    (fun r inside => by
      simpa [checkNode, serial_of_outline outline₀, episode_of_outline outline₀] using usable r inside)
    (fun m on => Changes.computed drops (computed m (tape_of_outline outline₀ ▸ on))) seeded
  have all := drops.trans changes
  have faithful₁ := Changes.faithful faithful all
  have outline₁ := Changes.outline all
  have tape₁ := tape_of_outline outline₁
  rw [tape_of_outline outline₀] at walked
  -- before the seeds the gradients agree on leaves and on the tape
  have agree : Gradients.Agree (fun n => known n ∧ (n.isLeaf = true ∨ n ∈ g.tape.toList))
      g.dropGrads.grad? γ := by
    rintro n ⟨mem, current⟩
    obtain ⟨kept, dropped⟩ := dropGrads_grad? wf mem
    cases leaf : n.isLeaf with
    | true => exact (kept leaf).trans (leaves n mem leaf).symm
    | false =>
      have on := current.resolve_left (by simp [leaf])
      exact (dropped leaf on).trans (applications n on leaf).symm
  obtain ⟨γ₁, seeds', agree₁⟩ := agree.seedAll (fun r inside => by
    obtain ⟨mem, used⟩ := usable r inside
    exact ⟨mem, (wf.usable mem used).symm.imp_left And.right⟩) seeds
  obtain ⟨γ', sweeps, steady, agree'⟩ := backwardFrom_sweep (γ := γ₁) faithful₁
    (fun n inside => by rw [tape₁]; exact List.mem_reverse.mp inside)
    (fun n inside => Changes.computed all (computed n (List.mem_reverse.mp inside)))
    (List.pairwise_reverse.mpr wf.sorted)
    (fun n inside m input => by
      rcases wf.tape_inputs (List.mem_reverse.mp inside) input with on | ⟨_, leaf⟩
      · exact .inr (List.mem_reverse.mpr on)
      · exact .inl leaf)
    (agree₁.mono fun n inside => ⟨inside.1, by
      rcases inside.2 with (leaf | ⟨on, _⟩) | among
      · exact .inl leaf
      · exact .inr (tape₁ ▸ on)
      · exact .inr (List.mem_reverse.mp among)⟩)
    walked
  have quiet := logBackward_leads (started.map Prod.fst) g₂
  rw [logged, after_ok] at quiet
  refine ⟨γ₁, γ', seeds', sweeps.of_values fun n inside => ?_, ?_⟩
  · -- the values that the tape had before the seeds are there after them
    have on := List.mem_reverse.mp inside
    have same : ∀ m, known m → Ready g m → g.den m = g₁.den m := by
      intro m mem ready
      obtain ⟨t, value⟩ := ready.den faithful mem
      rw [value, Changes.den faithful.toSound all mem value]
    have mem := wf.known_of_tape on
    refine ⟨same n mem (.of_computed faithful.toSound on (computed n on)), fun m input => ?_⟩
    refine same m (wf.known_inputs mem input) ?_
    cases n with
    | leaf => simp [Node.inputs] at input
    | apply s op inputs => exact faithful.ready_inputs on (computed _ on) m input
  · rintro n ⟨mem, keeps⟩
    have keeps := (steady.trans (.of_quiet quiet)).keepsGrad.mp keeps
    rw [grad?_of_quiet quiet]
    exact agree' n ⟨mem, keeps⟩

end Graph

end ReverseMode
