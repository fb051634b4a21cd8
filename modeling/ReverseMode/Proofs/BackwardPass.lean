import ReverseMode.Proofs.ForwardPass

/-!
Backward passes as elementary changes.

Seeding, the backward step of a node and what is dropped after it are elementary changes,
whether the pass ends or raises. Contributions keep the extents of the gradient they are
added to.
-/

namespace ReverseMode

variable {α : Type} [Element α]

/-- An array that is changed in place keeps its extents. -/
theorem Tensor.updateInPlace_shape {f : α → α → α} {target operand t : Tensor α}
    (updated : target.updateInPlace f operand = .ok t) : t.shape = target.shape := by
  unfold Tensor.updateInPlace at updated
  dsimp only at updated
  split at updated
  · cases updated
  · obtain ⟨result, _, updated⟩ := bind_eq_ok.mp updated
    split at updated
    next same => exact pure_eq_ok.mp updated ▸ same
    · cases updated

theorem Contribution.addTo_shape {c : Contribution α} {target t : Tensor α}
    (added : c.addTo target = .ok t) : t.shape = target.shape := by
  cases c with
  | dense gradient =>
    obtain ⟨_, _, same⟩ := bind_eq_ok.mp added
    rw [← pure_eq_ok.mp same]
    rfl
  | sparse addends =>
    cases added
    rfl
  | inPlace addend => exact Tensor.updateInPlace_shape added
  | window axis places addend =>
    obtain ⟨_, _, same⟩ := bind_eq_ok.mp added
    rw [← pure_eq_ok.mp same]
    rfl

namespace Graph

variable {known : Node α → Prop} {g g' : Graph α}

/-- Elementary changes, if the graph is sound. -/
def Through (known : Node α → Prop) (g g' : Graph α) : Prop := Sound known g → Changes known g g'

theorem Through.refl (g : Graph α) : Through known g g := fun _ => .refl

theorem Through.trans {g₁ g₂ g₃ : Graph α} (first : Through known g₁ g₂)
    (second : Through known g₂ g₃) : Through known g₁ g₃ :=
  fun sound => (first sound).trans (second ((first sound).sound sound))

theorem Through.of_quiet (quiet : Quiet g g') : Through known g g' := fun _ => .of_quiet quiet

theorem Under.through {k : Nat} (h : Under known k g g') : Through known g g' :=
  fun sound => (h sound).1

theorem ensured_through {n : Node α} (mem : known n) : Leads (Through known) (ensured n) := by
  refine Leads.bind Through.trans (Leads.mono (fun _ _ => Under.through) (ensure_under mem))
    fun _ => ?_
  refine Leads.bind Through.trans (Leads.of_get Through.refl) fun g => ?_
  split
  · exact Leads.of_pure Through.refl _
  · exact Leads.of_throw Through.refl _

/-! ### Gradients set -/

theorem zeros_shape (s : Signature) : (zeros s : Tensor α).shape = s.shape.extents := rfl

/-- The gradient that a node has or would get on first use. -/
def buffer (g : Graph α) (n : Node α) : Tensor α := (g.grad? n.id).getD (zeros n.signature)

theorem gradBuffer_answer {n : Node α} (bound : n.id < g.slots.size) {t : Tensor α}
    (answered : gradBuffer n g = .ok t g') :
    t = g.buffer n ∧ ((g.grad? n.id = some t ∧ g' = g) ∨
      g.grad? n.id = none ∧ Aside g g' ∧ ∃ held : Held α, held.array = t ∧
        New g g' held.storage ∧
        g'.slot = Function.update g.slot n.id { g.slot n.id with grad := some held }) := by
  rw [gradBuffer, answer_bind] at answered
  obtain ⟨_, _, got, answered⟩ := answered
  obtain ⟨rfl, rfl⟩ := answer_get.mp got
  cases grad : g.grad? n.id with
  | some held =>
    simp only [grad] at answered
    obtain ⟨rfl, rfl⟩ := answer_pure.mp answered
    exact ⟨by simp [buffer, grad], .inl ⟨rfl, rfl⟩⟩
  | none =>
    simp only [grad, answer_bind, answer_allocate, answer_modify, answer_pure] at answered
    obtain ⟨_, _, ⟨_, rfl, rfl⟩, _, _, rfl, rfl, rfl⟩ := answered
    refine ⟨by simp [buffer, grad], .inr ⟨rfl, ⟨by simp; rfl, rfl, ?_⟩,
      ⟨g.allocator.fresh, true, zeros n.signature⟩, rfl, ?_, ?_⟩⟩
    · exact Nat.le_succ _
    · exact ⟨Nat.le_refl _, Nat.lt_succ_self _⟩
    · exact slot_modifySlot (g := g.allocated n.signature) bound _

/-- Opening a gradient fails only where there is no storage for it. -/
theorem gradBuffer_raise {n : Node α} {f : Fault} (raised : gradBuffer n g = .error f g') :
    Quiet g g' := by
  rw [gradBuffer, raise_bind] at raised
  rcases raised with impossible | ⟨_, _, got, raised⟩
  · exact absurd impossible not_raise_get
  obtain ⟨rfl, rfl⟩ := answer_get.mp got
  cases grad : g.grad? n.id with
  | some held =>
    simp only [grad] at raised
    exact absurd raised not_raise_pure
  | none =>
    simp only [grad, raise_bind] at raised
    rcases raised with refused | ⟨_, _, _, impossible | ⟨_, _, _, impossible⟩⟩
    · rw [(raise_allocate.mp refused).2]
      exact .refl g
    · exact absurd impossible not_raise_modify
    · exact absurd impossible not_raise_pure

theorem gradBuffer_through {n : Node α} (mem : known n) (trainable : n.trainable = true) :
    Leads (Through known) (gradBuffer n) := by
  intro g sound
  cases run : gradBuffer n g with
  | ok t g' =>
    obtain ⟨rfl, ⟨_, rfl⟩ | ⟨absent, aside, held, array, new, slots⟩⟩ :=
      gradBuffer_answer (sound.bound mem) run
    · exact .refl
    · refine .single (.grad held mem (.inl trainable) ?_ (.inr new) aside slots)
      rw [array, buffer, absent]
      exact zeros_shape n.signature
  | error f g' => exact .of_quiet (gradBuffer_raise run)

theorem gradBuffer_grad {n : Node α} (bound : n.id < g.slots.size) {t : Tensor α}
    (answered : gradBuffer n g = .ok t g') : g'.grad? n.id = some t := by
  obtain ⟨_, ⟨found, rfl⟩ | ⟨_, _, held, array, _, slots⟩⟩ := gradBuffer_answer bound answered
  · exact found
  · simp [grad?, slots, array]

omit [Element α] in
theorem slot_setGrad {id : Nat} (bound : id < g.slots.size) {held : Held α}
    (found : (g.slot id).grad = some held) (t : Tensor α) :
    (g.setGrad id t).slot = Function.update g.slot id
      { g.slot id with grad := some { held with array := t } } := by
  rw [setGrad, slot_modifySlot bound, found]
  rfl

omit [Element α] in
@[simp] theorem outline_setGrad (g : Graph α) (id : Nat) (t : Tensor α) :
    (g.setGrad id t).outline = g.outline := by
  simp [setGrad]

theorem setGrad_through {n : Node α} (mem : known n) {t t' : Tensor α}
    (found : g.grad? n.id = some t) (shape : t'.shape = t.shape) :
    Through known g (g.setGrad n.id t') := by
  intro sound
  obtain ⟨held, grad, rfl⟩ := Option.map_eq_some_iff.mp found
  refine .single (.grad { held with array := t' } mem (.inr (by simp [found])) ?_
    (.inl ⟨held, grad, rfl⟩) ⟨by simp, rfl, Nat.le_refl _⟩ (slot_setGrad (sound.bound mem) grad t'))
  exact shape.trans (sound.gradShape mem found)

/-- A contribution added to the gradient of a trainable node. -/
def addToGrad (n : Node α) (c : Contribution α) : GraphM α Unit := do
  let grad ← gradBuffer n
  modify (setGrad n.id (← lift (c.addTo grad)))

theorem addToGrad_through {n : Node α} (mem : known n) (trainable : n.trainable = true)
    (c : Contribution α) : Leads (Through known) (addToGrad n c) := by
  intro g sound
  suffices h : Through known g (after (addToGrad n c g)) from h sound
  refine Leads.bind_at Through.trans (gradBuffer_through mem trainable g) fun t g₁ buffered => ?_
  refine Leads.bind_at Through.trans (.of_quiet (lift_leads _ _)) fun t' g₂ added => ?_
  obtain ⟨sum, rfl⟩ := answer_lift.mp added
  exact setGrad_through mem (gradBuffer_grad (sound.bound mem) buffered)
    (Contribution.addTo_shape sum)

/-- A contribution added to the gradient of the input in a slot, if that is trainable. -/
def addToSlot (inputs : List (Node α)) (slot : Nat) (c : Contribution α) : GraphM α Unit :=
  match inputs[slot]? with
  | some i => if i.trainable then addToGrad i c else pure ()
  | none => pure ()

theorem addContributions_cons (inputs : List (Node α)) (slot : Nat)
    (made : Except Fault (Contribution α)) (rest : Contributions α) :
    addContributions inputs ((slot, made) :: rest) = (do
      let c ← lift made
      addToSlot inputs slot c
      addContributions inputs rest) := by
  rw [addContributions]
  congr 1
  funext c
  unfold addToSlot
  cases inputs[slot]? with
  | none => rfl
  | some i =>
    dsimp only
    split
    · simp only [addToGrad, bind_assoc]
    · rfl

theorem addToSlot_through {inputs : List (Node α)} (mem : ∀ i ∈ inputs, known i) (slot : Nat)
    (c : Contribution α) : Leads (Through known) (addToSlot inputs slot c) := by
  unfold addToSlot
  split
  next i found =>
    split
    next trainable => exact addToGrad_through (mem i (List.mem_of_getElem? found)) trainable c
    · exact Leads.of_pure Through.refl _
  · exact Leads.of_pure Through.refl _

theorem addContributions_through {inputs : List (Node α)} (mem : ∀ i ∈ inputs, known i)
    (cs : Contributions α) : Leads (Through known) (addContributions inputs cs) := by
  induction cs with
  | nil => exact Leads.of_pure Through.refl _
  | cons entry rest ih =>
    obtain ⟨slot, made⟩ := entry
    rw [addContributions_cons]
    refine Leads.bind Through.trans (Leads.mono (fun _ _ => .of_quiet) (lift_leads made)) fun c => ?_
    exact Leads.bind Through.trans (addToSlot_through mem slot c) fun _ => ih

/-! ### Steps of a pass -/

/-- The gradients of the trainable inputs made ready. -/
def openGrads (inputs : List (Node α)) : GraphM α Unit :=
  inputs.forM fun i => if i.trainable then discard (gradBuffer i) else pure ()

theorem openGrads_through {inputs : List (Node α)} (mem : ∀ i ∈ inputs, known i) :
    Leads (Through known) (openGrads inputs) := by
  refine Leads.forM Through.refl Through.trans fun i input => ?_
  split
  next trainable =>
    exact Leads.of_discard (gradBuffer_through (mem i input) trainable)
  · exact Leads.of_pure Through.refl _

/-- What a debug node tells when a gradient passes it. -/
def tellBackward (op : Operator α) (grad : Tensor α) : GraphM α Unit :=
  match debugMessage? op with
  | some message => reportDebug message "backward" "BACKWARD" grad
  | none => pure ()

theorem tellBackward_leads (op : Operator α) (grad : Tensor α) :
    Leads Quiet (tellBackward op grad) := by
  unfold tellBackward
  split
  · exact reportDebug_leads _ _ _ _
  · exact Leads.of_pure Quiet.refl _

/-- The contributions of a node with a gradient. -/
def contribute (n : Node α) (op : Operator α) (inputs : List (Node α)) (out : Tensor α)
    (values : List (Tensor α)) : GraphM α Unit := do
  match (← get).grad? n.id with
  | none => pure ()
  | some grad =>
    let wanted := inputs.map Node.trainable
    if op.differentiable && wanted.any id then
      tellBackward op grad
      addContributions inputs (op.contributions values out grad wanted)
    else pure ()

theorem backwardStep_eq (n : Node α) (op : Operator α) (inputs : List (Node α)) :
    backwardStep n op inputs = (do
      let out ← ensured n
      let values ← inputs.mapM ensured
      openGrads inputs
      contribute n op inputs out values) := by
  unfold backwardStep openGrads contribute tellBackward
  refine bind_congr fun out => bind_congr fun values => bind_congr fun _ => bind_congr fun g => ?_
  cases g.grad? n.id with
  | none => rfl
  | some grad =>
    dsimp only
    split
    · cases debugMessage? op with
      | none => rfl
      | some message => rfl
    · rfl

theorem contribute_through {n : Node α} {op : Operator α} {inputs : List (Node α)}
    (mem : ∀ i ∈ inputs, known i) (out : Tensor α) (values : List (Tensor α)) :
    Leads (Through known) (contribute n op inputs out values) := by
  refine Leads.bind Through.trans (Leads.of_get Through.refl) fun g => ?_
  split
  · exact Leads.of_pure Through.refl _
  · dsimp only
    split
    · exact Leads.bind Through.trans (Leads.mono (fun _ _ => .of_quiet) (tellBackward_leads op _))
        fun _ => addContributions_through mem _
    · exact Leads.of_pure Through.refl _

theorem backwardStep_through {n : Node α} {op : Operator α} {inputs : List (Node α)}
    (memN : known n) (mem : ∀ i ∈ inputs, known i) :
    Leads (Through known) (backwardStep n op inputs) := by
  rw [backwardStep_eq]
  refine Leads.bind Through.trans (ensured_through memN) fun out => ?_
  refine Leads.bind Through.trans
    (Leads.mapM Through.refl Through.trans fun i input => ensured_through (mem i input))
    fun values => ?_
  exact Leads.bind Through.trans (openGrads_through mem) fun _ => contribute_through mem out values

theorem visit_through {n : Node α} (mem : known n) : Through known g (after (visit n g)) := by
  intro sound
  suffices h : Through known g (after (visit n g)) from h sound
  cases n with
  | leaf s init => exact Through.refl g
  | apply s op inputs =>
    rw [visit]
    refine Leads.bind_at Through.trans (Through.refl g) fun _ _ got => ?_
    obtain ⟨rfl, rfl⟩ := answer_get.mp got
    split
    · exact backwardStep_through mem (fun i input => sound.known_inputs mem input) g
    · exact Through.refl g

/-! ### What follows a step -/

theorem releaseValue_through {n : Node α} (mem : known n) (inner : n.isLeaf = false) :
    Through known g (g.releaseValue n.id) :=
  (releaseValue_under mem inner).through

theorem releaseGrad_through {n : Node α} (mem : known n) (inner : n.isLeaf = false) :
    Through known g (g.releaseGrad n.id) := fun sound =>
  .single (.dropGrad mem inner ⟨by simp, by simp, by simp⟩ (slot_releaseGrad (sound.bound mem)))

theorem release_through {n : Node α} (mem : known n) (inner : n.isLeaf = false) :
    Through known g (g.release n.id) :=
  Through.trans (releaseValue_through mem inner) (releaseGrad_through mem inner)

theorem leaveInput_through {i : Node α} (mem : known i) (p : Pending) :
    Through known g (leaveInput (g, p) i).1 := by
  unfold leaveInput
  dsimp only
  split
  next last =>
    simp only [Bool.and_eq_true] at last
    exact releaseValue_through mem (releasable_inner last.2)
  · exact Through.refl g

theorem leaveInputs_through {is : List (Node α)} (mem : ∀ i ∈ is, known i) (p : Pending) :
    Through known g (is.foldl leaveInput (g, p)).1 := by
  induction is generalizing g p with
  | nil => exact Through.refl g
  | cons i is ih =>
    refine Through.trans (leaveInput_through (mem i (by simp)) p) ?_
    exact ih (fun j mem' => mem j (by simp [mem'])) _

/-- A node left behind: its value and gradient are dropped if they may be. -/
def leave (n : Node α) (g : Graph α) : Graph α := if g.releasable n then g.release n.id else g

theorem leave_through {n : Node α} (mem : known n) : Through known g (g.leave n) := by
  unfold leave
  split
  next may => exact release_through mem (releasable_inner may)
  · exact Through.refl g

omit [Element α] in
theorem afterBackward_eq (n : Node α) (p : Pending) (g : Graph α) :
    afterBackward n p g =
      if g.settings.releaseMemory then
        ((n.distinctInputs.foldl leaveInput (g, p)).2,
          ((n.distinctInputs.foldl leaveInput (g, p)).1.leave n).record)
      else (p, g.record) := rfl

theorem afterBackward_through {n : Node α} (mem : known n) (p : Pending) :
    Through known g (afterBackward n p g).2 := by
  intro sound
  suffices h : Through known g (afterBackward n p g).2 from h sound
  rw [afterBackward_eq]
  split
  · refine Through.trans (leaveInputs_through (fun i input => ?_) p)
      (Through.trans (leave_through mem) (.of_quiet (record_quiet _)))
    exact sound.known_inputs mem (mem_inputs_of_distinct input)
  · exact .of_quiet (record_quiet g)

theorem backwardFrom_through {ns : List (Node α)} (mem : ∀ n ∈ ns, known n) (p : Pending) :
    Through known g (after (backwardFrom ns p g)) := by
  induction ns generalizing g p with
  | nil => exact Through.refl g
  | cons n rest ih =>
    rw [backwardFrom]
    refine Leads.bind_at Through.trans (visit_through (mem n (by simp))) fun _ g₁ _ => ?_
    refine Leads.bind_at Through.trans (afterBackward_through (mem n (by simp)) p) fun p' g₂ _ => ?_
    exact ih (fun m mem' => mem m (by simp [mem'])) p'

/-! ### Whole passes -/

theorem dropGrads_through (wf : WellFormed known g) : Through known g g.dropGrads := by
  have : ∀ ns : List (Node α), (∀ n ∈ ns, known n) → ∀ g : Graph α,
      Through known g (ns.foldl (fun g n => if n.isLeaf then g else g.releaseGrad n.id) g) := by
    intro ns
    induction ns with
    | nil => exact fun _ g => Through.refl g
    | cons n ns ih =>
      intro mem g
      have first : Through known g (if n.isLeaf then g else g.releaseGrad n.id) := by
        split
        · exact Through.refl g
        next inner => exact releaseGrad_through (mem n (by simp)) (by simpa using inner)
      exact Through.trans first (ih (fun m mem' => mem m (by simp [mem'])) _)
  exact this _ (fun n => wf.known_of_tape) g

/-- A root kept through the pass. -/
theorem retain_through {n : Node α} (mem : known n) :
    Through known g (g.modifySlot n.id fun s => { s with retained := true }) := fun sound =>
  .single (.flag _ true mem ⟨by simp, rfl, Nat.le_refl _⟩ (slot_modifySlot (sound.bound mem) _))

/-- A seed added to the gradient of a root. -/
def seedGrad (n : Node α) (seed : Option Literal) : GraphM α Unit := do
  let grad ← gradBuffer n
  let elements ← lift (seedElements n.signature seed)
  let seeded ← lift (grad.addInPlace elements)
  modify (setGrad n.id seeded)

theorem seedRoot_eq (n : Node α) (seed : Option Literal) :
    seedRoot (n, seed) = (do
      modify (modifySlot n.id fun s => { s with retained := true })
      ensure n
      if n.trainable then seedGrad n seed else pure ()) := by
  rw [seedRoot]
  rfl

theorem seedGrad_through {n : Node α} (mem : known n) (trainable : n.trainable = true)
    (seed : Option Literal) : Leads (Through known) (seedGrad n seed) := by
  intro g sound
  suffices h : Through known g (after (seedGrad n seed g)) from h sound
  refine Leads.bind_at Through.trans (gradBuffer_through mem trainable g) fun t g₁ buffered => ?_
  refine Leads.bind_at Through.trans (.of_quiet (lift_leads _ _)) fun e g₂ elements => ?_
  obtain ⟨_, rfl⟩ := answer_lift.mp elements
  refine Leads.bind_at Through.trans (.of_quiet (lift_leads _ _)) fun t' g₃ seeded => ?_
  obtain ⟨sum, rfl⟩ := answer_lift.mp seeded
  have shape : t'.shape = t.shape := Contribution.addTo_shape (c := .inPlace e) sum
  exact setGrad_through mem (gradBuffer_grad (sound.bound mem) buffered) shape

theorem seedRoot_through {n : Node α} (mem : known n) (seed : Option Literal) :
    Leads (Through known) (seedRoot (n, seed)) := by
  rw [seedRoot_eq]
  refine Leads.bind Through.trans (Leads.of_modify fun g => retain_through mem) fun _ => ?_
  refine Leads.bind Through.trans (Leads.mono (fun _ _ => Under.through) (ensure_under mem))
    fun _ => ?_
  split
  next trainable => exact seedGrad_through mem trainable seed
  · exact Leads.of_pure Through.refl _

theorem logBackward_leads (ns : List (Node α)) : Leads Quiet (logBackward ns : GraphM α Unit) := by
  refine Leads.bind Quiet.trans (Leads.of_get Quiet.refl) fun g => ?_
  split
  · exact Leads.bind Quiet.trans (writeLog_leads _ _) fun _ => writeLog_leads _ _
  · exact Leads.of_pure Quiet.refl _

end Graph

end ReverseMode
