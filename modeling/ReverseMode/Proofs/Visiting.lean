import ReverseMode.Proofs.BackwardSweep
import ReverseMode.Proofs.Consumers
import ReverseMode.Proofs.Filling

/-!
Visits of a backward pass.

A visit makes values available up to the visited node and opens or changes gradients below it;
it loses nothing. What follows a visit drops values of inputs, and value and gradient of the
node itself, as far as they may be dropped.
-/

namespace ReverseMode

namespace Graph

variable {α : Type} {known : Node α → Prop} {g g' : Graph α}

/-! ### Gradients set -/

/-- The gradients of some ids may have been opened or changed; nothing else has. -/
structure Grades (R : Nat → Prop) (g g' : Graph α) : Prop where
  outline : g'.outline = g.outline
  recomputations : g'.recomputations = g.recomputations
  slots : ∀ id, g'.slot id = g.slot id ∨
    R id ∧ ∃ held, g'.slot id = { g.slot id with grad := some held }

namespace Grades

variable {R : Nat → Prop}

theorem refl (g : Graph α) : Grades R g g := ⟨rfl, rfl, fun _ => .inl rfl⟩

theorem trans {g₁ g₂ g₃ : Graph α} (first : Grades R g₁ g₂) (second : Grades R g₂ g₃) :
    Grades R g₁ g₃ := by
  constructor
  · exact second.outline.trans first.outline
  · exact second.recomputations.trans first.recomputations
  · intro id
    rcases second.slots id with same | ⟨inside, held, slot⟩
    · rw [same]
      exact first.slots id
    · right
      refine ⟨inside, held, ?_⟩
      rcases first.slots id with same | ⟨_, _, slot'⟩
      · rw [slot, same]
      · rw [slot, slot']

theorem value (grades : Grades R g g') (id : Nat) : (g'.slot id).value = (g.slot id).value := by
  rcases grades.slots id with same | ⟨_, _, slot⟩
  · rw [same]
  · rw [slot]

theorem computed (grades : Grades R g g') (id : Nat) :
    (g'.slot id).computed = (g.slot id).computed := by
  rcases grades.slots id with same | ⟨_, _, slot⟩
  · rw [same]
  · rw [slot]

theorem retained (grades : Grades R g g') (id : Nat) :
    (g'.slot id).retained = (g.slot id).retained := by
  rcases grades.slots id with same | ⟨_, _, slot⟩
  · rw [same]
  · rw [slot]

theorem other (grades : Grades R g g') {id : Nat} (outside : ¬ R id) : g'.slot id = g.slot id := by
  rcases grades.slots id with same | ⟨inside, _⟩
  · exact same
  · exact absurd inside outside

theorem opened (grades : Grades R g g') {id : Nat} (found : (g.slot id).grad.isSome) :
    (g'.slot id).grad.isSome := by
  rcases grades.slots id with same | ⟨_, _, slot⟩
  · rwa [same]
  · rw [slot]
    rfl

end Grades

theorem slot_modifySlot_or (g : Graph α) (id : Nat) (f : Slot α → Slot α) (j : Nat) :
    (g.modifySlot id f).slot j = g.slot j ∨
      j = id ∧ (g.modifySlot id f).slot j = f (g.slot j) := by
  by_cases bound : id < g.slots.size
  · rw [slot_modifySlot bound]
    by_cases same : j = id
    · right
      rw [same, Function.update_self]
      exact ⟨rfl, rfl⟩
    · left
      rw [Function.update_of_ne same]
  · left
    rw [slot, slot, modifySlot, Array.getD_eq_getD_getElem?, Array.getD_eq_getD_getElem?,
      Array.getElem?_modify]
    split
    next same => simp [← same, Array.getElem?_eq_none (Nat.le_of_not_lt bound)]
    · rfl

variable {R : Nat → Prop}

theorem setGrad_grades {id : Nat} (inside : R id) (t : Tensor α) (g : Graph α) :
    Grades R g (g.setGrad id t) := by
  constructor
  · exact outline_modifySlot g _ _
  · rfl
  · intro j
    rcases slot_modifySlot_or g id (fun s => { s with grad := s.grad.map fun held =>
      { held with array := t } }) j with same | ⟨rfl, slot⟩
    · exact .inl same
    · rw [setGrad, slot]
      cases grad : (g.slot j).grad with
      | none =>
        left
        rw [Option.map_none, ← grad]
      | some held => exact .inr ⟨inside, _, rfl⟩

theorem lift_grades {β : Type} (e : Except Fault β) : Leads (Grades R) (lift e : GraphM α β) :=
  leads_lift Grades.refl e

theorem writeLog_grades (log : LogSettings) (pieces : Report.Pieces) :
    Leads (Grades R) (writeLog log pieces : GraphM α Unit) := by
  unfold writeLog
  refine Leads.bind Grades.trans (Leads.of_modify fun _ => ⟨rfl, rfl, fun _ => .inl rfl⟩)
    fun _ => ?_
  split
  · exact Leads.of_throw Grades.refl _
  · exact Leads.of_pure Grades.refl _

theorem allocate_grades (s : Signature) : Leads (Grades R) (allocate s : GraphM α Nat) := by
  unfold allocate
  split
  · exact Leads.of_throw Grades.refl _
  · exact Leads.of_modifyGet fun _ => ⟨rfl, rfl, fun _ => .inl rfl⟩

/-- Values may have become available up to an id, and gradients changed below it; nothing has
been lost. -/
structure Serves (k : Nat) (g g' : Graph α) : Prop where
  outline : g'.outline = g.outline
  retained : ∀ id, (g'.slot id).retained = (g.slot id).retained
  value : ∀ {id held}, (g.slot id).value = some held → (g'.slot id).value = some held
  filled : ∀ {id}, k < id → (g'.slot id).value = (g.slot id).value
  grad : ∀ {id}, k ≤ id → (g'.slot id).grad = (g.slot id).grad
  opened : ∀ {id}, (g.slot id).grad.isSome → (g'.slot id).grad.isSome

namespace Serves

variable {k : Nat}

theorem refl (g : Graph α) : Serves k g g :=
  ⟨rfl, fun _ => rfl, id, fun _ => rfl, fun _ => rfl, id⟩

theorem trans {g₁ g₂ g₃ : Graph α} (first : Serves k g₁ g₂) (second : Serves k g₂ g₃) :
    Serves k g₁ g₃ :=
  ⟨second.outline.trans first.outline,
    fun id => (second.retained id).trans (first.retained id),
    fun held => second.value (first.value held),
    fun above => (second.filled above).trans (first.filled above),
    fun above => (second.grad above).trans (first.grad above),
    fun found => second.opened (first.opened found)⟩

theorem of_fills {Q : Node α → Prop} (fills : Fills Q g g') (below : ∀ n, Q n → n.id ≤ k) :
    Serves k g g' := by
  constructor
  · exact fills.outline
  · exact fills.retained
  · exact fills.value
  · intro id above
    rw [fills.other fun n inside => by have := below n inside; omega]
  · intro id _
    exact fills.grad id
  · intro id found
    rwa [fills.grad]

theorem of_grades (grades : Grades R g g') (below : ∀ id, R id → id < k) : Serves k g g' := by
  constructor
  · exact grades.outline
  · exact grades.retained
  · intro id held value
    rwa [grades.value]
  · intro id _
    exact grades.value id
  · intro id above
    rw [grades.other fun inside => by have := below id inside; omega]
  · exact grades.opened

theorem held (serves : Serves k g g') {id : Nat} (held : (g.slot id).value.isSome) :
    (g'.slot id).value.isSome := by
  obtain ⟨h, value⟩ := Option.isSome_iff_exists.mp held
  rw [serves.value value]
  rfl

end Serves

/-- What serves up to an id, if the graph is well-formed. -/
def Serving (known : Node α → Prop) (k : Nat) (g g' : Graph α) : Prop :=
  WellFormed known g → Serves k g g'

theorem Serving.refl {k : Nat} (g : Graph α) : Serving known k g g := fun _ => .refl g

theorem Serving.trans {k : Nat} {g₁ g₂ g₃ : Graph α} (first : Serving known k g₁ g₂)
    (second : Serving known k g₂ g₃) : Serving known k g₁ g₃ :=
  fun wf => (first wf).trans (second (wf.of_outline (first wf).outline))

variable [Element α]

theorem tellBackward_grades (op : Operator α) (grad : Tensor α) :
    Leads (Grades R) (tellBackward op grad) := by
  unfold tellBackward
  split
  · refine Leads.bind Grades.trans (Leads.of_get Grades.refl) fun g => ?_
    split
    · exact writeLog_grades _ _
    · exact Leads.of_modify fun _ => ⟨rfl, rfl, fun _ => .inl rfl⟩
  · exact Leads.of_pure Grades.refl _

theorem gradBuffer_grades {n : Node α} (inside : R n.id) : Leads (Grades R) (gradBuffer n) := by
  refine Leads.bind Grades.trans (Leads.of_get Grades.refl) fun g => ?_
  split
  · exact Leads.of_pure Grades.refl _
  · refine Leads.bind Grades.trans (allocate_grades _) fun storage => ?_
    refine Leads.bind Grades.trans (Leads.of_modify fun g => ?_) fun _ =>
      Leads.of_pure Grades.refl _
    constructor
    · exact outline_modifySlot g _ _
    · rfl
    · intro j
      rcases slot_modifySlot_or g n.id _ j with same | ⟨rfl, slot⟩
      · exact .inl same
      · exact .inr ⟨inside, _, slot⟩

theorem addToGrad_grades {n : Node α} (inside : R n.id) (c : Contribution α) :
    Leads (Grades R) (addToGrad n c) := by
  refine Leads.bind Grades.trans (gradBuffer_grades inside) fun t => ?_
  refine Leads.bind Grades.trans (lift_grades _) fun t' => ?_
  exact Leads.of_modify (setGrad_grades inside t')

theorem addContributions_grades {inputs : List (Node α)} (inside : ∀ i ∈ inputs, R i.id)
    (cs : Contributions α) : Leads (Grades R) (addContributions inputs cs) := by
  induction cs with
  | nil => exact Leads.of_pure Grades.refl _
  | cons entry rest ih =>
    obtain ⟨slot, made⟩ := entry
    rw [addContributions_cons]
    refine Leads.bind Grades.trans (lift_grades made) fun c => ?_
    refine Leads.bind Grades.trans ?_ fun _ => ih
    unfold addToSlot
    split
    next i found =>
      split
      · exact addToGrad_grades (inside i (List.mem_of_getElem? found)) c
      · exact Leads.of_pure Grades.refl _
    · exact Leads.of_pure Grades.refl _

theorem openGrads_grades {inputs : List (Node α)} (inside : ∀ i ∈ inputs, R i.id) :
    Leads (Grades R) (openGrads inputs) := by
  refine Leads.forM Grades.refl Grades.trans fun i input => ?_
  split
  · exact Leads.of_discard (gradBuffer_grades (inside i input))
  · exact Leads.of_pure Grades.refl _

theorem contribute_grades {n : Node α} {op : Operator α} {inputs : List (Node α)}
    (inside : ∀ i ∈ inputs, R i.id) (out : Tensor α) (values : List (Tensor α)) :
    Leads (Grades R) (contribute n op inputs out values) := by
  refine Leads.bind Grades.trans (Leads.of_get Grades.refl) fun g => ?_
  split
  · exact Leads.of_pure Grades.refl _
  · dsimp only
    split
    · exact Leads.bind Grades.trans (tellBackward_grades op _) fun _ =>
        addContributions_grades inside _
    · exact Leads.of_pure Grades.refl _

theorem seedGrad_grades {n : Node α} (inside : R n.id) (seed : Option Literal) :
    Leads (Grades R) (seedGrad n seed) := by
  refine Leads.bind Grades.trans (gradBuffer_grades inside) fun t => ?_
  refine Leads.bind Grades.trans (lift_grades _) fun e => ?_
  refine Leads.bind Grades.trans (lift_grades _) fun t' => ?_
  exact Leads.of_modify (setGrad_grades inside t')

/-! ### One visit -/

theorem ensure_serving {n : Node α} (mem : known n) {k : Nat} (le : n.id ≤ k) :
    Leads (Serving known k) (ensure n) :=
  fun _ wf => .of_fills (ensure_fills_known mem wf) fun _ inside => Nat.le_trans inside.2 le

theorem ensured_serving {n : Node α} (mem : known n) {k : Nat} (le : n.id ≤ k) :
    Leads (Serving known k) (ensured n) := by
  refine Leads.bind Serving.trans (ensure_serving mem le) fun _ => ?_
  refine Leads.bind Serving.trans (Leads.of_get Serving.refl) fun g => ?_
  split
  · exact Leads.of_pure Serving.refl _
  · exact Leads.of_throw Serving.refl _

/-- A node that has been made available holds its value. -/
theorem ensured_value {n : Node α} {t : Tensor α} (answered : ensured n g = .ok t g') :
    (g'.slot n.id).value.isSome := by
  rw [ensured, answer_bind] at answered
  obtain ⟨_, g₁, _, answered⟩ := answered
  rw [answer_bind] at answered
  obtain ⟨_, _, got, answered⟩ := answered
  obtain ⟨rfl, rfl⟩ := answer_get.mp got
  cases held : g₁.held? n.id with
  | none =>
    simp only [held] at answered
    exact absurd answered not_answer_throw
  | some t =>
    simp only [held] at answered
    obtain ⟨_, value, _⟩ := Option.map_eq_some_iff.mp held
    rw [← (answer_pure.mp answered).2, value]
    rfl

/-- What follows in a step once the value of the node is there. -/
theorem backwardRest_serving {n : Node α} (op : Operator α) {inputs : List (Node α)}
    (mem : ∀ i ∈ inputs, known i ∧ i.id < n.id) (out : Tensor α) :
    Leads (Serving known n.id) (do
      let values ← inputs.mapM ensured
      openGrads inputs
      contribute n op inputs out values) := by
  have grades : ∀ {β : Type} {x : GraphM α β}, Leads (Grades (· < n.id)) x →
      Leads (Serving known n.id) x := fun leads g _ => .of_grades (leads g) fun _ => id
  have inside : ∀ i ∈ inputs, i.id < n.id := fun i input => (mem i input).2
  refine Leads.bind Serving.trans (Leads.mapM Serving.refl Serving.trans fun i input => ?_)
    fun values => ?_
  · exact ensured_serving (mem i input).1 (Nat.le_of_lt (inside i input))
  · exact Leads.bind Serving.trans (grades (openGrads_grades inside)) fun _ =>
      grades (contribute_grades inside out values)

theorem visit_serves {n : Node α} (wf : WellFormed known g) (mem : known n) :
    Serves n.id g (after (visit n g)) := by
  cases n with
  | leaf s init => exact .refl g
  | apply s op inputs =>
    have below : ∀ i ∈ inputs, known i ∧ i.id < (Node.apply s op inputs).id :=
      fun i input => wf.inputs mem (m := i) input
    suffices h : Serving known s.id g (after (visit (.apply s op inputs) g)) from h wf
    refine Leads.bind_at Serving.trans (.refl g) fun _ _ got => ?_
    obtain ⟨rfl, rfl⟩ := answer_get.mp got
    split
    · rw [backwardStep_eq]
      refine Leads.bind Serving.trans (ensured_serving mem (Nat.le_refl _)) (fun out => ?_) g
      exact backwardRest_serving op below out
    · exact .refl g

/-- A node that a gradient has reached holds its value after its visit. -/
theorem visit_held {n : Node α} (wf : WellFormed known g) (mem : known n)
    (inner : n.isLeaf = false) (trainable : n.trainable = true)
    (reached : (g.slot n.id).grad.isSome) (answered : visit n g = .ok () g') :
    (g'.slot n.id).value.isSome := by
  cases n with
  | leaf s init => cases inner
  | apply s op inputs =>
    rw [visit, answer_bind] at answered
    obtain ⟨_, _, got, answered⟩ := answered
    obtain ⟨rfl, rfl⟩ := answer_get.mp got
    have grad : (g.grad? (Node.apply s op inputs).id).isSome := by
      rw [grad?, Option.isSome_map]
      exact reached
    rw [if_pos (by rw [trainable, grad]; rfl), backwardStep_eq, answer_bind] at answered
    obtain ⟨out, g₁, ready, rest⟩ := answered
    have below : ∀ i ∈ inputs, known i ∧ i.id < (Node.apply s op inputs).id :=
      fun i input => wf.inputs mem (m := i) input
    have ensures := ensured_serving mem (Nat.le_refl s.id) g wf
    rw [ready, after_ok] at ensures
    have serving := backwardRest_serving op below out g₁
    rw [rest, after_ok] at serving
    exact (serving (wf.of_outline ensures.outline)).held (ensured_value ready)

/-! ### What follows a visit -/

omit [Element α] in
theorem releasable_of_leaves {n : Node α} (free : g.leaves n = true) : g.releasable n = true := by
  simp only [leaves, Bool.and_eq_true] at free
  exact free.2

omit [Element α] in
theorem releasable_congr {n : Node α} (same : (g'.slot n.id).retained = (g.slot n.id).retained) :
    g'.releasable n = g.releasable n := by
  rw [releasable, releasable, same]

omit [Element α] in
/-- What follows a visit drops value and gradient of the node, if they may be dropped, and values
of inputs that have no gradient, no consumer left, and may be dropped. -/
theorem afterBackward_slot (wf : WellFormed known g) {n : Node α} (mem : known n) {p : Pending}
    (fits : p.counts.size = g.slots.size) (releases : g.settings.releaseMemory = true) :
    (afterBackward n p g).2.outline = g.outline ∧
    (afterBackward n p g).1.counts.size = p.counts.size ∧
    (∀ rest, p.Matches (n :: rest) → (afterBackward n p g).1.Matches rest) ∧
    ((afterBackward n p g).2.slot n.id = if g.releasable n
      then { g.slot n.id with value := none, grad := none } else g.slot n.id) ∧
    ∀ id, id ≠ n.id → (afterBackward n p g).2.slot id = g.slot id ∨
      ∃ i ∈ n.inputs, i.id = id ∧ (afterBackward n p g).1.count id = 0 ∧ g.leaves i = true ∧
        (afterBackward n p g).2.slot id = { g.slot id with value := none } := by
  have down := leaveInputs_countsDown wf mem fits
  rw [afterBackward_eq, if_pos releases]
  generalize n.distinctInputs.foldl leaveInput (g, p) = counted at down
  obtain ⟨g₁, p₁⟩ := counted
  -- the node is none of its inputs
  have self : g₁.slot n.id = g.slot n.id := by
    refine down.kept n.id fun i input same => absurd same (Nat.ne_of_lt ?_)
    exact (wf.inputs mem (mem_inputs_of_distinct input)).2
  have may : g₁.releasable n = g.releasable n := releasable_congr (by rw [self])
  have bound : n.id < g₁.slots.size := by
    rw [size_of_outline down.outline]
    exact wf.bound mem
  have left : (g₁.leave n).record.outline = g.outline ∧ (g₁.leave n).record.slot =
      if g.releasable n then
        Function.update g₁.slot n.id { g₁.slot n.id with value := none, grad := none }
      else g₁.slot := by
    rw [outline_record, slot_record, leave, may]
    split
    · exact ⟨(outline_release _ _).trans down.outline, slot_release bound⟩
    · exact ⟨down.outline, rfl⟩
  refine ⟨left.1, down.size, fun rest => down.matches, ?_, fun id other => ?_⟩
  · change (g₁.leave n).record.slot n.id = _
    rw [left.2]
    split
    · rw [Function.update_self, self]
    · exact self
  · change (g₁.leave n).record.slot id = _ ∨
      ∃ i, _ ∧ _ ∧ p₁.count id = 0 ∧ _ ∧ (g₁.leave n).record.slot id = _
    have same : (g₁.leave n).record.slot id = g₁.slot id := by
      rw [left.2]
      split
      · rw [Function.update_of_ne other]
      · rfl
    rw [same]
    rcases down.slot_or id with kept | ⟨i, input, dropped⟩
    · exact .inl kept
    · exact .inr ⟨i, mem_inputs_of_distinct input, dropped⟩

end Graph

end ReverseMode
