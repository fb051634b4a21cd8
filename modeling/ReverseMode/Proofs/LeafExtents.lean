import ReverseMode.Proofs.Invariant

/-!
Extents of leaves.

An initializer fills the extents of its leaf, and elements that are written later are put into the
extents of what they replace. So whatever a leaf of a reachable graph holds has the extents of the
leaf. A graph keeps its serial number.
-/

namespace ReverseMode

variable {α : Type} [Element α]

theorem Tensor.assign_shape {type : StorageType} {shape : List Nat} {t u : Tensor α}
    (assigned : t.assign type shape = .ok u) : u.shape = shape := by
  obtain ⟨sound, _, assigned⟩ := bind_eq_ok.mp assigned
  obtain ⟨filled, spread, assigned⟩ := bind_eq_ok.mp assigned
  rw [← pure_eq_ok.mp assigned]
  change filled.shape = shape
  unfold Tensor.spread at spread
  dsimp only at spread
  split at spread
  next same =>
    cases spread
    exact same
  · unfold Tensor.broadcastTo at spread
    split at spread
    · cases spread
      rfl
    · cases spread

/-- What an initializer supplies has the extents of the leaf. -/
theorem Initializer.supply_shape {init : Initializer α} {s : Stamp} {random random' : Random}
    {t : Tensor α} (supplied : init.supply s random = .ok (t, random')) :
    t.shape = s.shape.extents := by
  obtain ⟨made, _, supplied⟩ := bind_eq_ok.mp supplied
  obtain ⟨stored, assigned, supplied⟩ := bind_eq_ok.mp supplied
  obtain ⟨rfl, _⟩ := Prod.mk.inj (pure_eq_ok.mp supplied)
  exact Tensor.assign_shape assigned

namespace Graph

variable {known : Node α → Prop} {g g' : Graph α}

omit [Element α] in
/-- The values of leaves have the extents of their nodes. -/
def LeavesFit (known : Node α → Prop) (g : Graph α) : Prop :=
  ∀ n, known n → n.isLeaf = true → ∀ held, (g.slot n.id).value = some held →
    held.array.shape = n.shape.extents

namespace LeavesFit

omit [Element α]

/-- No leaf holds extents that it did not hold before. -/
theorem of_slots (fit : LeavesFit known g)
    (value : ∀ n, known n → n.isLeaf = true → ∀ h', (g'.slot n.id).value = some h' →
      ∃ h, (g.slot n.id).value = some h ∧ h.array.shape = h'.array.shape) :
    LeavesFit known g' := by
  intro n mem leaf h' held
  obtain ⟨h, before, same⟩ := value n mem leaf h' held
  exact same ▸ fit n mem leaf h before

/-- One slot changes; a value of a leaf that it then has fits. -/
theorem of_update {id : Nat} {s : Slot α} (fit : LeavesFit known g)
    (slots : g'.slot = Function.update g.slot id s)
    (here : ∀ n, known n → n.isLeaf = true → n.id = id → ∀ h, s.value = some h →
      h.array.shape = n.shape.extents) : LeavesFit known g' := by
  intro n mem leaf h held
  rw [slots] at held
  by_cases same : n.id = id
  · rw [same, Function.update_self] at held
    exact here n mem leaf same h held
  · rw [Function.update_of_ne same] at held
    exact fit n mem leaf h held

/-- A new node holds nothing yet. -/
theorem new (fit : LeavesFit known g) {n : Node α} (admits : Admits known g n)
    (slots : g'.slot = g.slot) : LeavesFit (With known n) g' := by
  intro m mem leaf h held
  rw [slots] at held
  rcases mem with rfl | mem
  · rw [admits.id, slot_size] at held
    cases held
  · exact fit m mem leaf h held

theorem reset (fit : LeavesFit known g) (wf : WellFormed known g) (keepParameters : Bool) :
    LeavesFit known (g.reset keepParameters) := by
  refine fit.of_slots fun n _ _ h held => ?_
  rw [slot_reset wf] at held
  split at held
  · cases held
  · exact ⟨h, held, rfl⟩

theorem forgotten (fit : LeavesFit known g) (wf : WellFormed known g) :
    LeavesFit known g.forgotten := by
  refine fit.of_slots fun n _ _ h held => ?_
  change ((g.forgetAll g.tape.toList).slot n.id).value = some h at held
  rw [slot_forgetAll fun m on => wf.bound (wf.known_of_tape on)] at held
  split at held
  · cases held
  · exact ⟨h, held, rfl⟩

theorem invalidate (fit : LeavesFit known g) (wf : WellFormed known g) {n : Option (Input α)}
    (known' : ∀ m, n = some (.node m) → m.graph = g.serial → known m)
    (answered : invalidate n g = .ok () g') : LeavesFit known g' := by
  rw [invalidate_eq, answer_bind] at answered
  obtain ⟨_, g₁, first, answered⟩ := answered
  rw [← answer_modify.mp answered]
  rcases forgetLeaf_answer first with rfl | ⟨m, given, used, rfl⟩
  · exact fit.forgotten wf
  · have bound := wf.bound (known' m given (serial_of_checkNode used))
    refine forgotten ?_ (wf.of_outline (outline_forget g m.id))
    refine fit.of_update (slot_forget bound) fun _ _ _ _ h held => ?_
    cases held

theorem write (fit : LeavesFit known g) (storage : Nat) (elements : Tensor α) :
    LeavesFit known (g.write storage elements) := by
  refine fit.of_slots fun n _ _ h held => ?_
  obtain ⟨update, same, slot⟩ := slot_write (g := g) storage elements n.id
  rw [slot] at held
  obtain ⟨before, found, rfl⟩ := Option.map_eq_some_iff.mp held
  exact ⟨before, found, (same before).2.symm⟩

end LeavesFit

theorem Change.leavesFit (change : Change known g g') (wf : WellFormed known g)
    (fit : LeavesFit known g) : LeavesFit known g' := by
  have steady : ∀ {id : Nat} {s : Slot α}, g'.slot = Function.update g.slot id s →
      s.value = (g.slot id).value → LeavesFit known g' := by
    intro id s slots value
    refine fit.of_update slots fun n mem leaf same h held => fit n mem leaf h ?_
    rwa [same, ← value]
  cases change with
  | quiet quiet => exact fit.of_slots fun n _ _ h held => ⟨h, quiet.slots ▸ held, rfl⟩
  | draw held mem _ supplied _ _ slots =>
    refine fit.of_update slots fun n mem' _ same h found => ?_
    cases wf.unique mem' mem same
    cases found
    exact Initializer.supply_shape supplied
  | compute _ mem _ _ _ slots =>
    refine fit.of_update slots fun n mem' leaf same _ _ => ?_
    cases wf.unique mem' mem same
    cases leaf
  | drop _ _ _ slots => exact fit.of_update slots fun _ _ _ _ _ found => by cases found
  | grad _ _ _ _ _ _ slots => exact steady slots rfl
  | dropGrad _ _ _ slots => exact steady slots rfl
  | flag _ _ _ _ slots => exact steady slots rfl

theorem Changes.leavesFit (changes : Changes known g g') (wf : WellFormed known g)
    (fit : LeavesFit known g) : LeavesFit known g' := by
  induction changes with
  | refl => exact fit
  | tail before change ih => exact change.leavesFit (wf.of_outline (Changes.outline before)) ih

end Graph

namespace World

open ReverseMode.Graph

variable {w w' : World α} {g : Graph α} {renews : Bool}

theorem call_leavesFit (sound : Sound w.known w.graph) (fit : LeavesFit w.known w.graph)
    {r : Request α} (admissible : w.Admissible r) (old : r.builds = false)
    (lasting : r.renews = false) : LeavesFit w.known (after (r.call w.graph)) := by
  obtain ⟨g, changes, ended⟩ := call_changes sound admissible old lasting
  have kept := changes.leavesFit sound.toWellFormed fit
  rcases ended with same | quiet
  · rwa [same]
  · have marked : LeavesFit w.known g.marked := kept
    exact marked.of_slots fun n _ _ h held => ⟨h, quiet.slots ▸ held, rfl⟩

theorem call_serial (sound : Sound w.known w.graph) {r : Request α} (admissible : w.Admissible r)
    (old : r.builds = false) (lasting : r.renews = false) :
    (after (r.call w.graph)).serial = w.graph.serial := by
  obtain ⟨g, changes, ended⟩ := call_changes sound admissible old lasting
  have kept := serial_of_outline changes.outline
  rcases ended with same | quiet
  · rwa [same]
  · exact (serial_of_outline quiet.outline).trans kept

theorem Step.leavesFit (step : Step renews w w') (sound : Sound w.known w.graph)
    (fit : LeavesFit w.known w.graph) : LeavesFit w'.known w'.graph := by
  have wf := sound.toWellFormed
  cases step with
  | @answer _ r a g admissible answered =>
    change LeavesFit (knownAfter w.known a) g
    cases r with
    | add | constant | parameter =>
      cases built_of_answer wf admissible answered rfl with
      | same mem => rwa [knownAfter_of_known mem]
      | recorded admits =>
        rw [knownAfter_node]
        exact fit.new admits (slot_widened w.graph)
      | registered admits =>
        rw [knownAfter_node]
        exact fit.new admits (slot_widened w.graph)
    | reset keepParameters =>
      rw [call_known admissible answered rfl]
      cases answered
      exact fit.reset wf keepParameters
    | invalidate n =>
      rw [call_known admissible answered rfl]
      obtain ⟨_, ran, rfl⟩ := answer_return.mp answered
      refine fit.invalidate wf (fun m given home => ?_) ran
      exact admissible m (by simp [given, Request.nodes, Input.nodes]) home
    | retain | checkpoint | forward | backward | value | gradOf | zeroGrad | zeroGrads =>
      rw [call_known admissible answered rfl]
      have kept := call_leavesFit sound fit admissible rfl rfl
      rwa [answered, after_ok] at kept
  | @raise _ r f g admissible raised =>
    cases r with
    | add | constant | parameter =>
      rcases build_raise_cases raised rfl with rfl | rfl
      · exact fit
      · refine fit.of_slots fun n _ _ h held => ⟨h, ?_, rfl⟩
        rwa [slot_widened] at held
    | reset keepParameters => cases raised
    | invalidate n =>
      rw [invalidate_raise (raise_return.mp raised)]
      exact fit
    | retain | checkpoint | forward | backward | value | gradOf | zeroGrad | zeroGrads =>
      have kept := call_leavesFit sound fit admissible rfl rfl
      rwa [raised, after_error] at kept
  | write storage elements => exact fit.write storage elements
  | quiet quiet => exact fit.of_slots fun n _ _ h held => ⟨h, quiet.slots ▸ held, rfl⟩

theorem Step.serial (step : Step renews w w') (sound : Sound w.known w.graph) :
    w'.graph.serial = w.graph.serial := by
  cases step with
  | @answer _ r a g admissible answered =>
    change g.serial = w.graph.serial
    cases r with
    | add | constant | parameter =>
      cases built_of_answer sound.toWellFormed admissible answered rfl with
      | same => rfl
      | recorded => rfl
      | registered => rfl
    | reset keepParameters =>
      cases answered
      exact congrArg Outline.serial (outline_reset keepParameters w.graph)
    | invalidate n =>
      obtain ⟨_, ran, _⟩ := answer_return.mp answered
      rw [invalidate_eq, answer_bind] at ran
      obtain ⟨_, g₁, first, ran⟩ := ran
      rw [← answer_modify.mp ran]
      have kept : g₁.serial = w.graph.serial := by
        rcases forgetLeaf_answer first with rfl | ⟨m, _, _, rfl⟩
        · rfl
        · exact serial_of_outline (outline_forget w.graph m.id)
      exact (serial_of_outline (outline_forgetAll _ g₁)).trans kept
    | retain | checkpoint | forward | backward | value | gradOf | zeroGrad | zeroGrads =>
      have kept := call_serial sound admissible rfl rfl
      rwa [answered, after_ok] at kept
  | @raise _ r f g admissible raised =>
    cases r with
    | add | constant | parameter =>
      rcases build_raise_cases raised rfl with rfl | rfl
      · rfl
      · rfl
    | reset keepParameters => cases raised
    | invalidate n => rw [invalidate_raise (raise_return.mp raised)]
    | retain | checkpoint | forward | backward | value | gradOf | zeroGrad | zeroGrads =>
      have kept := call_serial sound admissible rfl rfl
      rwa [raised, after_error] at kept
  | write storage elements => exact serial_of_outline (outline_write storage elements w.graph)
  | quiet quiet => exact serial_of_outline quiet.outline

/-- Whatever a leaf of a reachable graph holds has the extents of the leaf. -/
theorem Reachable.leavesFit (reachable : Reachable w) : LeavesFit w.known w.graph := by
  induction reachable with
  | start serial settings => exact fun _ => False.elim
  | step reachable step ih => exact step.leavesFit reachable.invariant.sound ih

end World

end ReverseMode
