import ReverseMode.Proofs.Change
import ReverseMode.Proofs.WellFormed

/-!
Sound graphs.

Beside being well-formed, a graph keeps its flags and gradients in order: what holds a value
has been computed, what has been computed has computed inputs, a leaf of the tape that has
been computed holds its value, and gradients have the extents of their nodes and belong to
trainable ones. Every elementary change keeps a graph sound.
-/

namespace ReverseMode

namespace Graph

variable {α : Type}

/-- Flags and gradients in order. -/
structure Sound (known : Node α → Prop) (g : Graph α) : Prop extends WellFormed known g where
  heldComputed : ∀ {n}, known n → (g.slot n.id).value.isSome → (g.slot n.id).computed = true
  computedInputs : ∀ {n}, n ∈ g.tape.toList → (g.slot n.id).computed = true →
    ∀ {m}, m ∈ n.inputs → (g.slot m.id).computed = true
  leafHeld : ∀ {n}, n ∈ g.tape.toList → n.isLeaf = true → (g.slot n.id).computed = true →
    (g.slot n.id).value.isSome
  gradShape : ∀ {n}, known n → ∀ {t}, g.grad? n.id = some t → t.shape = n.shape.extents
  gradTrainable : ∀ {n}, known n → (g.grad? n.id).isSome → n.trainable = true

variable {known : Node α → Prop} {g g' : Graph α}

/-- Soundness reads the outline and the slots. -/
theorem Sound.of_slots (sound : Sound known g) (outline : g'.outline = g.outline)
    (slots : g'.slot = g.slot) : Sound known g' where
  toWellFormed := sound.toWellFormed.of_outline outline
  heldComputed mem := by
    rw [slots]
    exact sound.heldComputed mem
  computedInputs mem := by
    rw [tape_of_outline outline] at mem
    rw [slots]
    exact sound.computedInputs mem
  leafHeld mem := by
    rw [tape_of_outline outline] at mem
    rw [slots]
    exact sound.leafHeld mem
  gradShape mem := by
    unfold grad?
    rw [slots]
    exact sound.gradShape mem
  gradTrainable mem := by
    unfold grad?
    rw [slots]
    exact sound.gradTrainable mem

/-- One slot changed: soundness has to be shown for this slot only. -/
theorem Sound.of_update {n : Node α} {s : Slot α} (sound : Sound known g) (mem : known n)
    (outline : g'.outline = g.outline) (slots : g'.slot = Function.update g.slot n.id s)
    (computed : (g.slot n.id).computed = true → s.computed = true)
    (held : s.value.isSome → s.computed = true)
    (inputs : s.computed = true → ∀ m ∈ n.inputs, (g.slot m.id).computed = true ∨
      n ∉ g.tape.toList)
    (leaf : n.isLeaf = true → s.computed = true → s.value.isSome ∨ n ∉ g.tape.toList)
    (shape : ∀ h, s.grad = some h → h.array.shape = n.shape.extents)
    (trainable : s.grad.isSome → n.trainable = true) : Sound known g' where
  toWellFormed := sound.toWellFormed.of_outline outline
  heldComputed {m} mem' := by
    rw [slots]
    by_cases same : m.id = n.id
    · rw [same, Function.update_self]
      exact held
    · rw [Function.update_of_ne same]
      exact sound.heldComputed mem'
  computedInputs {c} on := by
    rw [tape_of_outline outline] at on
    have grows : ∀ j, (g.slot j).computed = true →
        (Function.update g.slot n.id s j).computed = true := by
      intro j before
      by_cases same : j = n.id
      · rw [same, Function.update_self]
        exact computed (same ▸ before)
      · rwa [Function.update_of_ne same]
    rw [slots]
    intro done m input
    refine grows _ ?_
    by_cases same : c.id = n.id
    · rw [same, Function.update_self] at done
      obtain rfl := sound.unique (sound.known_of_tape on) mem same
      rcases inputs done m input with h | off
      · exact h
      · exact absurd on off
    · rw [Function.update_of_ne same] at done
      exact sound.computedInputs on done input
  leafHeld {c} on isLeaf := by
    rw [tape_of_outline outline] at on
    rw [slots]
    by_cases same : c.id = n.id
    · obtain rfl := sound.unique (sound.known_of_tape on) mem same
      rw [Function.update_self]
      intro done
      rcases leaf isLeaf done with h | off
      · exact h
      · exact absurd on off
    · rw [Function.update_of_ne same]
      exact sound.leafHeld on isLeaf
  gradShape {c} mem' t := by
    unfold grad?
    rw [slots]
    by_cases same : c.id = n.id
    · obtain rfl := sound.unique mem' mem same
      rw [Function.update_self]
      intro found
      obtain ⟨h, inside, rfl⟩ := Option.map_eq_some_iff.mp found
      exact shape h inside
    · rw [Function.update_of_ne same]
      exact sound.gradShape mem'
  gradTrainable {c} mem' := by
    unfold grad?
    rw [slots]
    by_cases same : c.id = n.id
    · obtain rfl := sound.unique mem' mem same
      rw [Function.update_self, Option.isSome_map]
      exact trainable
    · rw [Function.update_of_ne same]
      exact sound.gradTrainable mem'

theorem Sound.shape_of_grad (sound : Sound known g) {n : Node α} (mem : known n) :
    ∀ h, (g.slot n.id).grad = some h → h.array.shape = n.shape.extents := by
  intro h found
  exact sound.gradShape mem (by simp [grad?, found])

theorem Sound.trainable_of_grad (sound : Sound known g) {n : Node α} (mem : known n)
    (found : (g.slot n.id).grad.isSome) : n.trainable = true :=
  sound.gradTrainable mem (by simpa [grad?] using found)

variable [Element α]

theorem Change.sound (sound : Sound known g) (change : Change known g g') : Sound known g' := by
  cases change with
  | quiet quiet => exact sound.of_slots quiet.outline quiet.slots
  | draw held mem absent supplied outline new slots =>
    refine sound.of_update mem outline slots (fun _ => rfl) (fun _ => rfl) ?_ (fun _ _ => .inl rfl)
      (sound.shape_of_grad mem) (sound.trainable_of_grad mem)
    intro _ m input
    simp [Node.inputs] at input
  | compute held mem reads made aside slots =>
    refine sound.of_update mem aside.outline slots (fun _ => rfl) (fun _ => rfl) ?_ ?_
      (sound.shape_of_grad mem) (sound.trainable_of_grad mem)
    · intro _ m input
      obtain ⟨t, found⟩ := reads.mem input
      obtain ⟨h, value, _⟩ := Option.map_eq_some_iff.mp found
      exact .inl (sound.heldComputed (sound.known_inputs mem input) (by simp [value]))
    · intro isLeaf
      simp [Node.isLeaf] at isLeaf
  | @drop n mem inner aside slots =>
    refine sound.of_update mem aside.outline slots (fun h => h) (fun h => by cases h) ?_ ?_
      (sound.shape_of_grad mem) (sound.trainable_of_grad mem)
    · intro done m input
      by_cases on : n ∈ g.tape.toList
      · exact .inl (sound.computedInputs on done input)
      · exact .inr on
    · intro isLeaf
      simp [inner] at isLeaf
  | @grad n held mem wanted shaped storage aside slots =>
    refine sound.of_update mem aside.outline slots (fun h => h) (sound.heldComputed mem) ?_ ?_ ?_ ?_
    · intro done m input
      by_cases on : n ∈ g.tape.toList
      · exact .inl (sound.computedInputs on done input)
      · exact .inr on
    · intro isLeaf done
      by_cases on : n ∈ g.tape.toList
      · exact .inl (sound.leafHeld on isLeaf done)
      · exact .inr on
    · rintro h ⟨⟩
      exact shaped
    · intro _
      rcases wanted with trainable | found
      · exact trainable
      · exact sound.gradTrainable mem found
  | @dropGrad n mem inner aside slots =>
    refine sound.of_update mem aside.outline slots (fun h => h) (sound.heldComputed mem) ?_ ?_ ?_ ?_
    · intro done m input
      by_cases on : n ∈ g.tape.toList
      · exact .inl (sound.computedInputs on done input)
      · exact .inr on
    · intro isLeaf
      simp [inner] at isLeaf
    · rintro h ⟨⟩
    · rintro ⟨⟩
  | @flag n checkpoint retained mem aside slots =>
    refine sound.of_update mem aside.outline slots (fun h => h) (sound.heldComputed mem) ?_ ?_
      (sound.shape_of_grad mem) (sound.trainable_of_grad mem)
    · intro done m input
      by_cases on : n ∈ g.tape.toList
      · exact .inl (sound.computedInputs on done input)
      · exact .inr on
    · intro isLeaf done
      by_cases on : n ∈ g.tape.toList
      · exact .inl (sound.leafHeld on isLeaf done)
      · exact .inr on

theorem Changes.sound (sound : Sound known g) (changes : Changes known g g') : Sound known g' := by
  induction changes with
  | refl => exact sound
  | tail _ change ih => exact change.sound ih

/-! ### What changes leave alone -/

theorem Change.computed (change : Change known g g') {id : Nat}
    (done : (g.slot id).computed = true) : (g'.slot id).computed = true := by
  have of_update : ∀ {k : Nat} {s : Slot α}, g'.slot = Function.update g.slot k s →
      ((g.slot k).computed = true → s.computed = true) → (g'.slot id).computed = true := by
    intro k s slots kept
    rw [slots]
    by_cases same : id = k
    · subst same
      rw [Function.update_self]
      exact kept done
    · rwa [Function.update_of_ne same]
  cases change with
  | quiet quiet => rwa [quiet.slots]
  | draw held mem absent supplied outline new slots => exact of_update slots fun _ => rfl
  | compute held mem reads made aside slots => exact of_update slots fun _ => rfl
  | drop mem inner aside slots => exact of_update slots fun h => h
  | grad held mem wanted shaped storage aside slots => exact of_update slots fun h => h
  | dropGrad mem inner aside slots => exact of_update slots fun h => h
  | flag checkpoint retained mem aside slots => exact of_update slots fun h => h

theorem Changes.computed (changes : Changes known g g') {id : Nat}
    (done : (g.slot id).computed = true) : (g'.slot id).computed = true := by
  induction changes with
  | refl => exact done
  | tail _ change ih => exact change.computed ih

/-- The value of a leaf stays. -/
theorem Change.leaf_value (sound : Sound known g) (change : Change known g g') {n : Node α}
    (mem : known n) (isLeaf : n.isLeaf = true) {held : Held α}
    (value : (g.slot n.id).value = some held) : (g'.slot n.id).value = some held := by
  have of_update : ∀ {m : Node α} {s : Slot α}, known m →
      g'.slot = Function.update g.slot m.id s → (m = n → s.value = some held) →
      (g'.slot n.id).value = some held := by
    intro m s mem' slots kept
    rw [slots]
    by_cases same : n.id = m.id
    · rw [same, Function.update_self]
      exact kept (sound.unique mem' mem same.symm)
    · rwa [Function.update_of_ne same]
  cases change with
  | quiet quiet => rwa [quiet.slots]
  | draw _ mem' absent _ _ _ slots =>
    refine of_update mem' slots fun same => ?_
    subst same
    cases absent.symm.trans value
  | compute _ mem' _ _ _ slots =>
    refine of_update mem' slots fun same => ?_
    subst same
    simp [Node.isLeaf] at isLeaf
  | drop mem' inner aside slots =>
    refine of_update mem' slots fun same => ?_
    subst same
    simp [inner] at isLeaf
  | grad _ mem' _ _ _ _ slots => exact of_update mem' slots fun same => same ▸ value
  | dropGrad mem' _ _ slots => exact of_update mem' slots fun same => same ▸ value
  | flag _ _ mem' _ slots => exact of_update mem' slots fun same => same ▸ value

end Graph

end ReverseMode
