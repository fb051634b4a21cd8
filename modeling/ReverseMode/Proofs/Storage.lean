import ReverseMode.Proofs.Sound

/-!
Storages of leaves and gradients.

Values that are computed may be views of one storage, but a leaf and a gradient have storages of
their own. So an element written to the storage of a leaf changes no other leaf and no gradient.
Every elementary change keeps these storages apart.
-/

namespace ReverseMode

namespace Graph

variable {α : Type}

/-- Leaves have storages of their own, and no gradient has the storage of a leaf. -/
structure Stored (known : Node α → Prop) (g : Graph α) : Prop where
  valueUsed : ∀ {n}, known n → n.isLeaf = true → ∀ {h}, (g.slot n.id).value = some h →
    h.storage < g.allocator.fresh
  gradUsed : ∀ {n}, known n → ∀ {h}, (g.slot n.id).grad = some h → h.storage < g.allocator.fresh
  values : ∀ {m n}, known m → m.isLeaf = true → known n → n.isLeaf = true → ∀ {h h'},
    (g.slot m.id).value = some h → (g.slot n.id).value = some h' → h.storage = h'.storage → m = n
  apart : ∀ {m n}, known m → m.isLeaf = true → known n → ∀ {h h'},
    (g.slot m.id).value = some h → (g.slot n.id).grad = some h' → h.storage ≠ h'.storage

variable {known : Node α → Prop} {g g' : Graph α}

/-- Nothing is stored where nothing was stored before. -/
theorem Stored.of_slots (stored : Stored known g) (fresh : g.allocator.fresh ≤ g'.allocator.fresh)
    (value : ∀ n, known n → n.isLeaf = true → ∀ h', (g'.slot n.id).value = some h' →
      ∃ h, (g.slot n.id).value = some h ∧ h.storage = h'.storage)
    (grad : ∀ n, known n → ∀ h', (g'.slot n.id).grad = some h' →
      ∃ h, (g.slot n.id).grad = some h ∧ h.storage = h'.storage) : Stored known g' where
  valueUsed := by
    intro n mem leaf h' held
    obtain ⟨h, before, same⟩ := value n mem leaf h' held
    exact same ▸ Nat.lt_of_lt_of_le (stored.valueUsed mem leaf before) fresh
  gradUsed := by
    intro n mem h' held
    obtain ⟨h, before, same⟩ := grad n mem h' held
    exact same ▸ Nat.lt_of_lt_of_le (stored.gradUsed mem before) fresh
  values := by
    intro m n mem leaf mem' leaf' h₁ h₂ held held' same
    obtain ⟨h, before, first⟩ := value m mem leaf h₁ held
    obtain ⟨h', before', second⟩ := value n mem' leaf' h₂ held'
    exact stored.values mem leaf mem' leaf' before before' (first.trans (same.trans second.symm))
  apart := by
    intro m n mem leaf mem' h₁ h₂ held held' same
    obtain ⟨h, before, first⟩ := value m mem leaf h₁ held
    obtain ⟨h', before', second⟩ := grad n mem' h₂ held'
    exact stored.apart mem leaf mem' before before' (first.trans (same.trans second.symm))

/-- One slot changes, without a storage that it did not have. -/
theorem Stored.of_update {id : Nat} {s : Slot α} (stored : Stored known g)
    (fresh : g.allocator.fresh ≤ g'.allocator.fresh) (slots : g'.slot = Function.update g.slot id s)
    (value : ∀ n, known n → n.isLeaf = true → n.id = id → ∀ h', s.value = some h' →
      (g.slot id).value = some h')
    (grad : ∀ h', s.grad = some h' → ∃ h, (g.slot id).grad = some h ∧ h.storage = h'.storage) :
    Stored known g' := by
  refine stored.of_slots fresh (fun n mem leaf h' held => ?_) fun n mem h' held => ?_
  · rw [slots] at held
    by_cases same : n.id = id
    · rw [same, Function.update_self] at held
      exact ⟨h', same ▸ value n mem leaf same h' held, rfl⟩
    · rw [Function.update_of_ne same] at held
      exact ⟨h', held, rfl⟩
  · rw [slots] at held
    by_cases same : n.id = id
    · rw [same, Function.update_self] at held
      rw [same]
      exact grad h' held
    · rw [Function.update_of_ne same] at held
      exact ⟨h', held, rfl⟩

/-- A leaf gets a value in a new storage. -/
theorem Stored.drawn {n : Node α} {held : Held α} {s : Slot α} (stored : Stored known g)
    (wf : WellFormed known g) (mem : known n) (new : New g g' held.storage)
    (value : s.value = some held) (grad : s.grad = (g.slot n.id).grad)
    (slots : g'.slot = Function.update g.slot n.id s) : Stored known g' := by
  have fresh := Nat.le_trans new.1 (Nat.le_of_lt new.2)
  have values : ∀ m, known m → m.isLeaf = true → ∀ h, (g'.slot m.id).value = some h →
      (g.slot m.id).value = some h ∨ m = n ∧ h = held := by
    intro m mem' _ h found
    rw [slots] at found
    by_cases same : m.id = n.id
    · rw [same, Function.update_self, value] at found
      exact .inr ⟨wf.unique mem' mem same, (Option.some.inj found).symm⟩
    · rw [Function.update_of_ne same] at found
      exact .inl found
  have grads : ∀ m h, (g'.slot m).grad = some h → (g.slot m).grad = some h := by
    intro m h found
    rw [slots] at found
    by_cases same : m = n.id
    · rw [same, Function.update_self, grad] at found
      rwa [same]
    · rwa [Function.update_of_ne same] at found
  refine ⟨?_, fun mem' h found => ?_, ?_, ?_⟩
  · intro m mem' leaf h found
    rcases values m mem' leaf h found with before | ⟨_, rfl⟩
    · exact Nat.lt_of_lt_of_le (stored.valueUsed mem' leaf before) fresh
    · exact new.2
  · exact Nat.lt_of_lt_of_le (stored.gradUsed mem' (grads _ _ found)) fresh
  · intro m k mem₁ leaf₁ mem₂ leaf₂ h h' found found' same
    rcases values m mem₁ leaf₁ h found with before | ⟨rfl, rfl⟩
    · rcases values k mem₂ leaf₂ h' found' with before' | ⟨rfl, rfl⟩
      · exact stored.values mem₁ leaf₁ mem₂ leaf₂ before before' same
      · have := stored.valueUsed mem₁ leaf₁ before
        exact absurd (same ▸ new.1) (Nat.not_le_of_lt this)
    · rcases values k mem₂ leaf₂ h' found' with before' | ⟨rfl, _⟩
      · have := stored.valueUsed mem₂ leaf₂ before'
        exact absurd (same ▸ new.1) (Nat.not_le_of_lt this)
      · rfl
  · intro m k mem₁ leaf₁ mem₂ h h' found found' same
    have before' := grads _ _ found'
    rcases values m mem₁ leaf₁ h found with before | ⟨rfl, rfl⟩
    · exact stored.apart mem₁ leaf₁ mem₂ before before' same
    · have := stored.gradUsed mem₂ before'
      exact absurd (same ▸ new.1) (Nat.not_le_of_lt this)

/-- A node gets a gradient in a new storage. -/
theorem Stored.opened {n : Node α} {held : Held α} (stored : Stored known g)
    (new : New g g' held.storage)
    (slots : g'.slot = Function.update g.slot n.id { g.slot n.id with grad := some held }) :
    Stored known g' := by
  have fresh := Nat.le_trans new.1 (Nat.le_of_lt new.2)
  have values : ∀ m, (g'.slot m).value = (g.slot m).value := by
    intro m
    rw [slots]
    by_cases same : m = n.id
    · rw [same, Function.update_self]
    · rw [Function.update_of_ne same]
  have grads : ∀ m h, (g'.slot m).grad = some h → (g.slot m).grad = some h ∨ h = held := by
    intro m h found
    rw [slots] at found
    by_cases same : m = n.id
    · rw [same, Function.update_self] at found
      exact .inr (Option.some.inj found).symm
    · rw [Function.update_of_ne same] at found
      exact .inl found
  refine ⟨?_, fun mem h found => ?_, ?_, ?_⟩
  · intro m mem leaf h found
    rw [values] at found
    exact Nat.lt_of_lt_of_le (stored.valueUsed mem leaf found) fresh
  · rcases grads _ _ found with before | rfl
    · exact Nat.lt_of_lt_of_le (stored.gradUsed mem before) fresh
    · exact new.2
  · intro m k mem₁ leaf₁ mem₂ leaf₂ h h' found found'
    rw [values] at found found'
    exact stored.values mem₁ leaf₁ mem₂ leaf₂ found found'
  · intro m k mem₁ leaf₁ mem₂ h h' found found' same
    rw [values] at found
    rcases grads _ _ found' with before' | rfl
    · exact stored.apart mem₁ leaf₁ mem₂ found before' same
    · have := stored.valueUsed mem₁ leaf₁ found
      exact absurd (same ▸ new.1) (Nat.not_le_of_lt this)

variable [Element α]

theorem Change.stored (wf : WellFormed known g) (stored : Stored known g)
    (change : Change known g g') : Stored known g' := by
  cases change with
  | quiet quiet =>
    exact stored.of_slots quiet.storages (fun n _ _ h held => ⟨h, quiet.slots ▸ held, rfl⟩)
      fun n _ h held => ⟨h, quiet.slots ▸ held, rfl⟩
  | @draw s init held mem _ _ _ new slots =>
    exact Stored.drawn (n := .leaf s init) stored wf mem new (by rfl) (by rfl) slots
  | @compute s op inputs ts held mem _ _ aside slots =>
    refine stored.of_update aside.storages slots (fun n mem' leaf same => ?_) fun h found =>
      ⟨h, found, rfl⟩
    cases wf.unique mem' mem same
    cases leaf
  | drop _ _ aside slots =>
    refine stored.of_update aside.storages slots (fun n _ _ _ h held => ?_) fun h found =>
      ⟨h, found, rfl⟩
    cases held
  | grad held mem _ _ storage aside slots =>
    rcases storage with ⟨old, before, same⟩ | new
    · refine stored.of_update aside.storages slots (fun _ _ _ _ _ held => held) fun h found => ?_
      cases found
      exact ⟨old, before, same.symm⟩
    · exact stored.opened new slots
  | dropGrad _ _ aside slots =>
    refine stored.of_update aside.storages slots (fun _ _ _ _ _ held => held) fun h found => ?_
    cases found
  | flag _ _ _ aside slots =>
    exact stored.of_update aside.storages slots (fun _ _ _ _ _ held => held) fun h found =>
      ⟨h, found, rfl⟩

theorem Changes.stored (wf : WellFormed known g) (stored : Stored known g)
    (changes : Changes known g g') : Stored known g' := by
  induction changes with
  | refl => exact stored
  | tail earlier change ih => exact change.stored (wf.of_outline (Changes.outline earlier)) ih

end Graph

end ReverseMode
