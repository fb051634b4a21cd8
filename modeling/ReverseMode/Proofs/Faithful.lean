import ReverseMode.Proofs.BackwardPass

/-!
Faithful graphs: held values are the denotations of their nodes.

A graph is faithful if every value that is held on the tape is the denotation of its node, and
if every application that has been computed can be computed again. Elementary changes keep it
so. On a faithful graph a computed value can always be had again, and having it again changes
neither leaves nor gradients.
-/

namespace ReverseMode

namespace Graph

variable {α : Type} [Element α]

/-- What a node stands for, given the values that the leaves hold. -/
def den (g : Graph α) (n : Node α) : Option (Tensor α) := n.denote g.held?

/-- Values held are denotations, and what has been computed can be computed again. -/
structure Faithful (known : Node α → Prop) (g : Graph α) : Prop extends Sound known g where
  held : ∀ {n}, n ∈ g.tape.toList → ∀ {t}, g.held? n.id = some t → g.den n = some t
  repeatable : ∀ {s op inputs}, .apply s op inputs ∈ g.tape.toList →
    (g.slot s.id).computed = true →
    ∃ ts t, Yields g.den inputs ts ∧ op.attempt g.settings s ts = .ok t

variable {known : Node α → Prop} {g g' : Graph α}

theorem den_leaf (g : Graph α) (s : Stamp) (init : Initializer α) :
    g.den (.leaf s init) = g.held? s.id := by
  rw [den, Node.denote]

theorem den_of_isLeaf {n : Node α} (isLeaf : n.isLeaf = true) : g.den n = g.held? n.id := by
  cases n with
  | leaf s init => exact den_leaf g s init
  | apply => simp [Node.isLeaf] at isLeaf

/-! ### Elementary changes -/

theorem Change.den (sound : Sound known g) (change : Change known g g') {n : Node α}
    (mem : known n) {t : Tensor α} (value : g.den n = some t) : g'.den n = some t := by
  refine Node.denote_mono known (fun m mem' i input => sound.known_inputs mem' input) ?_ mem value
  intro s init leaf u found
  obtain ⟨held, here, rfl⟩ := Option.map_eq_some_iff.mp found
  have stays := change.leaf_value sound leaf rfl here
  simp only [Node.id, Node.stamp] at stays
  simp [held?, stays]

theorem Changes.den (sound : Sound known g) (changes : Changes known g g') {n : Node α}
    (mem : known n) {t : Tensor α} (value : g.den n = some t) : g'.den n = some t := by
  induction changes with
  | refl => exact value
  | tail earlier change ih => exact change.den (Changes.sound sound earlier) mem ih

/-- An application holds and has computed what it held and had computed before, or what an
attempt gave it. -/
theorem Change.filled (sound : Sound known g) (change : Change known g g') {s : Stamp}
    {op : Operator α} {inputs : List (Node α)} (mem : known (.apply s op inputs)) :
    (∀ t, g'.held? s.id = some t → g.held? s.id = some t) ∧
        ((g'.slot s.id).computed = true → (g.slot s.id).computed = true) ∨
      ∃ ts t, g.Reads inputs ts ∧ op.attempt g.settings s ts = .ok t ∧
        g'.held? s.id = some t := by
  have of_update : ∀ {k : Nat} {new : Slot α}, g'.slot = Function.update g.slot k new →
      (k = s.id → ∀ held, new.value = some held → (g.slot s.id).value = some held) →
      (k = s.id → new.computed = true → (g.slot s.id).computed = true) →
      (∀ t, g'.held? s.id = some t → g.held? s.id = some t) ∧
        ((g'.slot s.id).computed = true → (g.slot s.id).computed = true) := by
    intro k new slots value computed
    unfold held?
    rw [slots]
    by_cases same : s.id = k
    · rw [same, Function.update_self, ← same]
      refine ⟨fun t found => ?_, computed same.symm⟩
      obtain ⟨held, here, rfl⟩ := Option.map_eq_some_iff.mp found
      rw [value same.symm held here]
      rfl
    · rw [Function.update_of_ne same]
      exact ⟨fun _ h => h, fun h => h⟩
  cases change with
  | quiet quiet =>
    left
    unfold held?
    rw [quiet.slots]
    exact ⟨fun _ h => h, fun h => h⟩
  | @draw s' init held mem' _ _ _ _ slots =>
    have other : s'.id ≠ s.id := sound.ne_of_id mem' mem (by simp)
    exact .inl (of_update slots (fun same => absurd same other) fun same => absurd same other)
  | @compute s' op' inputs' ts held mem' reads made _ slots =>
    by_cases same : s'.id = s.id
    · obtain ⟨rfl, rfl, rfl⟩ := Node.apply.inj (sound.unique mem' mem same)
      exact .inr ⟨ts, held.array, reads, made, by simp [held?, slots]⟩
    · exact .inl (of_update slots (fun h => absurd h same) fun h => absurd h same)
  | drop _ _ _ slots =>
    refine .inl (of_update slots (fun _ held h => ?_) fun same h => same ▸ h)
    cases h
  | grad _ _ _ _ _ _ slots =>
    exact .inl (of_update slots (fun same _ h => same ▸ h) fun same h => same ▸ h)
  | dropGrad _ _ _ slots =>
    exact .inl (of_update slots (fun same _ h => same ▸ h) fun same h => same ▸ h)
  | flag _ _ _ _ slots =>
    exact .inl (of_update slots (fun same _ h => same ▸ h) fun same h => same ▸ h)

/-- Values read off a faithful graph are denotations. -/
theorem Faithful.reads (faithful : Faithful known g) {n : Node α} (on : n ∈ g.tape.toList)
    {ts : List (Tensor α)} (reads : g.Reads n.inputs ts) : Yields g.den n.inputs ts := by
  refine reads.congr fun m input t found => ?_
  rcases faithful.tape_inputs on input with on' | ⟨_, isLeaf⟩
  · exact faithful.held on' found
  · rwa [den_of_isLeaf isLeaf]

theorem Change.faithful (faithful : Faithful known g) (change : Change known g g') :
    Faithful known g' := by
  have sound := faithful.toSound
  have tape := tape_of_outline change.outline
  have keeps : ∀ {n : Node α}, n ∈ g.tape.toList → ∀ {ts}, Yields g.den n.inputs ts →
      Yields g'.den n.inputs ts := by
    intro n on ts yields
    exact yields.congr fun m input t =>
      change.den sound (sound.known_inputs (sound.known_of_tape on) input)
  refine { toSound := change.sound sound, held := ?_, repeatable := ?_ }
  · intro n on t found
    rw [tape] at on
    have mem := sound.known_of_tape on
    cases n with
    | leaf s init =>
      rw [den_leaf]
      exact found
    | apply s op inputs =>
      rcases change.filled sound mem with ⟨before, _⟩ | ⟨ts, t', reads, made, filled⟩
      · exact change.den sound mem (faithful.held on (before t found))
      · cases found.symm.trans filled
        exact Node.denote_apply_eq_some.mpr
          ⟨ts, keeps on (faithful.reads on reads), (Operator.attempt_eq_ok.mp made).2⟩
  · intro s op inputs on done
    rw [tape] at on
    rw [settings_of_outline change.outline]
    rcases change.filled sound (sound.known_of_tape on) with ⟨_, before⟩ | ⟨ts, t, reads, made, _⟩
    · obtain ⟨ts, t, yields, made⟩ := faithful.repeatable on (before done)
      exact ⟨ts, t, keeps on yields, made⟩
    · exact ⟨ts, t, keeps on (faithful.reads on reads), made⟩

theorem Changes.faithful (faithful : Faithful known g) (changes : Changes known g g') :
    Faithful known g' := by
  induction changes with
  | refl => exact faithful
  | tail _ change ih => exact change.faithful ih

end Graph

end ReverseMode
