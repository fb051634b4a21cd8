import ReverseMode.Proofs.Faithful

/-!
Values had again.

On a faithful graph the value of a node that has been computed is always there or can be
computed again, and the answer is its denotation. This touches nothing but values of
applications and the accounting: no leaf is drawn again, and gradients and flags stay.
-/

namespace ReverseMode

namespace Graph

variable {α : Type} [Element α] {known : Node α → Prop} {g g' : Graph α}

/-! ### What having values again leaves alone -/

theorem Recall.slot (again : Recall known g g') (id : Nat) :
    ∃ v, g'.slot id = { g.slot id with value := v } ∧
      ((g.slot id).value.isSome → v.isSome) := by
  cases again with
  | quiet quiet => exact ⟨(g.slot id).value, by rw [quiet.slots], fun h => h⟩
  | @compute s _ _ _ held _ _ _ _ _ slots =>
    by_cases same : id = s.id
    · refine ⟨some held, ?_, fun _ => rfl⟩
      rw [slots, same, Function.update_self]
    · refine ⟨(g.slot id).value, ?_, fun h => h⟩
      rw [slots, Function.update_of_ne same]

theorem Recall.aside (again : Recall known g g') : Aside g g' := by
  cases again with
  | quiet quiet => exact quiet.toAside
  | compute _ _ _ _ _ aside _ => exact aside

theorem Recall.leaf (wf : WellFormed known g) (again : Recall known g g') {n : Node α}
    (mem : known n) (isLeaf : n.isLeaf = true) : g'.slot n.id = g.slot n.id := by
  cases again with
  | quiet quiet => rw [quiet.slots]
  | @compute s op inputs _ _ mem' _ _ _ _ slots =>
    have other : n.id ≠ s.id := by
      refine wf.ne_of_id (n := .apply s op inputs) mem mem' ?_
      rintro rfl
      simp [Node.isLeaf] at isLeaf
    rw [slots, Function.update_of_ne other]

namespace Recalls

theorem aside (recalls : Recalls known g g') : Aside g g' := by
  induction recalls with
  | refl => exact ⟨rfl, rfl, Nat.le_refl _⟩
  | tail _ again ih => exact ih.trans again.aside

theorem outline (recalls : Recalls known g g') : g'.outline = g.outline := recalls.aside.outline

theorem slot (recalls : Recalls known g g') (id : Nat) :
    ∃ v, g'.slot id = { g.slot id with value := v } ∧
      ((g.slot id).value.isSome → v.isSome) := by
  induction recalls with
  | refl => exact ⟨(g.slot id).value, rfl, fun h => h⟩
  | tail _ again ih =>
    obtain ⟨v, slot, kept⟩ := ih
    obtain ⟨w, slot', kept'⟩ := again.slot id
    rw [slot] at slot' kept'
    exact ⟨w, slot', fun h => kept' (kept h)⟩

theorem value (recalls : Recalls known g g') {id : Nat} (held : (g.slot id).value.isSome) :
    (g'.slot id).value.isSome := by
  obtain ⟨v, slot, kept⟩ := recalls.slot id
  rw [slot]
  exact kept held

theorem grad (recalls : Recalls known g g') (id : Nat) : g'.grad? id = g.grad? id := by
  obtain ⟨v, slot, _⟩ := recalls.slot id
  rw [grad?, slot, grad?]

theorem computed (recalls : Recalls known g g') (id : Nat) :
    (g'.slot id).computed = (g.slot id).computed := by
  obtain ⟨v, slot, _⟩ := recalls.slot id
  rw [slot]

theorem retained (recalls : Recalls known g g') (id : Nat) :
    (g'.slot id).retained = (g.slot id).retained := by
  obtain ⟨v, slot, _⟩ := recalls.slot id
  rw [slot]

theorem leaf (wf : WellFormed known g) (recalls : Recalls known g g') {n : Node α}
    (mem : known n) (isLeaf : n.isLeaf = true) : g'.slot n.id = g.slot n.id := by
  induction recalls with
  | refl => rfl
  | tail earlier again ih =>
    exact (again.leaf (wf.of_outline (Recalls.outline earlier)) mem isLeaf).trans ih

theorem den (wf : WellFormed known g) (recalls : Recalls known g g') {n : Node α}
    (mem : known n) : g'.den n = g.den n := by
  refine Node.denote_congr known (fun m mem' i input => wf.known_inputs mem' input) ?_ mem
  intro s init leaf
  have same := recalls.leaf wf leaf rfl
  simp only [Node.id, Node.stamp] at same
  rw [held?, same, held?]

end Recalls

/-! ### Computed values -/

/-- A node whose value can be had without a draw: a leaf that holds it, or an application of
the tape that has been computed. -/
inductive Ready (g : Graph α) : Node α → Prop
  | leaf {s : Stamp} {init : Initializer α} (held : (g.slot s.id).value.isSome) :
      Ready g (.leaf s init)
  | apply {s : Stamp} {op : Operator α} {inputs : List (Node α)}
      (on : .apply s op inputs ∈ g.tape.toList) (computed : (g.slot s.id).computed = true) :
      Ready g (.apply s op inputs)

omit [Element α] in
theorem Ready.of_computed (sound : Sound known g) {n : Node α} (on : n ∈ g.tape.toList)
    (computed : (g.slot n.id).computed = true) : Ready g n := by
  cases n with
  | leaf s init => exact .leaf (sound.leafHeld on rfl computed)
  | apply s op inputs => exact .apply on computed

theorem Ready.recalls {n : Node α} (ready : Ready g n) (recalls : Recalls known g g') :
    Ready g' n := by
  cases ready with
  | leaf held => exact .leaf (recalls.value held)
  | apply on computed =>
    refine .apply ?_ ((recalls.computed _).trans computed)
    rwa [tape_of_outline recalls.outline]

/-- Below a computed application everything can be had. -/
theorem Faithful.ready_inputs (faithful : Faithful known g) {s : Stamp} {op : Operator α}
    {inputs : List (Node α)} (on : .apply s op inputs ∈ g.tape.toList)
    (computed : (g.slot s.id).computed = true) : ∀ m ∈ inputs, Ready g m := by
  intro m input
  obtain ⟨ts, _, yields, _⟩ := faithful.repeatable on computed
  have computedM := faithful.computedInputs on computed input
  cases m with
  | leaf s' init =>
    obtain ⟨t, value⟩ := yields.mem input
    rw [den_leaf] at value
    obtain ⟨held, value, _⟩ := Option.map_eq_some_iff.mp value
    exact .leaf (by simp [value])
  | apply s' op' inputs' =>
    rcases faithful.tape_inputs on input with on' | ⟨_, isLeaf⟩
    · exact .apply on' computedM
    · simp [Node.isLeaf] at isLeaf

theorem Ready.held (faithful : Faithful known g) {n : Node α} (ready : Ready g n) {t : Tensor α}
    (held : g.held? n.id = some t) : g.den n = some t := by
  cases ready with
  | leaf _ => rwa [den_leaf]
  | apply on _ => exact faithful.held on held

/-- What can be had is had, one after the other. -/
theorem recall_each {β : Type} {f : β → Node α} {bs : List β}
    (each : ∀ b ∈ bs, ∀ g : Graph α, Faithful known g → Ready g (f b) →
      ∃ g', ensure (f b) g = .ok () g' ∧ Recalls known g g' ∧ (g'.slot (f b).id).value.isSome)
    (faithful : Faithful known g) (ready : ∀ b ∈ bs, Ready g (f b)) :
    ∃ g', (bs.forM fun b => ensure (f b)) g = .ok () g' ∧ Recalls known g g' ∧
      ∀ b ∈ bs, (g'.slot (f b).id).value.isSome := by
  induction bs generalizing g with
  | nil => exact ⟨g, rfl, .refl, by simp⟩
  | cons b bs ih =>
    obtain ⟨g₁, first, recalls, held⟩ := each b (by simp) g faithful (ready b (by simp))
    obtain ⟨g', rest, recalls', others⟩ := ih (fun c mem => each c (by simp [mem]))
      (recalls.changes.faithful faithful) fun c mem => (ready c (by simp [mem])).recalls recalls
    refine ⟨g', answer_forM_cons.mpr ⟨g₁, first, rest⟩, recalls.trans recalls', ?_⟩
    intro c mem
    rcases List.mem_cons.mp mem with rfl | mem
    · exact recalls'.value held
    · exact others c mem

omit [Element α] in
/-- A node is among the ones without repetition. -/
theorem mem_distinct {ns : List (Node α)} {n : Node α} (mem : n ∈ ns) :
    ∃ m ∈ Node.distinct ns, m.id = n.id := by
  induction ns with
  | nil => cases mem
  | cons a ns ih =>
    rcases List.mem_cons.mp mem with rfl | mem
    · exact ⟨n, by simp [Node.distinct], rfl⟩
    · obtain ⟨m, inside, same⟩ := ih mem
      by_cases first : m.id = a.id
      · exact ⟨a, by simp [Node.distinct], first.symm.trans same⟩
      · exact ⟨m, by simp [Node.distinct, inside, first], same⟩

omit [Element α] in
/-- An input is held or missing. -/
theorem held_or_missing {n m : Node α} (input : m ∈ n.inputs) :
    (g.slot m.id).value.isSome ∨ ∃ i ∈ g.missing n, i.val.id = m.id := by
  obtain ⟨i, inside, same⟩ := mem_distinct input
  cases value : (g.slot m.id).value with
  | some held => exact .inl rfl
  | none =>
    refine .inr ⟨⟨i, Node.mem_of_mem_distinct inside⟩, ?_, same⟩
    simp only [missing, List.mem_reverse, List.mem_filter, List.mem_map, List.mem_attach, true_and]
    refine ⟨⟨⟨i, inside⟩, rfl⟩, ?_⟩
    simp [same, value]

/-- Inputs that are all held read as their denotations. -/
theorem Recalls.reads {n : Node α} (faithful : Faithful known g) (on : n ∈ g.tape.toList)
    (recalls : Recalls known g g') {ts : List (Tensor α)} (yields : Yields g.den n.inputs ts)
    (filled : ∀ m ∈ n.inputs, (g'.slot m.id).value.isSome) : g'.Reads n.inputs ts := by
  have mem := faithful.known_of_tape on
  have on' : n ∈ g'.tape.toList := by rwa [tape_of_outline (Recalls.outline recalls)]
  obtain ⟨us, reads⟩ : ∃ us, g'.Reads n.inputs us := by
    refine Yields.of_mem fun m input => Option.isSome_iff_exists.mp ?_
    rw [held?, Option.isSome_map]
    exact filled m input
  have denotes : Yields g'.den n.inputs ts := yields.congr fun m input u value =>
    (Recalls.changes recalls).den faithful.toSound (faithful.known_inputs mem input) value
  rwa [(((Recalls.changes recalls).faithful faithful).reads on' reads).unique denotes] at reads

/-- A value that has been computed before is computed again from inputs that are held. -/
theorem compute_recalls {s : Stamp} {op : Operator α} {inputs : List (Node α)}
    (wf : WellFormed known g) (mem : known (.apply s op inputs))
    (before : (g.slot s.id).computed = true) {ts : List (Tensor α)} {t : Tensor α}
    (reads : g.Reads inputs ts) (made : op.attempt g.settings s ts = .ok t) :
    ∃ g', compute (.apply s op inputs) (g.countRecomputation (.apply s op inputs)) = .ok () g' ∧
      Recalls known g g' ∧ (g'.slot s.id).value.isSome := by
  have quiet := countRecomputation_quiet (.apply s op inputs) g
  have reads₁ : (g.countRecomputation (.apply s op inputs)).Reads inputs ts := by
    simpa [Reads, held?] using reads
  have bound : s.id < (g.countRecomputation (.apply s op inputs)).slots.size := by
    rw [size_of_outline quiet.outline]
    exact wf.bound mem
  have made₁ : op.attempt (g.countRecomputation (.apply s op inputs)).settings s ts = .ok t := by
    rw [settings_of_outline quiet.outline, made]
  have before₁ : ((g.countRecomputation (.apply s op inputs)).slot s.id).computed = true := by
    rw [quiet.slots]
    exact before
  obtain ⟨g', computes⟩ := compute_apply_answers reads₁ made₁
  obtain ⟨us, new, reads', made', aside, slots⟩ := compute_apply_answer bound computes
  refine ⟨g', computes, (Recalls.of_quiet quiet).tail ?_, ?_⟩
  · refine .compute new mem before₁ reads' made' aside ?_
    rw [slots]
    simp only [before₁]
  · exact (compute_filled (n := .apply s op inputs) bound computes).1

/-- Having the value of a node again ends, answers and only has values again. -/
theorem ensure_recalls {n : Node α} (faithful : Faithful known g) (ready : Ready g n) :
    ∃ g', ensure n g = .ok () g' ∧ Recalls known g g' ∧ (g'.slot n.id).value.isSome := by
  induction n using Node.rec_inputs generalizing g with
  | step n ih =>
    by_cases held : (g.slot n.id).value.isSome
    · refine ⟨g, ?_, .refl, held⟩
      rw [ensure_eq, answer_bind]
      exact ⟨g, g, answer_get.mpr ⟨rfl, rfl⟩, by simp [held, answer_pure]⟩
    cases ready with
    | leaf held' => exact absurd held' held
    | @apply s op inputs on computed =>
      have mem := faithful.known_of_tape on
      have inputsReady := faithful.ready_inputs on computed
      obtain ⟨ts, t, yields, made⟩ := faithful.repeatable on computed
      obtain ⟨g₁, below, recalls, filled⟩ :
          ∃ g₁, ((g.missing (.apply s op inputs)).forM fun m => ensure m.val) g = .ok () g₁ ∧
            Recalls known g g₁ ∧
              ∀ m ∈ g.missing (.apply s op inputs), (g₁.slot m.val.id).value.isSome :=
        recall_each (fun m _ g faithful ready => ih m.val m.property faithful ready) faithful
          fun m _ => inputsReady m.val m.property
      -- all inputs are held now, and what they hold are their denotations
      have reads : g₁.Reads inputs ts := by
        refine Recalls.reads faithful on recalls yields fun m input => ?_
        rcases held_or_missing (g := g) input with h | ⟨i, inside, same⟩
        · exact recalls.value h
        · rw [← same]
          exact filled i inside
      obtain ⟨g₂, computes, recalls', value⟩ := compute_recalls
        (faithful.toWellFormed.of_outline recalls.outline) mem
        ((recalls.computed s.id).trans computed)
        reads (by rw [settings_of_outline recalls.outline, made])
      refine ⟨g₂, ?_, recalls.trans recalls', value⟩
      rw [ensure_eq, answer_bind]
      refine ⟨g, g, answer_get.mpr ⟨rfl, rfl⟩, ?_⟩
      simp only [held]
      rw [if_neg (by simp), answer_bind]
      refine ⟨(), g₁, below, ?_⟩
      rw [answer_bind]
      exact ⟨⟨⟩, _, answer_modify.mpr rfl, computes⟩

theorem ensured_of_held {n : Node α} {t : Tensor α} (ensures : ensure n g = .ok () g')
    (held : g'.held? n.id = some t) : ensured n g = .ok t g' := by
  rw [ensured, answer_bind]
  refine ⟨(), g', ensures, ?_⟩
  rw [answer_bind]
  refine ⟨g', g', answer_get.mpr ⟨rfl, rfl⟩, ?_⟩
  simp [held, answer_pure]

theorem ensured_recalls {n : Node α} (faithful : Faithful known g) (mem : known n)
    (ready : Ready g n) :
    ∃ g' t, ensured n g = .ok t g' ∧ Recalls known g g' ∧ g.den n = some t := by
  obtain ⟨g', ensures, recalls, held⟩ := ensure_recalls faithful ready
  obtain ⟨h, value⟩ := Option.isSome_iff_exists.mp held
  have value : g'.held? n.id = some h.array := by simp [held?, value]
  refine ⟨g', h.array, ensured_of_held ensures value, recalls, ?_⟩
  rw [← recalls.den faithful.toWellFormed mem]
  exact (ready.recalls recalls).held (recalls.changes.faithful faithful) value

/-- An answered call of a value that can be had answers the denotation. -/
theorem ensured_answer {n : Node α} (faithful : Faithful known g) (mem : known n)
    (ready : Ready g n) {t : Tensor α} (answered : ensured n g = .ok t g') :
    Recalls known g g' ∧ g.den n = some t := by
  obtain ⟨g₁, u, answers, recalls, value⟩ := ensured_recalls faithful mem ready
  cases answers.symm.trans answered
  exact ⟨recalls, value⟩

theorem ensure_answer {n : Node α} (faithful : Faithful known g) (ready : Ready g n)
    (answered : ensure n g = .ok () g') : Recalls known g g' := by
  obtain ⟨g₁, answers, recalls, _⟩ := ensure_recalls faithful ready
  cases answers.symm.trans answered
  exact recalls

end Graph

end ReverseMode
