import ReverseMode.Proofs.Alike

/-!
What passes draw.

`Draws` is what the leaves of a graph show: the state of the random generator and the values
drawn so far. A pass asks for the inputs of its nodes and for the nodes themselves, in the
order of the tape, and `Draws.need` is what a request does here: a leaf without a value draws
one, and nothing else happens. What a pass releases and computes again is not seen, so a pass
after another one draws what one pass over the nodes of both draws.
-/

namespace ReverseMode

variable {α : Type} [Element α]

/-- The random generator and the values drawn so far. -/
structure Draws (α : Type) where
  random : Random
  value : Nat → Option (Tensor α)

namespace Draws

omit [Element α] in
/-- Nothing has been drawn. -/
def start (seed : Int) : Draws α := ⟨Random.ofSeed seed, fun _ => none⟩

/-- A value for a leaf that has none. -/
def need (d : Draws α) : Node α → Except Fault (Draws α)
  | .leaf s init =>
    match d.value s.id with
    | some _ => .ok d
    | none => do
      let (t, random) ← init.supply s d.random
      pure ⟨random, Function.update d.value s.id (some t)⟩
  | .apply _ _ _ => .ok d

/-- The nodes that a pass over these nodes asks for. -/
def asked (ns : List (Node α)) : List (Node α) :=
  ns.flatMap fun n => n.distinctInputs ++ [n]

/-- What a pass over these nodes draws. -/
def pass (d : Draws α) (ns : List (Node α)) : Except Fault (Draws α) :=
  (asked ns).foldlM need d

theorem need_drawn {d : Draws α} {s : Stamp} {init : Initializer α} {t : Tensor α}
    (drawn : d.value s.id = some t) : d.need (.leaf s init) = .ok d := by
  rw [need, drawn]

theorem need_draws {d : Draws α} {s : Stamp} {init : Initializer α} {t : Tensor α}
    {random : Random} (undrawn : d.value s.id = none)
    (supplied : init.supply s d.random = .ok (t, random)) :
    d.need (.leaf s init) = .ok ⟨random, Function.update d.value s.id (some t)⟩ := by
  rw [need, undrawn]
  dsimp only
  rw [supplied]
  rfl

/-- One pass after another draws what one pass over the nodes of both draws. -/
theorem pass_append (d : Draws α) (ms ns : List (Node α)) :
    d.pass (ms ++ ns) = d.pass ms >>= fun d => d.pass ns := by
  rw [pass, asked, List.flatMap_append, List.foldlM_append]
  rfl

theorem pass_cons {d : Draws α} {n : Node α} {rest : List (Node α)} :
    d.pass (n :: rest) =
      n.distinctInputs.foldlM need d >>= fun d => d.need n >>= fun d => d.pass rest := by
  simp only [pass, asked, List.flatMap_cons, List.foldlM_append, List.foldlM_cons, List.foldlM_nil,
    bind_assoc, pure_bind]

end Draws

namespace Graph

variable {known : Node α → Prop} {g g' : Graph α} {d : Draws α}

omit [Element α] in
/-- The leaves of a graph show what has been drawn, and have no gradients. -/
structure Shows (known : Node α → Prop) (g : Graph α) (d : Draws α) : Prop where
  random : g.random = d.random
  value : ∀ n, known n → n.isLeaf = true → g.held? n.id = d.value n.id
  computed : ∀ n, known n → n.isLeaf = true →
    (g.slot n.id).computed = (d.value n.id).isSome
  ungraded : ∀ n, known n → n.isLeaf = true → g.grad? n.id = none
  beyond : ∀ id, g.slots.size ≤ id → d.value id = none

namespace Shows

omit [Element α] in
theorem alike (shows' : Shows known g d) (alike : Alike known true g g') : Shows known g' d where
  random := alike.random.symm.trans shows'.random
  value n mem leaf := (alike.value n mem leaf).symm.trans (shows'.value n mem leaf)
  computed n mem leaf := (alike.computed n mem).symm.trans (shows'.computed n mem leaf)
  ungraded n mem leaf := (alike.grad rfl n mem leaf).symm.trans (shows'.ungraded n mem leaf)
  beyond id above := shows'.beyond id (alike.size ▸ above)

omit [Element α] in
/-- Graphs that show the same draws are alike, if they have been built alike and the same of
their nodes have been computed. -/
theorem common (shows₁ : Shows known g d) (shows₂ : Shows known g' d) (face : g.face = g'.face)
    (computed : ∀ n, known n → n.isLeaf = false →
      (g.slot n.id).computed = (g'.slot n.id).computed) : Alike known true g g' where
  face := face
  random := shows₁.random.trans shows₂.random.symm
  value n mem leaf := (shows₁.value n mem leaf).trans (shows₂.value n mem leaf).symm
  grad _ n mem leaf := (shows₁.ungraded n mem leaf).trans (shows₂.ungraded n mem leaf).symm
  computed n mem := by
    cases leaf : n.isLeaf with
    | true => exact (shows₁.computed n mem leaf).trans (shows₂.computed n mem leaf).symm
    | false => exact computed n mem leaf

omit [Element α] in
/-- A new node shows nothing. -/
theorem new {n : Node α} (shows' : Shows known g d) (fresh : n.id = g.slots.size)
    (random : g'.random = g.random) (slots : g'.slot = g.slot)
    (size : g.slots.size ≤ g'.slots.size) : Shows (With known n) g' d := by
  have empty : g.slot n.id = {} := by
    rw [fresh]
    exact slot_size g
  have none := shows'.beyond n.id (Nat.le_of_eq fresh.symm)
  refine ⟨random.trans shows'.random, ?_, ?_, ?_, fun id above =>
    shows'.beyond id (Nat.le_trans size above)⟩
  · rintro m (rfl | mem) leaf
    · rw [held?, slots, empty, none]
      rfl
    · rw [held?, slots]
      exact shows'.value m mem leaf
  · rintro m (rfl | mem) leaf
    · rw [slots, empty, none]
      rfl
    · rw [slots]
      exact shows'.computed m mem leaf
  · rintro m (rfl | mem) leaf
    · rw [grad?, slots, empty]
      rfl
    · rw [grad?, slots]
      exact shows'.ungraded m mem leaf

omit [Element α] in
/-- A leaf that is drawn has not been drawn before. -/
theorem undrawn (shows' : Shows known g d) {s : Stamp} {init : Initializer α}
    (mem : known (.leaf s init)) (absent : (g.slot s.id).value = none) :
    d.value s.id = none := by
  have value := shows'.value _ mem rfl
  simp only [Node.id, Node.stamp] at value
  rw [← value, held?, absent]
  rfl

/-- A leaf is drawn. -/
theorem drawn {s : Stamp} {init : Initializer α} (shows' : Shows known g d)
    (mem : known (.leaf s init)) (bound : s.id < g.slots.size)
    (absent : (g.slot s.id).value = none) (drawn : Drawn s init g g') :
    ∃ d', d.need (.leaf s init) = .ok d' ∧ Shows known g' d' := by
  obtain ⟨held, supplied, outline, _, slots⟩ := drawn
  have undrawn := shows'.undrawn mem absent
  have size := size_of_outline outline
  rw [shows'.random] at supplied
  refine ⟨_, Draws.need_draws undrawn supplied, rfl, ?_, ?_, ?_, ?_⟩
  · intro n inside leaf
    by_cases same : n.id = s.id
    · simp [held?, slots, same]
    · simpa [held?, slots, Function.update_of_ne same] using shows'.value n inside leaf
  · intro n inside leaf
    by_cases same : n.id = s.id
    · simp [slots, same]
    · simpa [slots, Function.update_of_ne same] using shows'.computed n inside leaf
  · intro n inside leaf
    rw [grad?_of_value slots]
    exact shows'.ungraded n inside leaf
  · intro id above
    have other : id ≠ s.id := by omega
    exact (Function.update_of_ne other _ _).trans (shows'.beyond id (by omega))

/-- A node that can be had needs no draw. -/
theorem ready (shows' : Shows known g d) {n : Node α} (mem : known n) (ready : Ready g n) :
    d.need n = .ok d := by
  cases ready with
  | @leaf s init held =>
    have value := shows'.value _ mem rfl
    simp only [Node.id, Node.stamp, held?] at value
    obtain ⟨h, found⟩ := Option.isSome_iff_exists.mp held
    rw [found, Option.map_some] at value
    exact Draws.need_drawn value.symm
  | apply => rfl

/-! ### Passes -/

/-- Making a node available draws it if it is a leaf without a value. -/
theorem ensure {n : Node α} (faithful : Faithful known g) (shows' : Shows known g d)
    (mem : known n) (readable : g.Readable n) (answered : ensure n g = .ok () g') :
    ∃ d', d.need n = .ok d' ∧ Shows known g' d' := by
  rcases ensure_cases faithful mem readable answered with
    ⟨recalls, had⟩ | ⟨s, init, rfl, absent, drawn⟩
  · have alike : Alike known true g g' := .of_recalls faithful.toWellFormed recalls
    exact ⟨d, shows'.ready mem had, shows'.alike alike⟩
  · exact shows'.drawn mem (faithful.bound mem) absent drawn

theorem ensureAll {ns : List (Node α)} (faithful : Faithful known g) (shows' : Shows known g d)
    (mem : ∀ n ∈ ns, known n) (readable : ∀ n ∈ ns, g.Readable n)
    (answered : ns.forM Graph.ensure g = .ok () g') :
    ∃ d', ns.foldlM Draws.need d = .ok d' ∧ Shows known g' d' := by
  induction ns generalizing g d with
  | nil =>
    obtain ⟨_, rfl⟩ := answer_pure.mp answered
    exact ⟨d, rfl, shows'⟩
  | cons n rest ih =>
    obtain ⟨g₁, head, tail⟩ := answer_forM_cons.mp answered
    have inside := mem n (by simp)
    have changes := ensure_changes faithful.toSound inside
    rw [head, after_ok] at changes
    obtain ⟨d₁, needs, shows₁⟩ := shows'.ensure faithful inside (readable n (by simp)) head
    obtain ⟨d₂, others, shows₂⟩ := ih (changes.faithful faithful) shows₁
      (fun m later => mem m (by simp [later]))
      (fun m later => (readable m (by simp [later])).changes changes) tail
    refine ⟨d₂, ?_, shows₂⟩
    rw [List.foldlM_cons, needs]
    exact others

/-- Computing a node that holds no value. -/
theorem compute {n : Node α} (wf : WellFormed known g) (shows' : Shows known g d) (mem : known n)
    (absent : (g.slot n.id).value = none) (answered : compute n g = .ok () g') :
    ∃ d', d.need n = .ok d' ∧ Shows known g' d' := by
  cases n with
  | leaf s init =>
    exact shows'.drawn mem (wf.bound mem) absent (compute_leaf_answer (wf.bound mem) answered)
  | apply s op inputs =>
    obtain ⟨_, held, _, _, aside, slots⟩ := compute_apply_answer (s := s) (wf.bound mem) answered
    have other : ∀ n, known n → n.isLeaf = true → n.id ≠ s.id := by
      intro n inside leaf
      refine wf.ne_of_id (n := .apply s op inputs) inside mem ?_
      rintro rfl
      cases leaf
    refine ⟨d, rfl, aside.random.trans shows'.random, ?_, ?_, ?_, ?_⟩
    · intro n inside leaf
      simpa [held?, slots, Function.update_of_ne (other n inside leaf)] using
        shows'.value n inside leaf
    · intro n inside leaf
      simpa [slots, Function.update_of_ne (other n inside leaf)] using
        shows'.computed n inside leaf
    · intro n inside leaf
      rw [grad?_of_value slots]
      exact shows'.ungraded n inside leaf
    · intro id above
      exact shows'.beyond id (size_of_outline aside.outline ▸ above)

/-- The step of a node whose inputs may be read. -/
theorem forwardStep {n : Node α} (faithful : Faithful known g) (shows' : Shows known g d)
    (mem : known n) (absent : (g.slot n.id).value = none)
    (readable : ∀ m ∈ n.inputs, g.Readable m) {p p' : Pending}
    (answered : forwardStep n p g = .ok p' g') :
    ∃ d₁ d', n.distinctInputs.foldlM Draws.need d = .ok d₁ ∧ d₁.need n = .ok d' ∧
      Shows known g' d' := by
  obtain ⟨g₁, g₂, ready, made, last⟩ := forwardStep_answer.mp answered
  obtain ⟨below, own⟩ := forwardStep_between mem faithful.toSound (fun _ => absent) ready made
  obtain ⟨changes, same⟩ := below faithful.toSound
  have sound₁ := changes.sound faithful.toSound
  have wf₂ := ((own sound₁).1.sound sound₁).toWellFormed
  obtain ⟨d₁, inputs, shows₁⟩ := shows'.ensureAll faithful
    (fun m input => faithful.known_inputs mem (mem_inputs_of_distinct input))
    (fun m input => readable m (mem_inputs_of_distinct input)) ready
  have absent₁ : (g₁.slot n.id).value = none := by rw [same n.id (Nat.le_refl _), absent]
  obtain ⟨d₂, itself, shows₂⟩ := shows₁.compute sound₁.toWellFormed mem absent₁ made
  have drops : Alike known true g₂ (afterForward n p g₂).2 := afterForward_alike wf₂ mem p
  rw [last] at drops
  exact ⟨d₁, d₂, inputs, itself, shows₂.alike drops⟩

theorem forwardFrom {ns : List (Node α)} (faithful : Faithful known g) (shows' : Shows known g d)
    (on : ∀ n ∈ ns, n ∈ g.tape.toList) (sorted : ns.Pairwise fun m n => m.id < n.id)
    (absent : ∀ n ∈ ns, (g.slot n.id).value = none) (closed : g.Closed ns) {p : Pending}
    (answered : forwardFrom ns p g = .ok () g') :
    ∃ d', d.pass ns = .ok d' ∧ Shows known g' d' := by
  induction ns generalizing g d p with
  | nil =>
    obtain ⟨_, rfl⟩ := answer_pure.mp answered
    exact ⟨d, rfl, shows'⟩
  | cons n rest ih =>
    rw [forwardFrom_cons, answer_bind] at answered
    obtain ⟨p', g₁, step, answered⟩ := answered
    have mem := faithful.known_of_tape (on n (by simp))
    have empty := absent n (by simp)
    obtain ⟨later, sorted⟩ := List.pairwise_cons.mp sorted
    obtain ⟨changes, above⟩ :=
      forwardStep_under mem faithful.toSound (fun _ => empty) p faithful.toSound
    rw [step, after_ok] at changes above
    have computed := forwardStep_computed mem faithful.toSound (fun _ => empty) step
    obtain ⟨d₁, d₂, inputs, itself, shows₂⟩ := shows'.forwardStep faithful mem empty
      (closed.readable faithful.toWellFormed mem later) step
    have tape := tape_of_outline changes.outline
    obtain ⟨d₃, others, shows₃⟩ := ih (changes.faithful faithful) shows₂
      (fun m inside => tape ▸ on m (by simp [inside])) sorted
      (fun m inside => by rw [above m.id (later m inside), absent m (by simp [inside])])
      (closed.tail (on n (by simp)) changes computed) answered
    refine ⟨d₃, ?_, shows₃⟩
    rw [Draws.pass_cons, inputs]
    change d₁.need n >>= _ = _
    rw [itself]
    exact others

end Shows

end Graph

end ReverseMode
