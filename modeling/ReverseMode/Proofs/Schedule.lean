import ReverseMode.Proofs.Draws
import ReverseMode.Proofs.Policy

/-!
Forward passes between construction calls do not show.

A plan decides on the next construction call from what the calls before it have answered. A
run of a plan may pass over the graph at any time in between. The nodes that have been
computed are a first part of the tape, and the leaves show what one pass over this part draws.
So two runs of a plan that both end with a forward pass show the same, however many passes
there were before; one of them may have had none.
-/

namespace ReverseMode

variable {α : Type}

/-- The next construction call, from what those before it have answered; none where all is
built. -/
abbrev Plan (α : Type) := List (Answer α) → Option (Request α)

/-- Whether a call builds a node, keeps one or checkpoints one. -/
def Request.constructs (r : Request α) : Bool := r.builds || r.isPolicy

namespace World

open ReverseMode.Graph

variable [Element α]

/-- The runs of a plan, with forward passes in between. No step raises. -/
inductive Interleaved (plan : Plan α) (serial : Nat) (settings : Settings) :
    World α → List (Answer α) → Prop
  | start : Interleaved plan serial settings (start serial settings) []
  | call {w : World α} {seen : List (Answer α)} {r : Request α} {a : Answer α} {g : Graph α}
      (before : Interleaved plan serial settings w seen) (asked : plan seen = some r)
      (constructs : r.constructs = true) (admissible : w.Admissible r)
      (answered : r.call w.graph = .ok a g) :
      Interleaved plan serial settings (w.next r a g) (seen ++ [a])
  | pass {w : World α} {seen : List (Answer α)} {g : Graph α}
      (before : Interleaved plan serial settings w seen)
      (answered : (forward : GraphM α Unit) w.graph = .ok () g) :
      Interleaved plan serial settings (w.next .forward .done g) seen

variable {plan : Plan α} {serial : Nat} {settings : Settings}
variable {w w' w₁ w₁' : World α} {seen seen' : List (Answer α)} {g g' : Graph α}

/-! ### What one run draws -/

/-- A first part of the tape has been computed, and the leaves show what one pass over it draws. -/
structure Passed (seed : Int) (w : World α) : Prop where
  invariant : Invariant w
  fresh : w.fresh
  first : w.graph.episode = 0
  draws : ∃ done d, w.graph.tape.toList = done ++ w.graph.uncomputed ∧
    (Draws.start seed).pass done = .ok d ∧ Shows w.known w.graph d

omit [Element α] in
/-- Every node of the first episode is on the tape, or a parameter. -/
theorem on_or_free {known : Node α → Prop} {g : Graph α} (wf : WellFormed known g)
    (first : g.episode = 0) {n : Node α} (mem : known n) :
    n ∈ g.tape.toList ∨ n.episode = none ∧ n.isLeaf = true := by
  cases dated : n.episode with
  | none => exact .inr ⟨rfl, wf.parameter mem dated⟩
  | some e =>
    have early := wf.past mem dated
    have now : e = g.episode := by omega
    exact .inl (wf.tape.mpr ⟨mem, now ▸ dated⟩)

theorem start_passed (serial : Nat) (settings : Settings) :
    Passed settings.seed (World.start serial settings : World α) where
  invariant := Reachable.invariant (.start serial settings)
  fresh := trivial
  first := rfl
  draws := by
    refine ⟨[], Draws.start settings.seed, ?_, rfl, rfl, nofun, nofun, nofun, fun _ _ => rfl⟩
    simp [World.start, Graph.create, uncomputed, Tape.toList]

omit [Element α] in
/-- A new node of the tape has not been computed. -/
theorem uncomputed_recorded {known : Node α → Prop} {g : Graph α} {n : Node α}
    (admits : Admits known g n) :
    (g.recorded n).uncomputed = g.uncomputed ++ [n] := by
  have slots : (g.recorded n).slot = g.slot := slot_widened g
  have tape : (g.recorded n).tape.toList = g.tape.toList ++ [n] := toList_push g.tape n
  have fresh : (g.slot n.id).computed = false := by
    rw [admits.id, slot_size]
  rw [uncomputed, tape, slots, List.filter_append, List.filter_singleton, fresh]
  rfl

theorem Passed.built {seed : Int} {r : Request α} {a : Answer α} (passed : Passed seed w)
    (built : Built w r a g) (invariant : Invariant (w.next r a g)) :
    Passed seed (w.next r a g) := by
  obtain ⟨_, fresh, first, done, d, tape, draws, shows'⟩ := passed
  refine ⟨invariant, .inl fresh, ?_, ?_⟩
  · cases built with
    | same => exact first
    | recorded => exact first
    | registered => exact first
  · unfold next
    cases built with
    | same mem =>
      rw [knownAfter_of_known mem]
      exact ⟨done, d, tape, draws, shows'⟩
    | @recorded n admits =>
      rw [knownAfter_node]
      refine ⟨done, d, ?_, draws, shows'.new admits.id rfl (slot_widened w.graph) ?_⟩
      · rw [uncomputed_recorded admits, ← List.append_assoc, ← tape]
        exact toList_push w.graph.tape n
      · exact (size_widened w.graph).symm ▸ Nat.le_succ _
    | @registered n admits =>
      rw [knownAfter_node]
      refine ⟨done, d, ?_, draws, shows'.new admits.id rfl (slot_widened w.graph) ?_⟩
      · rw [uncomputed, show (w.graph.registered n).slot = w.graph.slot from slot_widened w.graph]
        exact tape
      · exact (size_widened w.graph).symm ▸ Nat.le_succ _

theorem Passed.policy {seed : Int} {r : Request α} {a : Answer α} (passed : Passed seed w)
    (policy : r.isPolicy = true) (admissible : w.Admissible r)
    (answered : r.call w.graph = .ok a g) (invariant : Invariant (w.next r a g)) :
    Passed seed (w.next r a g) := by
  have sound := passed.invariant.sound
  obtain ⟨known, alike⟩ := policy_concur sound policy admissible answered
  obtain ⟨done, d, tape, draws, shows'⟩ := passed.draws
  refine ⟨invariant, .inl passed.fresh, alike.episode ▸ passed.first, done, d, ?_, draws, ?_⟩
  · have pending : w.graph.uncomputed = (w.next r a g).graph.uncomputed :=
      alike.uncomputed sound.toWellFormed
    rw [← pending, ← alike.tape]
    exact tape
  · rw [← known]
    exact shows'.alike alike

/-- A forward pass computes the rest of the tape. -/
theorem Passed.complete {seed : Int} (passed : Passed seed w)
    (answered : (forward : GraphM α Unit) w.graph = .ok () g) :
    Passed seed (w.next .forward .done g) ∧ g.uncomputed = [] := by
  have sound := passed.invariant.sound
  have wf := sound.toWellFormed
  obtain ⟨tape, _, computed⟩ := forward_computed sound answered
  have none : g.uncomputed = [] := by
    refine List.eq_nil_iff_forall_not_mem.mpr fun n pending => ?_
    obtain ⟨on, undone⟩ := mem_uncomputed.mp pending
    simp [computed n on] at undone
  refine ⟨?_, none⟩
  obtain ⟨g₁, passes, quiet⟩ := forward_passes answered
  obtain ⟨done, d, split, draws, shows'⟩ := passed.draws
  obtain ⟨d', others, shows₁⟩ := shows'.forwardFrom (passed.invariant.faithful passed.fresh)
    (fun n inside => (mem_uncomputed.mp inside).1) (uncomputed_sorted wf)
    (uncomputed_absent sound) (uncomputed_closed sound) passes
  have known : knownAfter w.known .done = w.known := knownAfter_of_none rfl
  have episode : g.episode = w.graph.episode :=
    (episode_of_outline quiet.outline).trans (episode_of_outline
      (forwardFrom_uncomputed_computed sound passes).1.outline : g₁.episode = _)
  refine ⟨?_, .inl passed.fresh, episode.trans passed.first, w.graph.tape.toList, d', ?_, ?_, ?_⟩
  · exact Step.invariant (.answer nofun (answer_return.mpr ⟨(), answered, rfl⟩)) passed.invariant
  · change g.tape.toList = _ ++ g.uncomputed
    rw [none, List.append_nil, tape]
  · rw [split, Draws.pass_append, draws]
    exact others
  · change Shows (knownAfter w.known .done) g d'
    rw [known]
    have marked : Shows w.known g₁.marked d' :=
      ⟨shows₁.random, shows₁.value, shows₁.computed, shows₁.ungraded, shows₁.beyond⟩
    exact marked.alike (.of_quiet quiet)

theorem Passed.faithful {seed : Int} (passed : Passed seed w)
    (answered : (forward : GraphM α Unit) w.graph = .ok () g) : Faithful w.known g := by
  obtain ⟨after, _⟩ := passed.complete answered
  have known : knownAfter w.known .done = w.known := knownAfter_of_none rfl
  have faithful : Faithful (knownAfter w.known .done) g := after.invariant.faithful after.fresh
  rwa [known] at faithful

theorem Interleaved.passed (run : Interleaved plan serial settings w seen) :
    Passed settings.seed w := by
  induction run with
  | start => exact start_passed serial settings
  | @call w _ r a g _ _ constructs admissible answered ih =>
    have invariant : Invariant (w.next r a g) :=
      Step.invariant (.answer admissible answered) ih.invariant
    rcases Bool.or_eq_true_iff.mp constructs with builds | policy
    · have wf := ih.invariant.sound.toWellFormed
      exact ih.built (built_of_answer wf admissible answered builds) invariant
    · exact ih.policy policy admissible answered invariant
  | pass _ answered ih => exact (ih.complete answered).1

/-! ### Two runs -/

/-- Two worlds have been built alike. -/
structure Level (w w' : World α) : Prop where
  known : w.known = w'.known
  abreast : Abreast w.graph w'.graph

omit [Element α] in
theorem Level.symm (level : Level w w') : Level w' w := ⟨level.known.symm, level.abreast.symm⟩

omit [Element α] in
theorem Level.trans (first : Level w w₁) (second : Level w₁ w') : Level w w' :=
  ⟨first.known.trans second.known, first.abreast.trans second.abreast⟩

/-- A forward pass builds nothing. -/
theorem forward_level (sound : Sound w.known w.graph)
    (answered : (forward : GraphM α Unit) w.graph = .ok () g) :
    Level w (w.next .forward .done g) := by
  refine ⟨(knownAfter_of_none rfl).symm, ?_⟩
  obtain ⟨g₁, passes, quiet⟩ := forward_passes answered
  obtain ⟨changes, _⟩ := forwardFrom_uncomputed_computed sound passes
  have face : g.face = g₁.marked.face := face_of_outline quiet.outline
  have face₁ : g₁.face = w.graph.face := face_of_outline changes.outline
  change { w.graph.face with forwarded := false } = { g.face with forwarded := false }
  rw [face, ← face₁]
  rfl

/-- A construction call on graphs that have been built alike answers the same. -/
theorem call_level (sound : Sound w.known w.graph) (sound' : Sound w'.known w'.graph)
    (level : Level w w') {r : Request α} (constructs : r.constructs = true)
    (admissible : w.Admissible r) (admissible' : w'.Admissible r) {a a' : Answer α}
    (first : r.call w.graph = .ok a g) (second : r.call w'.graph = .ok a' g') :
    a = a' ∧ Level (w.next r a g) (w'.next r a' g') := by
  obtain ⟨known, abreast⟩ := level
  have build : ∀ {n m : Node α}, n = m ∧ Together w.graph w'.graph n g g' →
      Answer.node n = .node m ∧ Level (w.next r (.node n) g) (w'.next r (.node m) g') := by
    rintro n _ ⟨rfl, together⟩
    exact ⟨rfl, by rw [next, next, known], together.abreast abreast⟩
  have keep : r.isPolicy = true → a = a' →
      a = a' ∧ Level (w.next r a g) (w'.next r a' g') := by
    rintro policy rfl
    have concur := policy_concur sound policy admissible first
    have concur' := policy_concur sound' policy admissible' second
    refine ⟨rfl, concur.known.symm.trans (known.trans concur'.known), ?_⟩
    exact concur.alike.abreast.symm.trans (abreast.trans concur'.alike.abreast)
  cases r with
  | add op inputs =>
    obtain ⟨n, ran, rfl⟩ := answer_return.mp first
    obtain ⟨m, ran', rfl⟩ := answer_return.mp second
    exact build (add_together sound.toWellFormed abreast ran ran')
  | constant shape init type name =>
    obtain ⟨n, ran, rfl⟩ := answer_return.mp first
    obtain ⟨m, ran', rfl⟩ := answer_return.mp second
    exact build (constant_together abreast ran ran')
  | parameter name shape init type trainable =>
    obtain ⟨n, ran, rfl⟩ := answer_return.mp first
    obtain ⟨m, ran', rfl⟩ := answer_return.mp second
    exact build (parameter_together abreast ran ran')
  | retain n =>
    obtain ⟨m, ran, rfl⟩ := answer_return.mp first
    obtain ⟨m', ran', rfl⟩ := answer_return.mp second
    obtain ⟨rfl, _, _⟩ := retain_answer.mp ran
    obtain ⟨same, _, _⟩ := retain_answer.mp ran'
    exact keep rfl (congrArg Answer.node (Input.node.inj same))
  | checkpoint n =>
    obtain ⟨m, ran, rfl⟩ := answer_return.mp first
    obtain ⟨m', ran', rfl⟩ := answer_return.mp second
    obtain ⟨rfl, _, _⟩ := checkpoint_answer.mp ran
    obtain ⟨rfl, _, _⟩ := checkpoint_answer.mp ran'
    exact keep rfl rfl
  | _ => cases constructs

/-- A run starts, or a call was its last one; passes since have built nothing. -/
theorem Interleaved.last (run : Interleaved plan serial settings w seen) :
    (seen = [] ∧ Level (World.start serial settings) w) ∨
      ∃ w₀ seen₀ r a g, Interleaved plan serial settings w₀ seen₀ ∧ plan seen₀ = some r ∧
        r.constructs = true ∧ w₀.Admissible r ∧ r.call w₀.graph = .ok a g ∧
        seen = seen₀ ++ [a] ∧ Level (w₀.next r a g) w := by
  induction run with
  | start => exact .inl ⟨rfl, rfl, rfl⟩
  | call before asked constructs admissible answered =>
    exact .inr ⟨_, _, _, _, _, before, asked, constructs, admissible, answered, rfl, rfl, rfl⟩
  | pass before answered ih =>
    have level := forward_level before.passed.invariant.sound answered
    rcases ih with ⟨none, since⟩ | ⟨w₀, seen₀, r, a, g, run, asked, constructs, admissible,
      answers, seen, since⟩
    · exact .inl ⟨none, since.trans level⟩
    · exact .inr ⟨w₀, seen₀, r, a, g, run, asked, constructs, admissible, answers, seen,
        since.trans level⟩

/-- Runs of as many calls have had the same answers, and have built alike. -/
theorem Interleaved.level (run : Interleaved plan serial settings w seen)
    (run' : Interleaved plan serial settings w' seen') (steps : seen.length = seen'.length) :
    seen = seen' ∧ Level w w' := by
  induction count : seen.length generalizing w w' seen seen' with
  | zero =>
    have empty := List.length_eq_zero_iff.mp count
    have empty' := List.length_eq_zero_iff.mp (steps.symm.trans count)
    rcases run.last with ⟨_, since⟩ | ⟨_, _, _, _, _, _, _, _, _, _, more, _⟩
    · rcases run'.last with ⟨_, since'⟩ | ⟨_, _, _, _, _, _, _, _, _, _, more, _⟩
      · exact ⟨empty.trans empty'.symm, since.symm.trans since'⟩
      · simp [empty'] at more
    · simp [empty] at more
  | succ k ih =>
    rcases run.last with
      ⟨rfl, _⟩ | ⟨w₀, seen₀, r, a, g, before, asked, constructs, admissible, answered, rfl, since⟩
    · cases count
    · rcases run'.last with ⟨rfl, _⟩ | ⟨w₀', seen₀', r', a', g', before', asked', _, admissible',
        answered', rfl, since'⟩
      · cases steps.symm.trans count
      · simp only [List.length_append, List.length_singleton] at steps count
        obtain ⟨rfl, earlier⟩ := ih before before' (by omega) (by omega)
        cases asked.symm.trans asked'
        obtain ⟨rfl, level⟩ := call_level before.passed.invariant.sound
          before'.passed.invariant.sound earlier constructs admissible admissible' answered
          answered'
        exact ⟨rfl, since.symm.trans (level.trans since')⟩

/-- Runs that have been built alike and end with a forward pass show the same. -/
theorem Passed.concur {seed : Int} (passed : Passed seed w) (passed' : Passed seed w')
    (level : Level w w') (answered : (forward : GraphM α Unit) w.graph = .ok () g)
    (answered' : (forward : GraphM α Unit) w'.graph = .ok () g') :
    Alike w.known true g g' := by
  have ended := forward_computed passed.invariant.sound answered
  have ended' := forward_computed passed'.invariant.sound answered'
  obtain ⟨after, none⟩ := passed.complete answered
  obtain ⟨after', none'⟩ := passed'.complete answered'
  have known : knownAfter w.known .done = w.known := knownAfter_of_none rfl
  have known' : knownAfter w'.known .done = w.known :=
    (knownAfter_of_none rfl).trans level.known.symm
  have levels : Abreast g g' :=
    (forward_level passed.invariant.sound answered).abreast.symm.trans
      (level.abreast.trans (forward_level passed'.invariant.sound answered').abreast)
  -- both graphs show what one pass over the whole tape draws
  obtain ⟨done, d, tape, draws, shows'⟩ := after.draws
  obtain ⟨done', d', tape', draws', shows''⟩ := after'.draws
  simp only [next, none, none', List.append_nil] at tape tape'
  have same : done = done' := tape.symm.trans ((congrArg Tape.toList levels.tape).trans tape')
  subst same
  cases draws.symm.trans draws'
  simp only [next, known, known'] at shows' shows''
  refine shows'.common shows'' ?_ fun n mem inner => ?_
  · have face := congrArg (fun face : Outline α => { face with forwarded := true }) levels
    have marked : { g.face with forwarded := true } = g.face := congrArg (fun forwarded =>
      { g.face with forwarded }) ended.2.1.symm
    have marked' : { g'.face with forwarded := true } = g'.face := congrArg (fun forwarded =>
      { g'.face with forwarded }) ended'.2.1.symm
    exact marked.symm.trans (face.trans marked')
  · have wf : WellFormed (knownAfter w.known .done) g := after.invariant.sound.toWellFormed
    have on : n ∈ g.tape.toList := by
      refine (on_or_free wf after.first (known.symm ▸ mem)).resolve_right ?_
      rintro ⟨_, leaf⟩
      cases inner.symm.trans leaf
    have on' : n ∈ g'.tape.toList := levels.tape ▸ on
    rw [ended.2.2 n on, ended'.2.2 n on']

/-- Forward passes do not show. Two runs of as many calls of one plan, each with any forward
passes in between, and with a forward pass at the end that ends: the calls have had the same
answers, the generator of random numbers is in the same state, and every leaf, the parameters
among them, has the same value or none. Every node of the tape answers the same value on both
graphs, and so does every other node that answers one. Backward passes from the same roots
that end leave the same gradients of leaves. -/
theorem schedule_invisible (run : Interleaved plan serial settings w seen)
    (run' : Interleaved plan serial settings w' seen') (steps : seen.length = seen'.length)
    (answered : (forward : GraphM α Unit) w.graph = .ok () g)
    (answered' : (forward : GraphM α Unit) w'.graph = .ok () g') :
    seen = seen' ∧ w.known = w'.known ∧ g.tape = g'.tape ∧ g.parameters = g'.parameters ∧
      g.random = g'.random ∧
      (∀ n, w.known n → n.isLeaf = true → g.held? n.id = g'.held? n.id) ∧
      (∀ n ∈ g.tape.toList, ∃ t h h',
        value (.node n) g = .ok t h ∧ value (.node n) g' = .ok t h') ∧
      (∀ n, w.known n → ∀ t,
        (∃ h, value (.node n) g = .ok t h) ↔ ∃ h', value (.node n) g' = .ok t h') ∧
      ∀ roots seeds h h', (∀ n ∈ roots.nodes, n.graph = g.serial → w.known n) →
        backward roots seeds g = .ok () h → backward roots seeds g' = .ok () h' →
        h.random = h'.random ∧ ∀ n, w.known n → n.isLeaf = true →
          h.held? n.id = h'.held? n.id ∧ h.grad? n.id = h'.grad? n.id := by
  obtain ⟨same, level⟩ := run.level run' steps
  have alike := run.passed.concur run'.passed level answered answered'
  have faithful := run.passed.faithful answered
  have faithful' : Faithful w.known g' := level.known ▸ run'.passed.faithful answered'
  refine ⟨same, level.known, alike.tape, alike.parameters, alike.random, alike.value, ?_, ?_, ?_⟩
  · intro n on
    have computed := (forward_computed run.passed.invariant.sound answered).2.2 n on
    obtain ⟨t, h, answers, _⟩ := value_of_computed faithful on computed
    have mem := faithful.known_of_tape on
    obtain ⟨h', answers'⟩ := value_answers faithful faithful' alike mem answers
    exact ⟨t, h, h', answers, answers'⟩
  · intro n mem t
    constructor
    · rintro ⟨h, answers⟩
      exact value_answers faithful faithful' alike mem answers
    · rintro ⟨h', answers'⟩
      exact value_answers faithful' faithful alike.symm mem answers'
  · intro roots seeds h h' known first second
    have after := backward_alike faithful faithful' alike known first second
    exact ⟨after.random, fun n mem leaf => ⟨after.value n mem leaf, after.grad rfl n mem leaf⟩⟩

end World

/-! ### An example -/

namespace Sample

open ReverseMode.Graph World

/-- Every leaf gets the next state of the generator. -/
def stateful : Initializer Int where
  run shape _ random := .ok (.full shape.extents random.next.state.toNat, random.next)

def weight : Node Int := .leaf (stamp 0 none (some name)) stateful

def offset : Node Int :=
  .leaf { stamp 1 (some 0) none with trainable := .ofBool false } stateful

def mixed : Node Int := .apply (stamp 2 (some 0) none) (.joint .mult) [weight, offset]

def lifted : Node Int := .apply (stamp 3 (some 0) none) (.joint .plus) [mixed, offset]

def merged : Node Int := .apply (stamp 4 (some 0) none) (.joint .mult) [mixed, weight]

/-- The product of a parameter and a constant, both of them drawn, is checkpointed and used
twice. -/
def drafts : List (Request Int) :=
  [.parameter name x.shape (.ok stateful) (.ok none) (.ofBool true),
    .constant x.shape stateful (.ok none) none,
    .add (.joint .mult) [.node weight, .node offset],
    .checkpoint mixed,
    .add (.joint .plus) [.node mixed, .node offset],
    .add (.joint .mult) [.node mixed, .node weight]]

def draft : Plan Int := fun seen => drafts[seen.length]?

/-- What all but the last call answer. -/
def drafted : List (Answer Int) :=
  [.node weight, .node offset, .node mixed, .node mixed, .node lifted]

def seeded : Settings := { type := .float64, seed := 7 }

/-- All but the last call. -/
def begun : World Int :=
  let w : World Int := start 0 seeded
  let w := w.next drafts[0] (.node weight) (w.graph.registered weight)
  let w := w.next drafts[1] (.node offset) (w.graph.recorded offset)
  let w := w.next drafts[2] (.node mixed) (w.graph.recorded mixed)
  let w := w.next drafts[3] (.node mixed)
    (w.graph.modifySlot mixed.id fun s => { s with checkpoint := true })
  w.next drafts[4] (.node lifted) (w.graph.recorded lifted)

/-- The last call. -/
def finished (w : World Int) : World Int :=
  w.next drafts[5] (.node merged) (w.graph.recorded merged)

theorem begun_run : Interleaved draft 0 seeded begun drafted := by
  refine .call (.call (.call (.call (.call .start rfl rfl ?_ rfl) rfl rfl ?_ rfl) rfl rfl ?_ rfl)
    rfl rfl ?_ rfl) rfl rfl ?_ rfl
  · intro n inside
    cases inside
  · intro n inside
    cases inside
  · intro n inside _
    simp [Request.nodes, Input.nodes, drafts] at inside
    rcases inside with rfl | rfl
    · exact .inl (.inr rfl)
    · exact .inr rfl
  · intro n inside _
    simp [Request.nodes, drafts] at inside
    exact .inr (congrArg some inside.symm)
  · intro n inside _
    simp [Request.nodes, Input.nodes, drafts] at inside
    rcases inside with rfl | rfl
    · exact .inr rfl
    · exact .inl (.inl (.inr rfl))

/-- The last call after a pass or without one. -/
theorem finished_run {w : World Int} (run : Interleaved draft 0 seeded w drafted)
    (mixed' : w.known mixed) (weight' : w.known weight)
    (answered : drafts[5].call w.graph = .ok (.node merged) (w.graph.recorded merged)) :
    Interleaved draft 0 seeded (finished w) (drafted ++ [.node merged]) := by
  refine .call run rfl rfl ?_ answered
  intro n inside _
  simp [Request.nodes, Input.nodes, drafts] at inside
  rcases inside with rfl | rfl
  · exact mixed'
  · exact weight'

theorem begun_passes : (forward : GraphM Int Unit) begun.graph =
    .ok () (following begun .forward).graph := by
  have passed := eq_of_ends (r := (Request.forward : Request Int).call begun.graph)
    (by decide +kernel)
  obtain ⟨_, ran, _⟩ := answer_return.mp passed
  exact ran

/-- The pass builds nothing, so the last call is answered as without it. -/
theorem begun_answers : drafts[5].call (following begun .forward).graph =
    .ok (.node merged) ((following begun .forward).graph.recorded merged) := by
  have abreast : Abreast begun.graph (following begun .forward).graph :=
    (forward_level begun_run.passed.invariant.sound begun_passes).abreast
  refine answer_return.mpr ⟨merged, add_answer.mpr ⟨[mixed, weight], ⟨x.shape, .float64⟩, ?_, rfl,
    .inr ⟨?_, ?_, rfl⟩⟩, rfl⟩
  · rw [← checkInput_congr abreast.serial abreast.episode]
    rfl
  · rw [← abreast.found?]
    rfl
  · rw [application, ← abreast.serial, ← abreast.size, ← abreast.episode]
    rfl

/-- All is built before the first pass. -/
theorem patient_run :
    Interleaved draft 0 seeded (finished begun) (drafted ++ [.node merged]) :=
  finished_run begun_run (.inl (.inr rfl)) (.inl (.inl (.inl (.inl (.inr rfl))))) rfl

/-- A pass comes before the last call. -/
theorem hasty_run : Interleaved draft 0 seeded (finished (following begun .forward))
    (drafted ++ [.node merged]) :=
  finished_run (.pass begun_run begun_passes) (.inl (.inl (.inr rfl)))
    (.inl (.inl (.inl (.inl (.inl (.inr rfl)))))) begun_answers

/-- After a pass in between, the last pass computes the product again. What has been drawn is the
same. -/
theorem patient_hasty :
    (after (forward (finished begun).graph)).recomputations = 0 ∧
      (after (forward (finished (following begun .forward)).graph)).recomputations = 1 ∧
      ∃ g g', (forward : GraphM Int Unit) (finished begun).graph = .ok () g ∧
        (forward : GraphM Int Unit) (finished (following begun .forward)).graph = .ok () g' ∧
        g.random = g'.random ∧ g.held? weight.id = g'.held? weight.id := by
  have ended := eq_of_ends (r := (Request.forward : Request Int).call (finished begun).graph)
    (by decide +kernel)
  have ended' := eq_of_ends
    (r := (Request.forward : Request Int).call (finished (following begun .forward)).graph)
    (by decide +kernel)
  obtain ⟨_, passed, _⟩ := answer_return.mp ended
  obtain ⟨_, passed', _⟩ := answer_return.mp ended'
  obtain ⟨_, _, _, _, random, leaves, _⟩ :=
    schedule_invisible patient_run hasty_run rfl passed passed'
  refine ⟨by decide +kernel, by decide +kernel, _, _, passed, passed', random, ?_⟩
  exact leaves weight (.inl (.inl (.inl (.inl (.inl (.inr rfl)))))) rfl

end Sample

end ReverseMode
