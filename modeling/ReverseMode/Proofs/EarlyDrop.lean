import ReverseMode.Proofs.Consumers
import ReverseMode.Proofs.Filling
import ReverseMode.Proofs.Values

/-!
What forward passes drop early.

A forward pass counts the consumers that it computes. A node that may be dropped early is dropped
after the last of them, also if its value had been dropped before and has been computed again for
the first of them. What such a node takes in turn is not counted: a pass that computes a node again
makes the values of its inputs available, and these stay if no other consumer is computed after
them. All other nodes that may be dropped early hold no value after a pass.
-/

namespace ReverseMode

variable {α : Type}

namespace Graph

variable [Element α] {known : Node α → Prop} {g g' g₀ : Graph α} {S : Node α → Prop}

/-- The consumers of a node that a forward pass computes all come before another node. -/
def Past (g : Graph α) (n c : Node α) : Prop := ∀ m ∈ g.uncomputed, c ∈ m.inputs → m.id < n.id

/-- The nodes that a forward pass computes again when it comes to a node, or may have to: inputs of
it without a value, and from there on inputs that have none or that the pass has dropped. -/
inductive Recalled (g : Graph α) (n : Node α) : Node α → Prop
  | input {c : Node α} (input : c ∈ n.inputs) (inner : c.isLeaf = false)
      (computed : (g.slot c.id).computed = true) (absent : (g.slot c.id).value = none) :
      Recalled g n c
  | beneath {c' c : Node α} (above : Recalled g n c') (input : c ∈ c'.inputs)
      (inner : c.isLeaf = false)
      (absent : (g.slot c.id).value = none ∨ g.dropsEarly c = true ∧ Past g n c) : Recalled g n c

/-- The node is an input of one that a forward pass computes again after it has computed the last
consumer of the node, if there is any. -/
def Behind (g : Graph α) (m : Node α) : Prop :=
  ∃ n ∈ g.uncomputed, Past g n m ∧ ∃ c, Recalled g n c ∧ m ∈ c.inputs

/-- Nodes that may keep a value over a forward pass although they are to be dropped early: those
behind nodes that it computes again, and those that kept one before and are not counted. -/
def Stranded (S : Node α → Prop) (g : Graph α) (n : Node α) : Prop :=
  Behind g n ∨ S n ∧ ∀ m ∈ g.uncomputed, n ∉ m.inputs

/-- Nodes to be dropped early that a computed node takes hold no value, but for the given ones. -/
def Freed (known S : Node α → Prop) (g : Graph α) : Prop :=
  ∀ n, known n → g.dropsEarly n = true → (g.slot n.id).value.isSome →
    (∃ m ∈ g.tape.toList, (g.slot m.id).computed = true ∧ n ∈ m.inputs) → S n

/-! ### One step -/

omit [Element α] in
theorem dropsEarly_congr {n : Node α} (settings : g'.settings = g.settings)
    (retained : (g'.slot n.id).retained = (g.slot n.id).retained)
    (checkpoint : (g'.slot n.id).checkpoint = (g.slot n.id).checkpoint) :
    g'.dropsEarly n = g.dropsEarly n := by
  rw [dropsEarly, dropsEarly, releasable, releasable, settings, retained, checkpoint]

omit [Element α] in
/-- Counting down changes no flags. -/
theorem CountsDown.dropsEarly {may : Graph α → Node α → Bool} {is : List (Node α)} {p p' : Pending}
    (down : CountsDown may is p p' g g') (n : Node α) : g'.dropsEarly n = g.dropsEarly n := by
  have settings := settings_of_outline down.outline
  rcases down.slot_or n.id with same | ⟨_, _, _, _, _, slot⟩
  · exact dropsEarly_congr settings (by rw [same]) (by rw [same])
  · exact dropsEarly_congr settings (by rw [slot]) (by rw [slot])

omit [Element α] in
/-- What has been made available and computed keeps its flags. -/
theorem computed_dropsEarly {Q : Node α → Prop} {n : Node α} {g₁ g₂ : Graph α} {held : Held α}
    (fills : Fills Q g g₁) (outline : g₂.outline = g.outline)
    (slots : g₂.slot = Function.update g₁.slot n.id
      { g₁.slot n.id with value := some held, computed := true })
    (m : Node α) : g₂.dropsEarly m = g.dropsEarly m := by
  have settings := settings_of_outline outline
  by_cases same : m.id = n.id
  · refine dropsEarly_congr settings ?_ ?_
    · rw [slots, same, Function.update_self, ← fills.retained]
    · rw [slots, same, Function.update_self, ← fills.checkpoint]
  · refine dropsEarly_congr settings ?_ ?_
    · rw [slots, Function.update_of_ne same, fills.retained]
    · rw [slots, Function.update_of_ne same, fills.checkpoint]

omit [Element α] in
/-- What the step of a node in a forward pass leaves of values, if what it makes available for the
node belongs to a set. -/
structure Advances (known Q : Node α → Prop) (n : Node α) (p p' : Pending) (g g' : Graph α) :
    Prop where
  outline : g'.outline = g.outline
  size : p'.counts.size = p.counts.size
  counts : ∀ {rest}, p.Matches (n :: rest) → p'.Matches rest
  early : ∀ m, g'.dropsEarly m = g.dropsEarly m
  self : (g'.slot n.id).value.isSome
  /-- A value with a consumer to come stays. -/
  kept : ∀ {id}, p'.count id ≠ 0 → (g.slot id).value.isSome → (g'.slot id).value.isSome
  lost : ∀ {m}, known m → (g'.slot m.id).value = none →
    (g.slot m.id).value = none ∨ g.dropsEarly m = true ∧ p'.count m.id = 0
  /-- An input without a consumer to come is dropped. -/
  dropped : ∀ {m}, known m → m ∈ n.inputs → p'.count m.id = 0 → g.dropsEarly m = true →
    (g'.slot m.id).value = none
  origin : ∀ {m}, known m → m ∉ n.inputs → (g'.slot m.id).value.isSome →
    m = n ∨ (g.slot m.id).value.isSome ∨ Q m

theorem forwardStep_advances {Q : Node α → Prop} {n : Node α} {p p' : Pending}
    (wf : WellFormed known g) (here : known n) (fits : p.counts.size = g.slots.size)
    (inner : ∀ m, Q m → known m)
    (fills : ∀ g₁, n.distinctInputs.forM ensure g = .ok () g₁ → Fills Q g g₁)
    (answered : forwardStep n p g = .ok p' g') : Advances known Q n p p' g g' := by
  obtain ⟨g₁, g₂, held, fills, outline, slots, down⟩ :=
    forwardStep_parts wf here fits fills answered
  have early := computed_dropsEarly fills outline slots
  have inputs : ∀ i ∈ n.distinctInputs, known i ∧ i ∈ n.inputs := fun i input =>
    have taken := mem_inputs_of_distinct input
    ⟨wf.known_inputs here taken, taken⟩
  have self : (g₂.slot n.id).value.isSome := by
    rw [slots, Function.update_self]
    rfl
  have others : ∀ {id}, id ≠ n.id → g₂.slot id = g₁.slot id := fun other => by
    rw [slots, Function.update_of_ne other]
  have apart : ∀ {m}, known m → m ∉ n.inputs → g'.slot m.id = g₂.slot m.id := by
    intro m mem outside
    refine down.kept m.id fun i input same => ?_
    obtain rfl := wf.unique (inputs i input).1 mem same
    exact absurd (inputs i input).2 outside
  constructor
  · exact down.outline.trans outline
  · exact down.size
  · exact down.matches
  · exact fun m => (down.dropsEarly m).trans (early m)
  · rw [apart here fun input => Nat.lt_irrefl _ (wf.inputs here input).2]
    exact self
  · intro id more before
    rw [down.kept id fun _ _ _ none => absurd none more]
    by_cases same : id = n.id
    · rwa [same]
    · rw [others same]
      exact fills.held before
  · intro m mem absent
    rcases down.slot_or m.id with same | ⟨i, input, same, none, may, _⟩
    · rw [same] at absent
      have other : m.id ≠ n.id := by
        intro here
        rw [here] at absent
        rw [absent] at self
        cases self
      rw [others other] at absent
      exact .inl (fills.absent absent)
    · obtain rfl := wf.unique (inputs i input).1 mem same
      exact .inr ⟨(early i).symm.trans may, none⟩
  · intro m mem taken none may
    obtain ⟨i, input, same⟩ := mem_distinct taken
    obtain rfl := wf.unique (inputs i input).1 mem same
    rw [down.dropped i input none ((early i).trans may)]
  · intro m mem outside after
    by_cases same : m.id = n.id
    · exact .inl (wf.unique mem here same)
    · right
      rw [apart mem outside, others same] at after
      refine (fills.origin after).imp_right ?_
      rintro ⟨j, inside, same⟩
      obtain rfl := wf.unique (inner j inside) mem same
      exact inside

/-! ### During a pass -/

/-- What holds during a forward pass from a graph, when some nodes are still to be computed. -/
structure Passing (known S : Node α → Prop) (g₀ : Graph α) (ns : List (Node α)) (p : Pending)
    (g : Graph α) : Prop where
  outline : g.outline = g₀.outline
  due : ∀ n ∈ ns, n ∈ g₀.uncomputed
  sorted : ns.Pairwise fun m n => m.id < n.id
  done : ∀ m ∈ g₀.uncomputed, m ∈ ns ∨ ∀ n ∈ ns, m.id < n.id
  fits : p.counts.size = g.slots.size
  matched : p.Matches ns
  early : ∀ n, g.dropsEarly n = g₀.dropsEarly n
  /-- Values are lost by dropping them early, after the last consumer. -/
  lost : ∀ n, known n → (g.slot n.id).value = none →
    (g₀.slot n.id).value = none ∨ g₀.dropsEarly n = true ∧ consumers ns n.id = 0
  /-- What is missing for a node to come was missing from the start. -/
  inputs : ∀ n ∈ ns, ∀ i ∈ n.inputs, i.isLeaf = false → i ∈ ns ∨ (g.slot i.id).value.isSome ∨
    (g₀.slot i.id).computed = true ∧ (g₀.slot i.id).value = none
  /-- What is held and to be dropped early has a consumer to come. -/
  freed : ∀ n, known n → g₀.dropsEarly n = true → (g.slot n.id).value.isSome →
    (∃ m ∈ g₀.tape.toList, n ∈ m.inputs ∧ m ∉ ns) → ¬ Stranded S g₀ n → 0 < consumers ns n.id

namespace Passing

variable {n : Node α} {ns rest : List (Node α)} {p p' : Pending}

omit [Element α] in
/-- A forward pass starts with what is missing, and with what is held against the rule. -/
theorem start (sound : Sound known g) (freed : Freed known S g) :
    Passing known S g g.uncomputed (Pending.start g.slots.size g.uncomputed) g := by
  have wf := sound.toWellFormed
  have mem := known_uncomputed wf
  obtain ⟨fits, matched⟩ := wf.start_matches mem
  refine ⟨rfl, fun _ => id, uncomputed_sorted wf, fun _ => .inl, fits, matched, fun _ => rfl,
    fun _ _ => .inl, fun n due i input inner => ?_, fun n known early held consumer apart => ?_⟩
  · have on : i ∈ g.tape.toList := by
      rcases wf.tape_inputs (mem_uncomputed.mp due).1 input with on | ⟨_, leaf⟩
      · exact on
      · cases inner.symm.trans leaf
    cases computed : (g.slot i.id).computed with
    | false => exact .inl (mem_uncomputed.mpr ⟨on, computed⟩)
    | true =>
      cases value : (g.slot i.id).value with
      | some held => exact .inr (.inl rfl)
      | none => exact .inr (.inr ⟨rfl, rfl⟩)
  · obtain ⟨m, on, input, past⟩ := consumer
    have computed : (g.slot m.id).computed = true := by
      by_contra fresh
      exact past (mem_uncomputed.mpr ⟨on, by simpa using fresh⟩)
    have kept := freed n known early held ⟨m, on, computed, input⟩
    by_contra none
    refine apart (.inr ⟨kept, fun m due input => none ?_⟩)
    exact consumers_pos due input rfl

omit [Element α] in
/-- What has no consumer to come has only had consumers before the first node. -/
theorem past (passing : Passing known S g₀ (n :: rest) p g) {m : Node α}
    (none : consumers (n :: rest) m.id = 0) : Past g₀ n m := by
  intro c due input
  rcases passing.done c due with inside | older
  · exact absurd rfl (consumers_eq_zero.mp none c inside m input)
  · exact older n (by simp)

/-- What is made available for the first node are its inputs, and inputs of nodes that are
computed again for it. -/
theorem fills (passing : Passing known S g₀ (n :: rest) p g) (sound : Sound known g₀)
    {g₁ : Graph α} (ready : n.distinctInputs.forM ensure g = .ok () g₁) :
    Fills (fun m => known m ∧ (m ∈ n.inputs ∨ ∃ c, Recalled g₀ n c ∧ m ∈ c.inputs)) g g₁ := by
  have wf := sound.toWellFormed.of_outline passing.outline
  have here := known_uncomputed sound.toWellFormed n (passing.due n (by simp))
  have closed : ClosedIn
      (fun m => known m ∧ (m ∈ n.inputs ∨ ∃ c, Recalled g₀ n c ∧ m ∈ c.inputs)) g := by
    rintro m ⟨mem, reason⟩ absent j input
    have inner : m.isLeaf = false := by
      cases m with
      | leaf => cases input
      | apply => rfl
    refine ⟨wf.known_inputs mem input, .inr ⟨m, ?_, input⟩⟩
    rcases reason with taken | ⟨c, above, taken⟩
    · rcases passing.inputs n (by simp) m taken inner with among | held | ⟨computed, missing⟩
      · -- an input is older than the nodes to come
        have older := (wf.inputs here taken).2
        rcases List.mem_cons.mp among with rfl | later
        · omega
        · have := (List.pairwise_cons.mp passing.sorted).1 m later
          omega
      · rw [absent] at held
        cases held
      · exact .input taken inner computed missing
    · refine .beneath above taken inner ((passing.lost m mem absent).imp_right ?_)
      exact And.imp_right passing.past
  have filling : Leads (Filling known
      (fun m => known m ∧ (m ∈ n.inputs ∨ ∃ c, Recalled g₀ n c ∧ m ∈ c.inputs)) n.id)
      (n.distinctInputs.forM ensure) := by
    refine ensureEach_filling (v := fun i => i) (fun _ mem => mem.1) fun i input => ?_
    have taken := mem_inputs_of_distinct input
    exact ⟨⟨wf.known_inputs here taken, .inl taken⟩, (wf.inputs here taken).2⟩
  have fills := filling g wf closed
  rw [ready, after_ok] at fills
  exact fills.mono fun _ inside => inside.1

omit [Element α] in
/-- The consumers of the first node are still to come. -/
theorem consumer (passing : Passing known S g₀ (n :: rest) p g) (sound : Sound known g₀)
    {m : Node α} (on : m ∈ g₀.tape.toList) (input : n ∈ m.inputs) : m ∈ rest := by
  have wf := sound.toWellFormed
  obtain ⟨onN, fresh⟩ := mem_uncomputed.mp (passing.due n (by simp))
  have newer := (wf.inputs (wf.known_of_tape on) input).2
  cases computed : (g₀.slot m.id).computed with
  | true =>
    have done := sound.computedInputs on computed input
    cases fresh.symm.trans done
  | false =>
    rcases passing.done m (mem_uncomputed.mpr ⟨on, computed⟩) with inside | older
    · rcases List.mem_cons.mp inside with rfl | later
      · omega
      · exact later
    · have := older n (by simp)
      omega

/-- The step of the first node keeps what holds during the pass. -/
theorem step (passing : Passing known S g₀ (n :: rest) p g) (sound : Sound known g₀)
    (answered : forwardStep n p g = .ok p' g') : Passing known S g₀ rest p' g' := by
  have wf₀ := sound.toWellFormed
  have wf := wf₀.of_outline passing.outline
  have due := passing.due n (by simp)
  have here := known_uncomputed wf₀ n due
  obtain ⟨older, sorted⟩ := List.pairwise_cons.mp passing.sorted
  have steps := forwardStep_advances wf here passing.fits (fun _ inside => inside.1)
    (fun _ => passing.fills sound) answered
  have matched := steps.counts passing.matched
  constructor
  · exact steps.outline.trans passing.outline
  · exact fun m inside => passing.due m (by simp [inside])
  · exact sorted
  · intro m due
    rcases passing.done m due with inside | before
    · rcases List.mem_cons.mp inside with rfl | later
      · exact .inr older
      · exact .inl later
    · exact .inr fun m' inside => before m' (by simp [inside])
  · rw [steps.size, passing.fits, size_of_outline steps.outline]
  · exact matched
  · exact fun m => (steps.early m).trans (passing.early m)
  · intro m mem absent
    rcases steps.lost mem absent with before | ⟨may, none⟩
    · refine (passing.lost m mem before).imp_right (And.imp_right fun none => ?_)
      rw [consumers_cons] at none
      exact (Nat.add_eq_zero_iff.mp none).1
    · rw [matched, Int.natCast_eq_zero] at none
      exact .inr ⟨(passing.early m).symm.trans may, none⟩
  · intro m inside i input inner
    rcases passing.inputs m (by simp [inside]) i input inner with among | held | missing
    · rcases List.mem_cons.mp among with rfl | later
      · exact .inr (.inl steps.self)
      · exact .inl later
    · refine .inr (.inl (steps.kept ?_ held))
      rw [matched]
      exact Int.natCast_ne_zero.mpr (Nat.ne_of_gt (consumers_pos inside input rfl))
    · exact .inr (.inr missing)
  · intro m mem may held consumer notStranded
    obtain ⟨c, on, input, past⟩ := consumer
    by_contra none
    have none : consumers rest m.id = 0 := Nat.eq_zero_of_not_pos none
    -- an input of the node would have been dropped
    have outside : m ∉ n.inputs := by
      intro taken
      have absent := steps.dropped mem taken (by rw [matched, none]; rfl)
        ((passing.early m).trans may)
      rw [absent] at held
      cases held
    have apart : n.takes m.id = false := by
      rw [Bool.eq_false_iff]
      intro takes
      obtain ⟨i, taken, same⟩ := Node.takes_iff.mp takes
      obtain rfl := wf.unique (wf.known_inputs here taken) mem same
      exact outside taken
    have none' : consumers (n :: rest) m.id = 0 := by
      rw [consumers_cons, apart, none]
      rfl
    rcases steps.origin mem outside held with rfl | before | ⟨_, taken | ⟨c', recalled, taken⟩⟩
    · exact past (passing.consumer sound on input)
    · have later : c ∉ n :: rest := fun inside =>
        consumers_eq_zero.mp none' c inside m input rfl
      have more := passing.freed m mem may before ⟨c, on, input, later⟩ notStranded
      exact absurd none' (Nat.ne_of_gt more)
    · exact outside taken
    · exact notStranded (.inl ⟨n, due, passing.past none', c', recalled, taken⟩)

/-- What holds when a forward pass ends. -/
theorem runs (passing : Passing known S g₀ ns p g) (sound : Sound known g₀)
    (answered : forwardFrom ns p g = .ok () g') : ∃ p', Passing known S g₀ [] p' g' := by
  induction ns generalizing g p with
  | nil =>
    obtain ⟨_, rfl⟩ := answer_pure.mp answered
    exact ⟨p, passing⟩
  | cons n rest ih =>
    rw [forwardFrom_cons, answer_bind] at answered
    obtain ⟨p₁, g₁, stepped, answered⟩ := answered
    exact ih (passing.step sound stepped) answered

end Passing

/-- A forward pass changes neither the tape nor what construction reads. -/
theorem forward_outline (sound : Sound known g)
    (answered : (forward : GraphM α Unit) g = .ok () g') : g'.outline = g.marked.outline := by
  obtain ⟨g₁, passed, quiet⟩ := forward_passes answered
  have changes := (forwardFrom_uncomputed_computed sound passed).1
  refine quiet.outline.trans ?_
  change { g₁.outline with forwarded := true } = { g.outline with forwarded := true }
  rw [Changes.outline changes]

/-- After a forward pass nodes to be dropped early that are taken on the tape hold no value, but
for those that are stranded. -/
theorem forward_freed (sound : Sound known g) (freed : Freed known S g)
    (answered : (forward : GraphM α Unit) g = .ok () g') :
    g'.tape = g.tape ∧ ∀ n, known n → g'.dropsEarly n = true → (g'.slot n.id).value.isSome →
      (∃ m ∈ g.tape.toList, n ∈ m.inputs) → Stranded S g n := by
  obtain ⟨g₁, passed, quiet⟩ := forward_passes answered
  obtain ⟨_, passing⟩ := (Passing.start sound freed).runs sound passed
  have slots : g'.slot = g₁.slot := quiet.slots
  have outline := forward_outline sound answered
  refine ⟨(tape_of_outline outline : g'.tape = g.marked.tape), fun n mem may held consumer => ?_⟩
  obtain ⟨m, on, input⟩ := consumer
  by_contra notStranded
  rw [slots] at held
  have early : g'.dropsEarly n = g₁.dropsEarly n := by
    refine dropsEarly_congr ?_ (by rw [slots]) (by rw [slots])
    have settings : g'.settings = g₁.marked.settings := settings_of_outline quiet.outline
    exact settings
  have none := passing.freed n mem ((passing.early n).symm.trans (early.symm.trans may)) held
    ⟨m, on, input, by simp⟩ notStranded
  exact absurd none (Nat.lt_irrefl 0)

/-! ### Between passes -/

omit [Element α] in
/-- A new node has no value, and what takes it or is taken by it has not been computed. -/
theorem Freed.with (freed : Freed known S g) {n : Node α} (admits : Admits known g n)
    (settings : g'.settings = g.settings) (slots : g'.slot = g.slot)
    (tape : ∀ m ∈ g'.tape.toList, m ∈ g.tape.toList ∨ m = n) : Freed (With known n) S g' := by
  have empty : g.slot n.id = {} := by
    rw [admits.id]
    exact slot_size g
  intro m mem may held consumer
  rw [slots] at held
  rcases mem with rfl | mem
  · rw [empty] at held
    cases held
  · obtain ⟨c, on, computed, input⟩ := consumer
    rw [slots] at computed
    refine freed m mem ?_ held ⟨c, ?_, computed, input⟩
    · rw [← may, dropsEarly_congr settings (by rw [slots]) (by rw [slots])]
    · refine (tape c on).resolve_right ?_
      rintro rfl
      rw [empty] at computed
      cases computed

omit [Element α] in
/-- A flag is set that makes no node that holds a value one to be dropped early. -/
theorem Freed.modifySlot (freed : Freed known S g) (wf : WellFormed known g) {n : Node α}
    (mem : known n) {f : Slot α → Slot α}
    (value : (f (g.slot n.id)).value = (g.slot n.id).value)
    (computed : (f (g.slot n.id)).computed = (g.slot n.id).computed)
    (may : (g.modifySlot n.id f).dropsEarly n = true → (g.slot n.id).value.isSome →
      g.dropsEarly n = true) : Freed known S (g.modifySlot n.id f) := by
  have slots := slot_modifySlot (wf.bound mem) f
  have kept : ∀ {β : Type} (part : Slot α → β), part (f (g.slot n.id)) = part (g.slot n.id) →
      ∀ id, part ((g.modifySlot n.id f).slot id) = part (g.slot id) := by
    intro β part steady id
    rw [slots]
    by_cases same : id = n.id
    · rw [same, Function.update_self, steady]
    · rw [Function.update_of_ne same]
  intro m mem' may' held consumer
  rw [kept Slot.value value] at held
  obtain ⟨c, on, done, input⟩ := consumer
  refine freed m mem' ?_ held ⟨c, on, (kept Slot.computed computed c.id).symm.trans done, input⟩
  by_cases same : m.id = n.id
  · obtain rfl := wf.unique mem' mem same
    exact may may' held
  · have slot : (g.modifySlot n.id f).slot m.id = g.slot m.id := by
      rw [slots, Function.update_of_ne same]
    have early : (g.modifySlot n.id f).dropsEarly m = g.dropsEarly m :=
      dropsEarly_congr rfl (by rw [slot]) (by rw [slot])
    exact early.symm.trans may'

end Graph

/-! ### Programs -/

namespace World

open ReverseMode.Graph

variable [Element α] {w : World α} {g : Graph α} {S : Node α → Prop}

/-- Worlds that come about by construction calls, by marking nodes to be dropped early before
they are computed, by retaining nodes, and by forward passes that end; with the nodes that may
have been stranded by the passes. -/
inductive Extended : (Node α → Prop) → World α → Prop
  | start (serial : Nat) (settings : Settings) : Extended (fun _ => False) (start serial settings)
  | build {S : Node α → Prop} {w : World α} {r : Request α} {a : Answer α} {g : Graph α}
      (extended : Extended S w) (builds : r.builds = true) (admissible : w.Admissible r)
      (answered : r.call w.graph = .ok a g) : Extended S (w.next r a g)
  | refuse {S : Node α → Prop} {w : World α} {r : Request α} {f : Fault} {g : Graph α}
      (extended : Extended S w) (builds : r.builds = true) (admissible : w.Admissible r)
      (raised : r.call w.graph = .error f g) : Extended S ⟨g, w.known, w.fresh⟩
  | checkpoint {S : Node α → Prop} {w : World α} {n : Node α} {a : Answer α} {g : Graph α}
      (extended : Extended S w) (anew : (w.graph.slot n.id).computed = false)
      (admissible : w.Admissible (.checkpoint n))
      (answered : (Request.checkpoint n).call w.graph = .ok a g) :
      Extended S (w.next (.checkpoint n) a g)
  | retain {S : Node α → Prop} {w : World α} {n : Input α} {a : Answer α} {g : Graph α}
      (extended : Extended S w) (admissible : w.Admissible (.retain n))
      (answered : (Request.retain n).call w.graph = .ok a g) : Extended S (w.next (.retain n) a g)
  | forward {S : Node α → Prop} {w : World α} {a : Answer α} {g : Graph α}
      (extended : Extended S w) (answered : Request.forward.call w.graph = .ok a g) :
      Extended (Stranded S w.graph) (w.next .forward a g)

theorem Extended.reachable (extended : Extended S w) : Reachable w := by
  induction extended with
  | start serial settings => exact .start serial settings
  | build _ _ admissible answered ih => exact .next ih admissible answered
  | refuse _ _ admissible raised ih => exact .step ih (.raise admissible raised)
  | checkpoint _ _ admissible answered ih => exact .next ih admissible answered
  | retain _ admissible answered ih => exact .next ih admissible answered
  | forward _ answered ih => exact .next ih (fun n inside => by cases inside) answered

/-- Construction keeps values of nodes to be dropped early away. -/
theorem build_freed (sound : Sound w.known w.graph) (freed : Freed w.known S w.graph)
    {r : Request α} {a : Answer α} (admissible : w.Admissible r)
    (answered : r.call w.graph = .ok a g) (builds : r.builds = true) :
    Freed (knownAfter w.known a) S g := by
  cases built_of_answer sound.toWellFormed admissible answered builds with
  | same mem =>
    rw [knownAfter_of_known mem]
    exact freed
  | @recorded n admits =>
    rw [knownAfter_node]
    refine freed.with admits rfl (slot_widened w.graph) fun m on => ?_
    have on : m ∈ w.graph.tape.toList ++ [n] := toList_push w.graph.tape n ▸ on
    simpa using on
  | registered admits =>
    rw [knownAfter_node]
    exact freed.with admits rfl (slot_widened w.graph) fun _ => .inl

theorem Extended.freed (extended : Extended S w) : Freed w.known S w.graph := by
  induction extended with
  | start serial settings => exact fun n => False.elim
  | build extended builds admissible answered ih =>
    exact build_freed extended.reachable.invariant.sound ih admissible answered builds
  | @refuse S w r f g _ builds admissible raised ih =>
    change Freed w.known S g
    rcases build_raise_cases raised builds with rfl | rfl
    · exact ih
    · intro n mem may held consumer
      have early : w.graph.widened.dropsEarly n = w.graph.dropsEarly n :=
        dropsEarly_congr rfl (by rw [slot_widened]) (by rw [slot_widened])
      rw [slot_widened] at held consumer
      exact ih n mem (early.symm.trans may) held consumer
  | @checkpoint S w n a g extended anew admissible answered ih =>
    have sound := extended.reachable.invariant.sound
    unfold World.next
    rw [call_known admissible answered rfl]
    obtain ⟨m, ran, rfl⟩ := answer_return.mp answered
    obtain ⟨rfl, used, rfl⟩ := checkpoint_answer.mp ran
    have mem := admissible n (by simp [Request.nodes]) (serial_of_checkNode used)
    change Freed w.known S _
    split
    · exact ih
    · refine Freed.modifySlot ih sound.toWellFormed mem rfl rfl fun _ held => ?_
      -- what has not been computed holds no value
      cases anew.symm.trans (sound.heldComputed mem held)
  | @retain S w n a g extended admissible answered ih =>
    have sound := extended.reachable.invariant.sound
    unfold World.next
    rw [call_known admissible answered rfl]
    obtain ⟨m, ran, rfl⟩ := answer_return.mp answered
    obtain ⟨rfl, used, rfl⟩ := retain_answer.mp ran
    have mem := admissible m (by simp [Request.nodes, Input.nodes]) (serial_of_checkNode used)
    refine Freed.modifySlot ih sound.toWellFormed mem rfl rfl fun may _ => ?_
    have slot : (w.graph.modifySlot m.id fun s => { s with retained := true }).slot m.id =
        { w.graph.slot m.id with retained := true } := by
      rw [slot_modifySlot (sound.bound mem), Function.update_self]
    simp [dropsEarly, releasable, slot] at may
  | @forward S w a g extended answered ih =>
    have sound := extended.reachable.invariant.sound
    obtain ⟨_, ran, rfl⟩ := answer_return.mp answered
    change Freed (knownAfter w.known .done) (Stranded S w.graph) g
    rw [knownAfter_of_none rfl]
    obtain ⟨tape, freed⟩ := forward_freed sound ih ran
    intro n mem may held consumer
    obtain ⟨m, on, _, input⟩ := consumer
    exact freed n mem may held ⟨m, tape ▸ on, input⟩

/-- After each forward pass of a program of construction calls and forward passes that end, an
application that is not retained, is checkpointed or on a graph for inference, and is taken by a
node of the tape holds no value. This includes nodes that the pass has computed again because a
new node takes them. It leaves out nodes that are stranded: inputs of nodes that this pass
computes again for a node that comes after their own last consumer, and nodes that an earlier pass
has left so if no new node takes them. -/
theorem forward_frees (extended : Extended S w)
    (answered : (forward : GraphM α Unit) w.graph = .ok () g) :
    ∀ n ∈ g.tape.toList, n.isLeaf = false → (g.slot n.id).retained = false →
      ((g.slot n.id).checkpoint = true ∨ g.settings.inference = true) →
      (∃ m ∈ g.tape.toList, n ∈ m.inputs) →
      (g.slot n.id).value = none ∨ Behind w.graph n ∨
        S n ∧ ∀ m ∈ w.graph.uncomputed, n ∉ m.inputs := by
  have sound := extended.reachable.invariant.sound
  obtain ⟨tape, freed⟩ := forward_freed sound extended.freed answered
  rw [tape]
  intro n on inner free marked consumer
  by_cases absent : (g.slot n.id).value = none
  · exact .inl absent
  · right
    refine freed n (sound.known_of_tape on) ?_ (Option.isSome_iff_ne_none.mpr absent) consumer
    simp [dropsEarly, releasable, inner, free, marked]

end World

/-! ### An example -/

namespace Sample

open ReverseMode.Graph World

def top : Node Int := .apply (stamp 3 (some 0) none) (.joint .mult) [sum, x]

def late : Node Int := .apply (stamp 4 (some 0) none) (.joint .mult) [sum, sum]

/-- A chain of three nodes over the parameter, of which the first two are checkpointed as soon as
they are built. -/
def stacked : World Int :=
  let w : World Int := start 0 { type := .float64 }
  let w := w.next (.parameter name x.shape (.ok (.constant 3)) (.ok none) (.ofBool true)) (.node x)
    (w.graph.registered x)
  let w := w.next (.add (.joint .mult) [.node x, .node x]) (.node square) (w.graph.recorded square)
  let w := w.next (.checkpoint square) (.node square)
    (w.graph.modifySlot square.id fun s => { s with checkpoint := true })
  let w := w.next (.add (.joint .plus) [.node square, .node x]) (.node sum) (w.graph.recorded sum)
  let w := w.next (.checkpoint sum) (.node sum)
    (w.graph.modifySlot sum.id fun s => { s with checkpoint := true })
  w.next (.add (.joint .mult) [.node sum, .node x]) (.node top) (w.graph.recorded top)

/-- A forward pass has ended. -/
def settled : Graph Int := after ((forward : GraphM Int Unit) stacked.graph)

/-- A node that takes the sum is built. -/
def grown : World Int :=
  (stacked.next .forward .done settled).next (.add (.joint .mult) [.node sum, .node sum])
    (.node late) (settled.recorded late)

/-- A second forward pass. -/
def regrown : Graph Int := after ((forward : GraphM Int Unit) grown.graph)

theorem stacked_extended : Extended (fun _ => False) stacked := by
  refine .build (.checkpoint (.build (.checkpoint (.build (.build (.start 0 _) rfl ?_ rfl)
    rfl ?_ rfl) (by decide +kernel) ?_ rfl) rfl ?_ rfl) (by decide +kernel) ?_ rfl) rfl ?_ rfl
  · intro n inside
    cases inside
  · intro n inside _
    simp [Request.nodes, Input.nodes] at inside
    exact .inr (inside ▸ rfl)
  · intro n inside _
    simp [Request.nodes] at inside
    exact .inr (inside ▸ rfl)
  · intro n inside _
    simp [Request.nodes, Input.nodes] at inside
    rcases inside with rfl | rfl
    · exact .inr rfl
    · exact .inl (.inl (.inr rfl))
  · intro n inside _
    simp [Request.nodes] at inside
    exact .inr (inside ▸ rfl)
  · intro n inside _
    simp [Request.nodes, Input.nodes] at inside
    rcases inside with rfl | rfl
    · exact .inr rfl
    · exact .inl (.inl (.inl (.inl (.inr rfl))))

theorem stacked_passes : (forward : GraphM Int Unit) stacked.graph = .ok () settled := by
  obtain ⟨_, passed⟩ := answer_of_answers
    (r := (forward : GraphM Int Unit) stacked.graph) (by decide +kernel)
  exact passed

theorem settled_outline : settled.outline = stacked.graph.marked.outline :=
  forward_outline stacked_extended.reachable.invariant.sound stacked_passes

theorem settled_adds : (add (.joint .mult) [.node sum, .node sum] : GraphM Int (Node Int)) settled =
    .ok late (settled.recorded late) := by
  have outline := settled_outline
  refine add_answer.mpr ⟨[sum, sum], sum.signature, ?_, rfl, .inr ⟨?_, ?_, rfl⟩⟩
  · rw [checkInput_congr (serial_of_outline outline) (episode_of_outline outline)]
    rfl
  · rw [found?, find?, index_of_outline outline]
    rfl
  · rw [application, serial_of_outline outline, size_of_outline outline,
      episode_of_outline outline]
    rfl

theorem grown_extended : Extended (Stranded (fun _ => False) stacked.graph) grown := by
  refine .build (.forward stacked_extended (answer_return.mpr ⟨(), stacked_passes, rfl⟩)) rfl ?_
    (answer_return.mpr ⟨late, settled_adds, rfl⟩)
  intro n inside _
  simp [Request.nodes, Input.nodes] at inside
  exact .inl (.inl (.inr (inside ▸ rfl)))

theorem grown_passes : (forward : GraphM Int Unit) grown.graph = .ok () regrown := by
  obtain ⟨_, passed⟩ := answer_of_answers
    (r := (forward : GraphM Int Unit) grown.graph) (by decide +kernel)
  exact passed

theorem grown_tape : grown.graph.tape.toList = [square, sum, top, late] := by
  change (settled.tape.push late).toList = _
  rw [tape_of_outline settled_outline]
  rfl

theorem regrown_tape : regrown.tape.toList = [square, sum, top, late] := by
  rw [tape_of_outline (forward_outline grown_extended.reachable.invariant.sound grown_passes)]
  exact grown_tape

/-- The second pass computes the square again for the sum, which it computes again for the new
node, and leaves it where it is: checkpointed, not retained and taken by the sum. -/
theorem square_stays : Extended (Stranded (fun _ => False) stacked.graph) grown ∧
    (forward : GraphM Int Unit) grown.graph = .ok () regrown ∧
    square ∈ regrown.tape.toList ∧ sum ∈ regrown.tape.toList ∧ square ∈ sum.inputs ∧
    square.isLeaf = false ∧ (regrown.slot square.id).retained = false ∧
    (regrown.slot square.id).checkpoint = true ∧ (settled.slot square.id).value.isSome = false ∧
    (regrown.slot square.id).value.isSome = true := by
  refine ⟨grown_extended, grown_passes, by simp [regrown_tape], by simp [regrown_tape],
    by simp [sum, Node.inputs], rfl, ?_⟩
  decide +kernel

theorem grown_uncomputed {n : Node Int} (due : n ∈ grown.graph.uncomputed) : n = late := by
  have done : ∀ m ∈ [square, sum, top], (grown.graph.slot m.id).computed = true := by
    decide +kernel
  obtain ⟨on, fresh⟩ := mem_uncomputed.mp due
  rw [grown_tape] at on
  rcases List.mem_append.mp (show n ∈ [square, sum, top] ++ [late] from on) with before | new
  · cases fresh.symm.trans (done n before)
  · exact List.mem_singleton.mp new

/-- The sum itself has been dropped again. -/
theorem sum_dropped : (regrown.slot sum.id).value = none := by
  have flags : (regrown.slot sum.id).retained = false ∧
      (regrown.slot sum.id).checkpoint = true := by
    decide +kernel
  have freed := forward_frees grown_extended grown_passes sum (by simp [regrown_tape]) rfl flags.1
    (.inl flags.2) ⟨late, by simp [regrown_tape], by simp [late, Node.inputs]⟩
  have due : late ∈ grown.graph.uncomputed :=
    mem_uncomputed.mpr ⟨by simp [grown_tape], by decide +kernel⟩
  have taken : sum ∈ late.inputs := by simp [late, Node.inputs]
  rcases freed with none | ⟨n, due', past, _⟩ | ⟨_, uncounted⟩
  · exact none
  · -- the pass computes no node after the new one
    have older := past late due taken
    rw [grown_uncomputed due'] at older
    exact absurd older (Nat.lt_irrefl _)
  · exact absurd taken (uncounted late due)

end Sample

end ReverseMode
