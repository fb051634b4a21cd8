import ReverseMode.Proofs.Accounting
import ReverseMode.Proofs.Idle

/-!
Counting consumers drops nothing that a pass still needs.

As long as no call drops the parameters, a parameter that has been drawn keeps its value. A
forward pass over nodes that are all new then runs each operator once and computes nothing again,
and a backward pass that finds all values computes nothing at all. During a backward walk the
counts are at every moment the numbers of consumers still to be visited, also between two inputs
of one node.
-/

namespace ReverseMode

variable {α : Type}

namespace Graph

variable {known : Node α → Prop} {g g' : Graph α}

/-! ### Parameters that keep their values -/

/-- Parameters that have been drawn hold their values. -/
def Supplied (known : Node α → Prop) (g : Graph α) : Prop :=
  ∀ n, known n → n.episode = none → (g.slot n.id).computed = true → (g.slot n.id).value.isSome

theorem Supplied.of_slots (supplied : Supplied known g) (slots : g'.slot = g.slot) :
    Supplied known g' := by
  intro n mem free
  rw [slots]
  exact supplied _ mem free

theorem Supplied.of_update (supplied : Supplied known g) {id : Nat} {s : Slot α}
    (slots : g'.slot = Function.update g.slot id s)
    (here : ∀ n, known n → n.episode = none → n.id = id → s.computed = true → s.value.isSome) :
    Supplied known g' := by
  intro n mem free
  rw [slots]
  by_cases same : n.id = id
  · rw [same, Function.update_self]
    exact here n mem free same
  · rw [Function.update_of_ne same]
    exact supplied _ mem free

/-- A new node has not been drawn. -/
theorem Supplied.with (supplied : Supplied known g) {n : Node α} (admits : Admits known g n)
    (slots : g'.slot = g.slot) : Supplied (With known n) g' := by
  intro m mem free
  rw [slots]
  rcases mem with rfl | mem
  · rw [admits.id, slot_size]
    exact nofun
  · exact supplied _ mem free

variable [Element α]

/-- Elementary changes drop values of applications only. -/
theorem Change.supplied (change : Change known g g') (wf : WellFormed known g)
    (supplied : Supplied known g) : Supplied known g' := by
  have steady : ∀ {id : Nat} {s : Slot α}, g'.slot = Function.update g.slot id s →
      s.value = (g.slot id).value → s.computed = (g.slot id).computed → Supplied known g' := by
    intro id s slots value computed
    refine supplied.of_update slots fun n mem free same => ?_
    rw [value, computed, ← same]
    exact supplied _ mem free
  cases change with
  | quiet quiet => exact supplied.of_slots quiet.slots
  | draw _ _ _ _ _ _ slots => exact supplied.of_update slots fun _ _ _ _ _ => rfl
  | compute _ _ _ _ _ slots => exact supplied.of_update slots fun _ _ _ _ _ => rfl
  | drop mem inner _ slots =>
    refine supplied.of_update slots fun n mem' free same => ?_
    obtain rfl := wf.unique mem' mem same
    cases inner.symm.trans (wf.parameter mem free)
  | grad _ _ _ _ _ _ slots => exact steady slots rfl rfl
  | dropGrad _ _ _ slots => exact steady slots rfl rfl
  | flag _ _ _ _ slots => exact steady slots rfl rfl

theorem Changes.supplied (changes : Changes known g g') (wf : WellFormed known g)
    (supplied : Supplied known g) : Supplied known g' := by
  induction changes with
  | refl => exact supplied
  | tail before change ih => exact change.supplied (wf.of_outline (Changes.outline before)) ih

omit [Element α] in
/-- The nodes of an episode that ends are no parameters. -/
theorem Supplied.reset (supplied : Supplied known g) (wf : WellFormed known g) :
    Supplied known (g.reset true) := by
  intro n mem free
  rw [slot_reset wf, if_neg]
  · exact supplied _ mem free
  · intro inside
    obtain ⟨m, on, same⟩ := List.mem_map.mp inside
    have on : m ∈ g.tape.toList := by simpa [discarded] using on
    obtain rfl := wf.unique (wf.known_of_tape on) mem same
    cases free.symm.trans (wf.tape.mp on).2

omit [Element α] in
/-- A parameter that is forgotten has to be drawn anew. -/
theorem Supplied.invalidate (supplied : Supplied known g) (wf : WellFormed known g)
    {n : Option (Input α)} (known' : ∀ m, n = some (.node m) → m.graph = g.serial → known m)
    (answered : invalidate n g = .ok () g') : Supplied known g' := by
  have forgets : ∀ {g : Graph α}, WellFormed known g → Supplied known g →
      Supplied known g.forgotten := by
    intro g wf supplied n mem free
    change ((g.forgetAll g.tape.toList).slot n.id).computed = true →
      ((g.forgetAll g.tape.toList).slot n.id).value.isSome
    rw [slot_forgetAll fun m on => wf.bound (wf.known_of_tape on)]
    split
    · exact nofun
    · exact supplied _ mem free
  rw [invalidate_eq, answer_bind] at answered
  obtain ⟨_, g₁, first, answered⟩ := answered
  rw [← answer_modify.mp answered]
  rcases forgetLeaf_answer first with rfl | ⟨m, given, used, rfl⟩
  · exact forgets wf supplied
  · have bound := wf.bound (known' m given (serial_of_checkNode used))
    refine forgets (wf.of_outline (outline_forget g m.id)) ?_
    exact supplied.of_update (slot_forget bound) fun _ _ _ _ => nofun

omit [Element α] in
/-- A node that may be used is on the tape or at hand. -/
theorem Supplied.atHand (supplied : Supplied known g) (wf : WellFormed known g) {n : Node α}
    (mem : known n) (free : n.episode = none) : AtHand g n := by
  cases computed : (g.slot n.id).computed with
  | true => exact .inl (supplied n mem free computed)
  | false => exact .inr ⟨wf.parameter mem free, computed⟩

/-! ### Whole passes -/

/-- A forward pass that is provided for computes nothing again, and runs the operators of its
nodes in their order, each once, up to where it raises. -/
theorem forward_runs
    (provided : Provided known g.uncomputed (Pending.start g.slots.size g.uncomputed) g) :
    Uncounted g (after ((forward : GraphM α Unit) g)) ∧
      (Traced.forward : Traced α Unit).ran g <+: applications g.uncomputed ∧
      (answers ((forward : GraphM α Unit) g) = true →
        (Traced.forward : Traced α Unit).ran g = applications g.uncomputed) := by
  obtain ⟨uncounted, started, ended⟩ := provided.runs
  have ran : (Traced.forward : Traced α Unit).ran g =
      (Traced.forwardFrom g.uncomputed (Pending.start g.slots.size g.uncomputed)).ran g := by
    change (_ >>= fun _ => Traced.silent _ >>= fun _ => Traced.silent _ : Traced α Unit).ran g = _
    rw [Traced.ran_bind]
    cases (Traced.forwardFrom g.uncomputed (Pending.start g.slots.size g.uncomputed)).call g with
    | ok _ g₁ => exact List.append_nil _
    | error f g₁ => exact List.append_nil _
  rw [ran]
  refine ⟨?_, started, fun answered => ?_⟩
  · refine Leads.bind_at Uncounted.trans (.refl g) fun _ _ got => ?_
    obtain ⟨rfl, rfl⟩ := answer_get.mp got
    refine Leads.bind_at Uncounted.trans uncounted fun _ g₁ _ => ?_
    refine Leads.bind_at Uncounted.trans (.refl g₁) fun _ g₂ marked => ?_
    rw [← answer_modify.mp marked]
    exact logForward_uncounted g.uncomputed g₁.marked
  · obtain ⟨_, ran⟩ := answer_of_answers answered
    obtain ⟨g₁, passed, _⟩ := forward_passes ran
    exact ended (by rw [passed]; rfl)

omit [Element α] in
/-- Between two inputs of a node that has been visited the counts are those of the consumers
behind it, and one more for the inputs that are left. -/
theorem leaveInputs_count (wf : WellFormed known g) {n : Node α} (mem : known n) {p : Pending}
    {rest : List (Node α)} (fits : p.counts.size = g.slots.size) (matched : p.Matches (n :: rest))
    {gone left : List (Node α)} (split : n.distinctInputs = gone ++ left) (id : Nat) :
    (gone.foldl leaveInput (g, p)).2.count id =
      consumers rest id + if ∃ i ∈ left, i.id = id then 1 else 0 := by
  have apart := Node.distinct_pairwise n.inputs
  rw [show Node.distinct n.inputs = gone ++ left from split, List.pairwise_append] at apart
  have bound : ∀ i ∈ gone, i.id < g.slots.size := fun i inside =>
    wf.distinct_bound mem i (by rw [split]; exact List.mem_append_left _ inside)
  have down := countDown_countsDown leaves leaves_releaseValue apart.1 bound fits
  rw [← leaveInput_eq] at down
  have taken : n.takes id = true ↔ (∃ i ∈ gone, i.id = id) ∨ ∃ i ∈ left, i.id = id := by
    rw [Node.takes_iff_distinct, split]
    simp only [List.mem_append, or_and_right, exists_or]
  rw [down.count, matched, consumers_cons]
  by_cases before : ∃ i ∈ gone, i.id = id
  · have after : ¬ ∃ i ∈ left, i.id = id := by
      rintro ⟨j, later, same⟩
      obtain ⟨i, inside, same'⟩ := before
      exact apart.2.2 i inside j later (same'.trans same.symm)
    rw [if_pos (taken.mpr (.inl before)), if_pos before, if_neg after]
    omega
  · by_cases behind : ∃ i ∈ left, i.id = id
    · rw [if_pos (taken.mpr (.inr behind)), if_neg before, if_pos behind]
      omega
    · rw [if_neg (fun is => (taken.mp is).elim before behind), if_neg before, if_neg behind]
      omega

end Graph

/-! ### Worlds that keep their parameters -/

namespace World

open ReverseMode.Graph

variable [Element α] {w : World α} {g : Graph α}

/-- Worlds that come about without a call that drops the parameters. -/
inductive Keeping : World α → Prop
  | start (serial : Nat) (settings : Settings) : Keeping (start serial settings)
  | answer {w : World α} {r : Request α} {a : Answer α} {g : Graph α} (keeping : Keeping w)
      (admissible : w.Admissible r) (keeps : r ≠ .reset false)
      (answered : r.call w.graph = .ok a g) : Keeping (w.next r a g)
  | raise {w : World α} {r : Request α} {f : Fault} {g : Graph α} (keeping : Keeping w)
      (admissible : w.Admissible r) (raised : r.call w.graph = .error f g) :
      Keeping ⟨g, w.known, w.fresh⟩
  | write {w : World α} (keeping : Keeping w) (storage : Nat) (elements : Tensor α) :
      Keeping ⟨w.graph.write storage elements, w.known,
        w.fresh ∧ (w.graph.write storage elements).held? = w.graph.held? ∨ w.graph.Unread⟩
  | quiet {w : World α} {g : Graph α} (keeping : Keeping w) (quiet : Quiet w.graph g) :
      Keeping ⟨g, w.known, w.fresh⟩

theorem Keeping.reachable (keeping : Keeping w) : Reachable w := by
  induction keeping with
  | start serial settings => exact .start serial settings
  | answer _ admissible _ answered ih => exact .step ih (.answer admissible answered)
  | raise _ admissible raised ih => exact .step ih (.raise admissible raised)
  | write _ storage elements ih => exact .step ih (.write storage elements)
  | quiet _ quiet ih => exact .step ih (.quiet quiet)

/-- Calls that build nothing and end nothing keep the values of parameters, also when they
raise. -/
theorem call_supplied (sound : Sound w.known w.graph) (supplied : Supplied w.known w.graph)
    {r : Request α} (admissible : w.Admissible r) (old : r.builds = false)
    (lasting : r.renews = false) : Supplied w.known (after (r.call w.graph)) := by
  obtain ⟨g₁, changes, ended⟩ := call_changes sound admissible old lasting
  have kept := changes.supplied sound.toWellFormed supplied
  rcases ended with same | quiet
  · rwa [same]
  · have marked : Supplied w.known g₁.marked := Supplied.of_slots kept rfl
    exact marked.of_slots quiet.slots

theorem build_supplied (sound : Sound w.known w.graph) (supplied : Supplied w.known w.graph)
    {r : Request α} {a : Answer α} (admissible : w.Admissible r)
    (answered : r.call w.graph = .ok a g) (builds : r.builds = true) :
    Supplied (knownAfter w.known a) g := by
  cases built_of_answer sound.toWellFormed admissible answered builds with
  | same mem =>
    rw [knownAfter_of_known mem]
    exact supplied
  | recorded admits =>
    rw [knownAfter_node]
    exact supplied.with admits (slot_widened w.graph)
  | registered admits =>
    rw [knownAfter_node]
    exact supplied.with admits (slot_widened w.graph)

theorem Keeping.supplied (keeping : Keeping w) : Supplied w.known w.graph := by
  induction keeping with
  | start serial settings => exact fun _ => False.elim
  | @answer w r a g keeping admissible keeps answered ih =>
    have sound := keeping.reachable.invariant.sound
    have wf := sound.toWellFormed
    change Supplied (knownAfter w.known a) g
    cases r with
    | add | constant | parameter => exact build_supplied sound ih admissible answered rfl
    | reset keepParameters =>
      rw [call_known admissible answered rfl]
      cases answered
      cases keepParameters with
      | true => exact Supplied.reset ih wf
      | false => exact absurd rfl keeps
    | invalidate n =>
      rw [call_known admissible answered rfl]
      obtain ⟨_, ran, rfl⟩ := answer_return.mp answered
      refine Supplied.invalidate ih wf (fun m given home => ?_) ran
      exact admissible m (by simp [given, Request.nodes, Input.nodes]) home
    | retain | checkpoint | forward | backward | value | gradOf | zeroGrad | zeroGrads =>
      rw [call_known admissible answered rfl]
      have supplied := call_supplied sound ih admissible rfl rfl
      rwa [answered, after_ok] at supplied
  | @raise w r f g keeping admissible raised ih =>
    have sound := keeping.reachable.invariant.sound
    change Supplied w.known g
    cases r with
    | add | constant | parameter =>
      rcases build_raise_cases raised rfl with rfl | rfl
      · exact ih
      · exact Supplied.of_slots ih (slot_widened w.graph)
    | reset keepParameters => cases raised
    | invalidate n =>
      rw [invalidate_raise (raise_return.mp raised)]
      exact ih
    | retain | checkpoint | forward | backward | value | gradOf | zeroGrad | zeroGrads =>
      have supplied := call_supplied sound ih admissible rfl rfl
      rwa [raised, after_error] at supplied
  | @write w keeping storage elements ih =>
    intro n mem free
    obtain ⟨_, _, slot⟩ := slot_write (g := w.graph) storage elements n.id
    change ((w.graph.write storage elements).slot n.id).computed = true →
      ((w.graph.write storage elements).slot n.id).value.isSome
    rw [slot, Option.isSome_map]
    exact ih n mem free
  | quiet _ quiet ih => exact Supplied.of_slots ih quiet.slots

/-- A forward pass over a tape on which nothing has been computed yet computes nothing again, and
runs the operators of the tape in their order, up to where it raises. -/
theorem forward_anew (wf : WellFormed w.known w.graph) (supplied : Supplied w.known w.graph)
    (anew : ∀ n ∈ w.graph.tape.toList, (w.graph.slot n.id).computed = false) :
    Uncounted w.graph (after ((forward : GraphM α Unit) w.graph)) ∧
      (Traced.forward : Traced α Unit).ran w.graph <+: applications w.graph.tape.toList ∧
      (answers ((forward : GraphM α Unit) w.graph) = true →
        (Traced.forward : Traced α Unit).ran w.graph = applications w.graph.tape.toList) := by
  have tape : ∀ n ∈ w.graph.tape.toList, w.known n := fun n => wf.known_of_tape
  have all : w.graph.uncomputed = w.graph.tape.toList :=
    List.filter_eq_self.mpr fun n on => by rw [anew n on]; rfl
  have provided : Provided w.known w.graph.uncomputed
      (Pending.start w.graph.slots.size w.graph.uncomputed) w.graph := by
    rw [all]
    obtain ⟨fits, matched⟩ := wf.start_matches tape
    refine ⟨wf, tape, wf.sorted, fits, matched, fun n on i input => ?_⟩
    refine (wf.tape_inputs on input).imp_right fun free => ?_
    exact supplied.atHand wf (wf.known_inputs (tape n on) input) free.1
  have runs := forward_runs provided
  rwa [all] at runs

/-- A backward pass that finds the values of the tape and of the parameters that it takes runs
nothing. -/
theorem backward_held (sound : Sound w.known w.graph) (supplied : Supplied w.known w.graph)
    {roots : Roots α} {seeds : Seeds} (admissible : w.Admissible (.backward roots seeds))
    (held : ∀ n ∈ w.graph.tape.toList, (w.graph.slot n.id).value.isSome ∧
      ∀ i ∈ n.inputs, i.episode = none → (w.graph.slot i.id).value.isSome) :
    (Traced.backward roots seeds).Idle w.graph := by
  have wf := sound.toWellFormed
  refine backward_idle sound admissible (fun n on => ⟨(held n on).1, fun i input => ?_⟩)
    fun n mem used => ?_
  · rcases wf.tape_inputs on input with inside | ⟨free, _⟩
    · exact (held i inside).1
    · exact (held n on).2 i input free
  · rcases wf.usable mem used with on | ⟨free, _⟩
    · exact .inl (held n on).1
    · exact supplied.atHand wf mem free

/-- The counts at the moments of a backward pass that releases memory, and between two inputs of
the node that is visited next. -/
theorem moment_counts (sound : Sound w.known w.graph) {roots : Roots α} {seeds : Seeds}
    (admissible : w.Admissible (.backward roots seeds))
    (releases : w.graph.settings.releaseMemory = true) {visited rest : List (Node α)} {p : Pending}
    (moment : Moment w.graph roots seeds visited rest p g) :
    p.Matches rest ∧ ∀ n behind g', rest = n :: behind → visit n g = .ok () g' →
      ∀ gone left, n.distinctInputs = gone ++ left → ∀ id,
        (gone.foldl leaveInput (g', p)).2.count id =
          consumers behind id + if ∃ i ∈ left, i.id = id then 1 else 0 := by
  obtain ⟨started, g₁, accepted, seeded, walked⟩ := moment.walked
  obtain ⟨_, _, walkable⟩ := backward_walkable sound admissible accepted seeded releases
  have matched : (Pending.start g₁.slots.size w.graph.tape.toList).Matches
      w.graph.tape.toList.reverse :=
    (walkable.wf.start_matches fun n => sound.toWellFormed.known_of_tape).2.reverse
  rw [moment.tape] at walkable matched
  have counted := walkable.counted matched walked
  obtain ⟨_, walkable⟩ := walkable.split walked
  refine ⟨counted, ?_⟩
  rintro n behind g' rfl visits gone left split id
  have here := walkable.mem n (by simp)
  have serves := visit_serves walkable.wf here
  rw [visits, after_ok] at serves
  refine leaveInputs_count (walkable.wf.of_outline serves.outline) here ?_ counted split id
  rw [walkable.fits, size_of_outline serves.outline]

/-- As long as the parameters are not dropped, what passes count and drop is not needed again.
What a pass runs is noted along the pass itself.

A forward pass over a tape on which nothing has been computed yet counts no recomputation and runs
each operator of the tape once, in the order of the tape, up to where it raises. A backward pass
that finds the values of all nodes of the tape and of the parameters that they take counts no
recomputation and runs no operator. Where memory is released the count of each node is, between
any two visits of a backward pass, the number of nodes still to be visited that take it, and
between two inputs of a visited node it is this number for the nodes behind it, and one more for
the inputs that are left. -/
theorem no_recomputation (keeping : Keeping w) :
    ((Traced.forward : Traced α Unit).call = forward ∧
      ∀ roots seeds, (Traced.backward roots seeds : Traced α Unit).call =
        backward roots seeds) ∧
    ((∀ n ∈ w.graph.tape.toList, (w.graph.slot n.id).computed = false) →
      (after ((forward : GraphM α Unit) w.graph)).recomputations = w.graph.recomputations ∧
      (applications w.graph.tape.toList).Nodup ∧
      (Traced.forward : Traced α Unit).ran w.graph <+: applications w.graph.tape.toList ∧
      (answers ((forward : GraphM α Unit) w.graph) = true →
        (Traced.forward : Traced α Unit).ran w.graph = applications w.graph.tape.toList)) ∧
    ∀ roots seeds, w.Admissible (.backward roots seeds) →
      ((∀ n ∈ w.graph.tape.toList, (w.graph.slot n.id).value.isSome ∧
          ∀ i ∈ n.inputs, i.episode = none → (w.graph.slot i.id).value.isSome) →
        (after (backward roots seeds w.graph)).recomputations = w.graph.recomputations ∧
        (Traced.backward roots seeds).ran w.graph = []) ∧
      (w.graph.settings.releaseMemory = true →
        ∀ visited rest p g, Moment w.graph roots seeds visited rest p g →
          (∀ id, p.count id = consumers rest id ∧
            (p.count id = 0 ↔ ∀ n ∈ rest, ∀ i ∈ n.inputs, i.id ≠ id)) ∧
          ∀ n behind g', rest = n :: behind → visit n g = .ok () g' →
            ∀ gone left, n.distinctInputs = gone ++ left → ∀ id,
              (gone.foldl leaveInput (g', p)).2.count id =
                consumers behind id + if ∃ i ∈ left, i.id = id then 1 else 0) := by
  have sound := keeping.reachable.invariant.sound
  have wf := sound.toWellFormed
  have supplied := keeping.supplied
  refine ⟨⟨Traced.call_forward, Traced.call_backward⟩, fun anew => ?_,
    fun roots seeds admissible =>
      ⟨fun held => ?_, fun releases visited rest p g moment => ?_⟩⟩
  · obtain ⟨uncounted, ran⟩ := forward_anew wf supplied anew
    refine ⟨uncounted, ?_, ran⟩
    -- nodes of the tape have different ids
    exact (wf.sorted.imp fun less => by rintro rfl; exact Nat.lt_irrefl _ less).filter _
  · have idle := backward_held sound supplied admissible held
    rw [← Traced.call_backward]
    exact ⟨idle.recomputations, idle.ran⟩
  · obtain ⟨counted, between⟩ := moment_counts sound admissible releases moment
    refine ⟨fun id => ⟨counted id, ?_⟩, between⟩
    rw [counted id, Int.natCast_eq_zero]
    exact consumers_eq_zero

end World

/-! ### An example -/

namespace Sample

open ReverseMode.Graph World

/-- A forward pass has computed the square and the sum, and both are held. -/
def summed : World Int :=
  built.next .forward .done (after ((forward : GraphM Int Unit) built.graph))

theorem built_keeping : Keeping built := by
  refine .answer (.answer (.answer (.start 0 _) ?_ nofun rfl) ?_ nofun rfl) ?_ nofun rfl
  · intro n inside
    cases inside
  · intro n inside _
    simp [Request.nodes, Input.nodes] at inside
    exact .inr (inside ▸ rfl)
  · intro n inside _
    simp [Request.nodes, Input.nodes] at inside
    rcases inside with rfl | rfl
    · exact .inr rfl
    · exact .inl (.inr rfl)

theorem built_passes : (forward : GraphM Int Unit) built.graph = .ok () summed.graph := by
  obtain ⟨_, ran⟩ := answer_of_answers
    (r := (forward : GraphM Int Unit) built.graph) (by decide +kernel)
  exact ran

theorem summed_keeping : Keeping summed := by
  refine .answer built_keeping (fun n inside => ?_) nofun (answer_return.mpr ⟨(), built_passes, rfl⟩)
  cases inside

theorem summed_tape : summed.graph.tape.toList = [square, sum] := by
  rw [(forward_computed built_keeping.reachable.invariant.sound built_passes).1]
  rfl

/-- The forward pass has run both operators, a backward pass runs none. When it starts the
parameter has two consumers to come: the square, two slots of which it fills, and the sum. -/
theorem summed_recomputes_nothing :
    (Traced.forward : Traced Int Unit).ran built.graph = [square, sum] ∧
    (Traced.backward .last .ones : Traced Int Unit).ran summed.graph = [] ∧
    ∃ p g, Moment summed.graph .last .ones [] [sum, square] p g ∧ p.count x.id = 2 := by
  have anew : ∀ n ∈ built.graph.tape.toList, (built.graph.slot n.id).computed = false := by
    decide +kernel
  obtain ⟨_, first, _⟩ := no_recomputation built_keeping
  obtain ⟨_, _, later⟩ := no_recomputation summed_keeping
  obtain ⟨idle, moments⟩ := later .last .ones fun n inside => by cases inside
  refine ⟨?_, (idle ?_).2, ?_⟩
  · exact (first anew).2.2.2 (by rw [built_passes]; rfl)
  · rw [summed_tape]
    decide +kernel
  · obtain ⟨_, returns⟩ := answer_of_answers
      (r := (backward .last .ones : GraphM Int Unit) summed.graph) (by decide +kernel)
    obtain ⟨started, accepted⟩ := backward_accepted returns
    obtain ⟨g, _, _, seeded, _⟩ := backward_visits accepted returns
    have start : Moment summed.graph .last .ones [] [sum, square]
        (Pending.start g.slots.size summed.graph.tape.toList) g :=
      ⟨by rw [summed_tape]; rfl, started, g, accepted, seeded, rfl⟩
    refine ⟨_, g, start, ?_⟩
    rw [((moments (by decide +kernel) _ _ _ _ start).1 x.id).1]
    rfl

end Sample

end ReverseMode
