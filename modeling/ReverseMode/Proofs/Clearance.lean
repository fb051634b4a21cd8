import ReverseMode.Proofs.Accounting

/-!
What is left when everything is dropped.

A reset that drops the parameters gives back the storages of the tape and of the parameters that
can be found by name. A parameter that was dropped earlier belongs to no episode, so it is still
accepted where a handle of it has been kept, and no reset reaches what it comes to hold: after a
reset that drops everything the storages in use are those of such parameters. If no call is handed
one of them, nothing is left.
-/

namespace ReverseMode

variable {α : Type}

namespace World

open ReverseMode.Graph

/-- The nodes that a reset reaches: those on the tape, and the parameters that are found by name. -/
def Listed (w : World α) (n : Node α) : Prop :=
  w.known n ∧ (n ∈ w.graph.parameters.toList ∨ n.episode = some w.graph.episode)

/-- No node on the tape reads a parameter that has been dropped, and these hold nothing. -/
structure Clear (w : World α) : Prop where
  inputs : ∀ n ∈ w.graph.tape.toList, ∀ i ∈ n.inputs, i.episode = none →
    i ∈ w.graph.parameters.toList
  dropped : ∀ n, w.known n → n.episode = none → n ∉ w.graph.parameters.toList →
    (w.graph.slot n.id).value = none ∧ (w.graph.slot n.id).grad = none

variable {w : World α} {g : Graph α}

namespace Clear

/-- What a reset reaches is well-formed. -/
theorem listed (clear : Clear w) (wf : WellFormed w.known w.graph) :
    WellFormed w.Listed w.graph := by
  refine wf.restrict (fun _ mem => mem.1) (fun n mem m input => ?_)
    (fun n on => ⟨wf.known_of_tape on, .inr (wf.tape.mp on).2⟩)
    fun n inside => ⟨(wf.parameters inside).1, .inl inside⟩
  refine ⟨wf.known_inputs mem.1 input, ?_⟩
  rcases mem.2 with parameter | now
  · -- a parameter has no inputs
    have leaf := wf.parameter mem.1 (wf.parameters parameter).2
    cases n with
    | leaf s init => cases input
    | apply => cases leaf
  · rcases wf.sameEpisode mem.1 input with free | same
    · exact .inl (clear.inputs n (wf.tape.mpr ⟨mem.1, now⟩) m input free)
    · exact .inr (same.trans now)

/-- The books are kept of what a reset reaches. -/
theorem books (clear : Clear w) (wf : WellFormed w.known w.graph) (accounts : Accounts w)
    (balanced : w.graph.allocator.Balanced) : Books w.Listed w.graph := by
  refine ⟨clear.listed wf, balanced, accounts.ledger.reassign (fun n mem => .inl ⟨mem.1, ?_⟩)
    (fun n mem => ?_) rfl rfl⟩
  · exact mem.2.imp_left fun parameter => (wf.parameters parameter).2
  · rcases mem.2 with free | now
    · by_cases parameter : n ∈ w.graph.parameters.toList
      · exact .inl ⟨mem.1, .inl parameter⟩
      · obtain ⟨value, grad⟩ := clear.dropped n mem.1 free parameter
        refine .inr fun p => ?_
        cases p <;> simp [owned, Slot.owned, value, grad]
    · exact .inl ⟨mem.1, .inr now⟩

/-- A step over what a reset reaches leaves parameters that were dropped empty. -/
theorem of_settled (clear : Clear w) (wf : WellFormed w.known w.graph)
    (settled : Settled w.Listed w.graph g) {fresh : Prop} : Clear ⟨g, w.known, fresh⟩ := by
  constructor
  · intro n on i input free
    have mem := settled.tape.mp on
    rw [settled.episode] at mem
    change i ∈ g.parameters.toList
    rw [settled.table]
    exact clear.inputs n (wf.tape.mpr ⟨mem.1.1, mem.2⟩) i input free
  · intro n mem free gone
    change n ∉ g.parameters.toList at gone
    rw [settled.table] at gone
    change (g.slot n.id).value = none ∧ (g.slot n.id).grad = none
    rw [settled.others n.id fun m inside same => ?_]
    · exact clear.dropped n mem free gone
    · obtain rfl := wf.unique inside.1 mem same
      rcases inside.2 with parameter | now
      · exact gone parameter
      · cases free.symm.trans now

/-- A new node of the current episode. -/
theorem recorded (clear : Clear w) {n : Node α}
    (inputs : ∀ i ∈ n.inputs, i.episode = none → i ∈ w.graph.parameters.toList)
    (now : n.episode = some w.graph.episode) {fresh : Prop} :
    Clear ⟨w.graph.recorded n, knownAfter w.known (.node n), fresh⟩ := by
  rw [knownAfter_node]
  constructor
  · intro m on
    have on : m ∈ w.graph.tape.toList ++ [n] := toList_push w.graph.tape n ▸ on
    rcases List.mem_append.mp on with on | new
    · exact clear.inputs m on
    · rw [List.mem_singleton.mp new]
      exact inputs
  · rintro m (rfl | mem) free gone
    · cases free.symm.trans now
    · change ((w.graph.recorded n).slot m.id).value = none ∧ _
      rw [show (w.graph.recorded n).slot = _ from slot_widened w.graph]
      exact clear.dropped m mem free gone

/-- A new parameter. -/
theorem registered (clear : Clear w) {n : Node α} {fresh : Prop} :
    Clear ⟨w.graph.registered n, knownAfter w.known (.node n), fresh⟩ := by
  have table : (w.graph.registered n).parameters.toList = w.graph.parameters.toList ++ [n] :=
    Array.toList_push
  rw [knownAfter_node]
  constructor
  · intro m on i input free
    change i ∈ (w.graph.registered n).parameters.toList
    rw [table]
    exact List.mem_append_left _ (clear.inputs m on i input free)
  · intro m mem free gone
    change m ∉ (w.graph.registered n).parameters.toList at gone
    simp only [table, List.mem_append, List.mem_singleton, not_or] at gone
    change ((w.graph.registered n).slot m.id).value = none ∧ _
    rw [show (w.graph.registered n).slot = _ from slot_widened w.graph]
    exact clear.dropped m (mem.resolve_left gone.2) free gone.1

theorem same (clear : Clear w) {n : Node α} (mem : w.known n) {fresh : Prop} :
    Clear ⟨w.graph, knownAfter w.known (.node n), fresh⟩ := by
  rw [knownAfter_of_known mem]
  exact ⟨clear.inputs, clear.dropped⟩

/-- Parameters that a reset drops are emptied by it. -/
theorem reset (clear : Clear w) (wf : WellFormed w.known w.graph) (keepParameters : Bool)
    {fresh : Prop} : Clear ⟨w.graph.reset keepParameters, w.known, fresh⟩ := by
  have outline := outline_reset keepParameters w.graph
  constructor
  · intro n on
    have tape : (w.graph.reset keepParameters).tape = {} := congrArg Outline.tape outline
    change n ∈ (w.graph.reset keepParameters).tape.toList at on
    rw [tape] at on
    simp [Tape.toList] at on
  · intro n mem free gone
    change n ∉ (w.graph.reset keepParameters).parameters.toList at gone
    change ((w.graph.reset keepParameters).slot n.id).value = none ∧
      ((w.graph.reset keepParameters).slot n.id).grad = none
    rw [slot_reset wf]
    split
    · exact ⟨rfl, rfl⟩
    next kept =>
      refine clear.dropped n mem free fun parameter => ?_
      cases keepParameters with
      | true =>
        rw [show (w.graph.reset true).parameters = w.graph.parameters from
          congrArg Outline.parameters outline] at gone
        exact gone parameter
      | false =>
        exact kept (List.mem_map_of_mem (List.mem_append_right _ parameter))

end Clear

variable [Element α]

/-- Worlds that come about by calls that answer and are handed no parameter that has been
dropped, by writes to storages, and by taking the reports or counting the peak anew. -/
inductive Tidy : (anew : Bool) → World α → Prop
  | start (serial : Nat) (settings : Settings) : Tidy false (start serial settings)
  | answer {anew : Bool} {w : World α} {r : Request α} {a : Answer α} {g : Graph α}
      (tidy : Tidy anew w) (admissible : w.Admissible r)
      (listed : ∀ n ∈ r.nodes, n.graph = w.graph.serial → n.episode = none →
        n ∈ w.graph.parameters.toList)
      (answered : r.call w.graph = .ok a g) : Tidy anew (w.next r a g)
  | write {anew : Bool} {w : World α} (tidy : Tidy anew w) (storage : Nat)
      (elements : Tensor α) : Tidy anew ⟨w.graph.write storage elements, w.known,
        w.fresh ∧ (w.graph.write storage elements).held? = w.graph.held? ∨ w.graph.Unread⟩
  | take {anew : Bool} {w : World α} (tidy : Tidy anew w) :
      Tidy anew ⟨{ w.graph with reports := #[] }, w.known, w.fresh⟩
  | recount {anew : Bool} {w : World α} (tidy : Tidy anew w) : Tidy true
      ⟨{ w.graph with allocator := w.graph.allocator.resetPeak }, w.known, w.fresh⟩

theorem Tidy.managed {anew : Bool} (tidy : Tidy anew w) : Managed false anew w := by
  induction tidy with
  | start serial settings => exact .start serial settings
  | answer _ admissible _ answered ih => exact .answer ih admissible answered
  | write _ storage elements ih => exact .write ih storage elements
  | take _ ih => exact .take ih
  | recount _ ih => exact .recount ih

/-- A call that answers and is handed no parameter that has been dropped leaves these empty. -/
theorem Clear.next (clear : Clear w) {anew : Bool} (managed : Managed false anew w)
    {r : Request α} {a : Answer α} (admissible : w.Admissible r)
    (listed : ∀ n ∈ r.nodes, n.graph = w.graph.serial → n.episode = none →
      n ∈ w.graph.parameters.toList)
    (answered : r.call w.graph = .ok a g) : Clear (w.next r a g) := by
  have wf := managed.reachable.invariant.sound.toWellFormed
  have accounts := managed.accounts rfl
  have known : ∀ n ∈ r.nodes, n.graph = w.graph.serial → w.known n := by
    cases r with
    | zeroGrad => exact fun n inside _ => List.mem_singleton.mp inside ▸ admissible
    | _ => exact admissible
  have settled : r.builds = false → (∀ keepParameters, r ≠ .reset keepParameters) →
      Clear (w.next r a g) := by
    intro old lasting
    unfold World.next
    rw [call_known admissible answered old]
    have handed : ∀ n ∈ r.nodes, w.graph.checkNode n = .ok () → w.Listed n := by
      intro n inside used
      have home := serial_of_checkNode used
      have mem := known n inside home
      rcases wf.usable mem used with on | ⟨free, _⟩
      · exact ⟨mem, .inr (wf.tape.mp on).2⟩
      · exact ⟨mem, .inl (listed n inside home free)⟩
    have empty : ∀ n, r = .zeroGrad n → ¬ w.Listed n → (w.graph.slot n.id).grad = none := by
      rintro n rfl gone
      have mem : w.known n := admissible
      refine (accounts.past mem fun current => gone ⟨mem, ?_⟩).2
      exact current.2.imp_left (listed n (by simp [Request.nodes]) (wf.home mem))
    exact clear.of_settled wf (call_settles (clear.listed wf) handed empty answered old lasting
      (clear.books wf accounts managed.tally.1))
  unfold World.next at settled ⊢
  cases r with
  | add | constant | parameter =>
    cases built_of_answer wf admissible answered rfl with
    | same mem => exact clear.same mem
    | recorded _ now inputs =>
      refine clear.recorded (fun i input => ?_) now
      exact listed i (inputs i input).1 (inputs i input).2
    | registered => exact clear.registered
  | reset keepParameters =>
    rw [call_known admissible answered rfl]
    cases answered
    exact clear.reset wf keepParameters
  | retain | checkpoint | forward | backward | value | gradOf | invalidate | zeroGrad
  | zeroGrads => exact settled rfl (by simp)

theorem Tidy.clear {anew : Bool} (tidy : Tidy anew w) : Clear w := by
  induction tidy with
  | start serial settings =>
    refine ⟨fun n on => ?_, fun n => False.elim⟩
    simp [World.start, create, Tape.toList] at on
  | answer tidy admissible listed answered ih =>
    exact ih.next tidy.managed admissible listed answered
  | @write _ w _ storage elements ih =>
    have outline := outline_write storage elements w.graph
    refine ⟨ih.inputs, fun n mem free gone => ?_⟩
    obtain ⟨_, _, slot⟩ := slot_write (g := w.graph) storage elements n.id
    change ((w.graph.write storage elements).slot n.id).value = none ∧
      ((w.graph.write storage elements).slot n.id).grad = none
    rw [slot]
    simpa using ih.dropped n mem free gone
  | take _ ih => exact ⟨ih.inputs, ih.dropped⟩
  | recount _ ih => exact ⟨ih.inputs, ih.dropped⟩

omit [Element α] in
/-- A reset that drops everything empties the parameters that are found by name, and no others. -/
theorem owned_reset (wf : WellFormed w.known w.graph) {n : Node α} (mem : w.known n)
    (free : n.episode = none) (p : Part) :
    (n ∈ w.graph.parameters.toList → (w.graph.reset false).owned n.id p = none) ∧
      (n ∉ w.graph.parameters.toList →
        (w.graph.reset false).owned n.id p = w.graph.owned n.id p) := by
  have slots := slot_reset wf false n.id
  constructor
  · intro named
    have inside : n.id ∈ (w.graph.discarded false).map Node.id :=
      List.mem_map_of_mem (List.mem_append_right _ named)
    rw [owned, slots, if_pos inside]
    cases p <;> rfl
  · intro gone
    rw [owned, slots, if_neg]
    · rfl
    · intro inside
      obtain ⟨m, inside, same⟩ := List.mem_map.mp inside
      have inside : m ∈ w.graph.tape.toList ++ w.graph.parameters.toList := inside
      rcases List.mem_append.mp inside with on | named
      · obtain rfl := wf.unique (wf.known_of_tape on) mem same
        cases free.symm.trans (wf.tape.mp on).2
      · obtain rfl := wf.unique (wf.parameters named).1 mem same
        exact gone named

/-- After a reset that drops everything the storages in use are those of parameters that had been
dropped before. -/
theorem held_reset {anew : Bool} (managed : Managed false anew w) (storage b : Nat) :
    (storage, b) ∈ (w.graph.reset false).allocator.held ↔ ∃ n p,
      w.known n ∧ n.episode = none ∧ n ∉ w.graph.parameters.toList ∧
        w.graph.owned n.id p = some storage ∧ b = bytes n.signature := by
  have wf := managed.reachable.invariant.sound.toWellFormed
  have after : Managed false anew (w.next (.reset false) .done (w.graph.reset false)) :=
    managed.answer (fun n inside => by cases inside) rfl
  have known : knownAfter w.known (.done : Answer α) = w.known := knownAfter_of_none rfl
  have tape : (w.graph.reset false).tape.toList = [] := by
    rw [show (w.graph.reset false).tape = {} from
      congrArg Outline.tape (outline_reset false w.graph)]
    rfl
  refine (after.held_iff storage b).trans ⟨?_, ?_⟩
  · rintro ⟨n, p, here, owns, size⟩
    change n ∈ (w.graph.reset false).tape.toList ∨ knownAfter w.known .done n ∧ _ at here
    change (w.graph.reset false).owned n.id p = some storage at owns
    rw [tape, known] at here
    obtain ⟨mem, free⟩ := here.resolve_left (by simp)
    obtain ⟨emptied, kept⟩ := owned_reset wf mem free p
    have gone : n ∉ w.graph.parameters.toList := by
      intro named
      cases owns.symm.trans (emptied named)
    exact ⟨n, p, mem, free, gone, (kept gone).symm.trans owns, size⟩
  · rintro ⟨n, p, mem, free, gone, owns, size⟩
    refine ⟨n, p, .inr ⟨.inl mem, free⟩, ?_, size⟩
    change (w.graph.reset false).owned n.id p = some storage
    rw [(owned_reset wf mem free p).2 gone, owns]

/-- What a reset that drops everything leaves, as long as no call raises: the storages in use are
those that parameters own which had been dropped before, and each with the bytes of its node. If no
call was handed such a parameter, none is in use. -/
theorem reset_clears {anew : Bool} (managed : Managed false anew w) :
    (∀ storage b, (storage, b) ∈ (w.graph.reset false).allocator.held ↔ ∃ n p,
      w.known n ∧ n.episode = none ∧ n ∉ w.graph.parameters.toList ∧
        w.graph.owned n.id p = some storage ∧ b = bytes n.signature) ∧
    (w.graph.reset false).allocator.live =
      ((w.graph.reset false).allocator.held.map Prod.snd).sum ∧
    (Tidy anew w → (w.graph.reset false).allocator.held = [] ∧
      (w.graph.reset false).allocator.live = 0) := by
  have after : Managed false anew (w.next (.reset false) .done (w.graph.reset false)) :=
    managed.answer (fun n inside => by cases inside) rfl
  have live := after.tally.1.live
  refine ⟨held_reset managed, live, fun tidy => ?_⟩
  have none : (w.graph.reset false).allocator.held = [] := by
    refine List.eq_nil_iff_forall_not_mem.mpr ?_
    rintro ⟨storage, b⟩ held
    obtain ⟨n, p, mem, free, gone, owns, _⟩ := (held_reset managed storage b).mp held
    obtain ⟨value, grad⟩ := tidy.clear.dropped n mem free gone
    cases p <;> simp [owned, Slot.owned, value, grad] at owns
  refine ⟨none, live.trans ?_⟩
  change ((w.graph.reset false).allocator.held.map Prod.snd).sum = 0
  rw [none]
  rfl

end World

/-! ### Examples -/

namespace Sample

open ReverseMode.Graph World

/-- The parameter has been made and dropped. -/
def parted : World Int :=
  let w : World Int := start 0 { type := .float64 }
  let w := w.next (.parameter name x.shape (.ok (.constant 3)) (.ok none) (.ofBool true)) (.node x)
    (w.graph.registered x)
  w.next (.reset false) .done (w.graph.reset false)

/-- Its value is asked for all the same. -/
def revived : World Int :=
  parted.next (.value (.node x)) (.array (.full [2] 3)) (after (value (.node x) parted.graph))

theorem parted_tidy : Tidy false parted := by
  refine .answer (.answer (.start 0 _) ?_ ?_ rfl) ?_ ?_ rfl
  · intro n inside
    cases inside
  · intro n inside
    cases inside
  · intro n inside
    cases inside
  · intro n inside
    cases inside

theorem revived_managed : Managed false false revived := by
  obtain ⟨t, asked⟩ := answer_of_answers (r := value (.node x) parted.graph) (by decide +kernel)
  have admissible : parted.Admissible (.value (.node x)) := by
    intro n inside _
    simp [Request.nodes, Input.nodes] at inside
    exact .inl (.inr (inside ▸ rfl))
  -- whatever array is answered, no node is handed out
  have managed : Managed false false
      (parted.next (.value (.node x)) (.array t) (after (value (.node x) parted.graph))) :=
    .answer parted_tidy.managed admissible (answer_return.mpr ⟨t, asked, rfl⟩)
  exact managed

/-- The storage stays in use when everything is dropped once more. -/
theorem revived_stays : Managed false false revived ∧
    (revived.graph.reset false).allocator.held = [(0, 16)] ∧
    (revived.graph.reset false).allocator.live = 16 := by
  refine ⟨revived_managed, by decide +kernel, by decide +kernel⟩

/-- It belongs to the parameter; nothing was left where no one had asked. -/
theorem revived_owner : (∃ p, revived.graph.owned x.id p = some 0) ∧
    (parted.graph.reset false).allocator.held = [] := by
  obtain ⟨left, _, _⟩ := reset_clears revived_managed
  obtain ⟨_, _, clears⟩ := reset_clears parted_tidy.managed
  refine ⟨?_, (clears parted_tidy).1⟩
  have held : (0, 16) ∈ (revived.graph.reset false).allocator.held := by decide +kernel
  obtain ⟨n, p, mem, _, _, owns, _⟩ := (left 0 16).mp held
  have only : n = x := by
    rcases mem with ((impossible | same) | same) | same
    · exact impossible.elim
    · exact (Option.some.inj same).symm
    · cases same
    · cases same
  exact ⟨p, only ▸ owns⟩

end Sample

end ReverseMode
