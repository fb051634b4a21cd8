import ReverseMode.Proofs.Exact
import ReverseMode.Proofs.Invariant

/-!
Values of a reachable graph.

Whatever has been released meanwhile, the values that a graph holds or answers are the
denotations of their nodes, as long as no leaf has been written to since values were computed
from it. A forward pass computes the whole tape, and a second one right after it does nothing.
-/

namespace ReverseMode

namespace Graph

variable {α : Type} [Element α] {known : Node α → Prop} {g g' : Graph α}

/-- After a forward pass every node of the tape has been computed. -/
theorem forward_computed (sound : Sound known g)
    (answered : (forward : GraphM α Unit) g = .ok () g') :
    g'.tape = g.tape ∧ g'.forwarded = true ∧
      ∀ n ∈ g'.tape.toList, (g'.slot n.id).computed = true := by
  obtain ⟨g₁, passed, quiet⟩ := forward_passes answered
  obtain ⟨changes, computed⟩ := forwardFrom_uncomputed_computed sound passed
  have tape : g'.tape = g.tape :=
    (tape_of_outline quiet.outline).trans (tape_of_outline changes.outline : g₁.tape = g.tape)
  refine ⟨tape, forwarded_of_outline quiet.outline, fun n on => ?_⟩
  rw [quiet.slots]
  exact computed n (tape ▸ on)

omit [Element α] in
/-- A log section whose pieces can all be had is written. -/
theorem written_ok (texts : List String) : (Report.written (texts.map .ok)).2 = none := by
  induction texts with
  | nil => rfl
  | cons text texts ih => exact ih

/-- A forward pass over nothing is noted in the log. -/
theorem logForward_nil (g : Graph α) :
    ∃ reports, logForward [] g = .ok () { g with reports } ∧
      (g.settings.log? = none → reports = g.reports) := by
  rw [logForward, run_bind (answer_get.mpr ⟨rfl, rfl⟩)]
  cases log : g.settings.log? with
  | none =>
    refine ⟨g.reports, ?_, fun _ => rfl⟩
    exact answer_pure.mpr ⟨rfl, rfl⟩
  | some l =>
    have pieces : (Report.written (Report.forwardText g.episode 0 [])).2 = none :=
      written_ok [Report.lined (Report.title g.episode "FORWARD PASS") ++
        Report.lined ("Timestamp: " ++ Report.timeMark) ++
        Report.lined ("Nodes computed: " ++ toString 0) ++ "\n", Report.passEnd]
    refine ⟨g.reports.push (.log l.name (Report.written (Report.forwardText g.episode 0 [])).1), ?_,
      fun absent => by cases absent⟩
    exact writeLog_answer.mpr ⟨pieces, rfl⟩

/-- A forward pass right after another one changes nothing; it may be noted in the log. -/
theorem forward_again (sound : Sound known g)
    (answered : (forward : GraphM α Unit) g = .ok () g') :
    ∃ reports, (forward : GraphM α Unit) g' = .ok () { g' with reports } ∧
      (g'.settings.log? = none → reports = g'.reports) := by
  obtain ⟨_, ended, computed⟩ := forward_computed sound answered
  have none : g'.uncomputed = [] := by
    refine List.eq_nil_iff_forall_not_mem.mpr fun n mem => ?_
    obtain ⟨on, fresh⟩ := mem_uncomputed.mp mem
    simp [computed n on] at fresh
  have marked : g'.marked = g' := by
    rw [Graph.marked, ← ended]
  obtain ⟨reports, logged, same⟩ := logForward_nil g'
  refine ⟨reports, forward_answer.mpr ⟨g', ?_, ?_⟩, same⟩
  · rw [none]
    rfl
  · rw [none, marked]
    exact logged

omit [Element α] in
theorem checkNode_of_tape (wf : WellFormed known g) {n : Node α} (on : n ∈ g.tape.toList) :
    g.checkNode n = .ok () := by
  obtain ⟨mem, current⟩ := wf.tape.mp on
  simp [checkNode, wf.home mem, current]

/-- The value of a computed node of the tape is answered, and it is the denotation. -/
theorem value_of_computed (faithful : Faithful known g) {n : Node α} (on : n ∈ g.tape.toList)
    (computed : (g.slot n.id).computed = true) :
    ∃ t g', value (.node n) g = .ok t g' ∧ Recalls known g g' ∧ g.den n = some t := by
  obtain ⟨g', t, answers, recalls, value⟩ := ensured_recalls faithful
    (faithful.known_of_tape on) (.of_computed faithful.toSound on computed)
  exact ⟨t, g', value_of_ensured (checkNode_of_tape faithful.toWellFormed on) (.inr computed) answers,
    recalls, value⟩

end Graph

/-! ### Reachable worlds -/

namespace World

open ReverseMode.Graph

variable {α : Type} [Element α]

theorem Reachable.next {w : World α} (reachable : Reachable w) {r : Request α} {a : Answer α}
    {g : Graph α} (admissible : w.Admissible r) (answered : r.call w.graph = .ok a g) :
    Reachable (w.next r a g) :=
  .step reachable (.answer admissible answered)

/-- The values of a reachable graph are denotations: the ones it holds, and, once a forward pass
has ended, the ones it answers for the nodes of that pass whatever is called before the tape
is forgotten. Flags follow the inputs, and a second forward pass changes nothing. -/
theorem reachable_denotes {w : World α} (reachable : Reachable w) :
    (w.fresh → ∀ n ∈ w.graph.tape.toList, ∀ t,
      w.graph.held? n.id = some t → w.graph.den n = some t) ∧
    (∀ n ∈ w.graph.tape.toList, (w.graph.slot n.id).computed = true →
      ∀ m ∈ n.inputs, (w.graph.slot m.id).computed = true) ∧
    (∀ n, w.known n → (w.graph.held? n.id).isSome → (w.graph.slot n.id).computed = true) ∧
    ∀ g, (forward : GraphM α Unit) w.graph = .ok () g →
      (∀ n ∈ g.tape.toList, (g.slot n.id).computed = true) ∧
      (∃ reports, (forward : GraphM α Unit) g = .ok () { g with reports } ∧
        (g.settings.log? = none → reports = g.reports)) ∧
      ∀ w', Lasting ⟨g, w.known, w.fresh⟩ w' → w'.fresh → ∀ n ∈ g.tape.toList,
        ∃ t g', value (.node n) w'.graph = .ok t g' ∧ w'.graph.den n = some t := by
  have invariant := reachable.invariant
  have sound := invariant.sound
  refine ⟨fun fresh n on t => (invariant.faithful fresh).held on,
    fun n on done m => sound.computedInputs on done,
    fun n mem held => sound.heldComputed mem (by simpa [held?] using held),
    fun g answered => ?_⟩
  obtain ⟨_, _, computed⟩ := forward_computed sound answered
  refine ⟨computed, forward_again sound answered, fun w' lasting fresh n on => ?_⟩
  have invariant' : Invariant ⟨g, w.known, w.fresh⟩ := by
    have kept : Keeps w.known w.graph (after (forward w.graph)) := forward_keeps w.graph
    rw [answered, after_ok] at kept
    exact invariant.of_keeps kept
  obtain ⟨later, onLater, computedLater⟩ := lasting.computed invariant'
  obtain ⟨t, g', answers, _, value⟩ :=
    value_of_computed (later.faithful fresh) (onLater n on) (computedLater _ (computed n on))
  exact ⟨t, g', answers, value⟩

end World

/-! ### An example -/

namespace Sample

open ReverseMode.Graph World

/-- The stamp of a node of two elements on the first graph. -/
def stamp (id : Nat) (episode : Option Nat) (name : Option Written) : Stamp :=
  { graph := 0, id, shape := ⟨[2], by decide⟩, type := .float64, episode
    trainable := .ofBool true, name }

def name : Written := ⟨.text "x", true, "x", "x"⟩

/-- A parameter that holds threes. -/
def x : Node Int := .leaf (stamp 0 none (some name)) (.constant 3)

def square : Node Int := .apply (stamp 1 (some 0) none) (.joint .mult) [x, x]

def sum : Node Int := .apply (stamp 2 (some 0) none) (.joint .plus) [square, x]

/-- The parameter, its square, and the sum of both are built. -/
def built : World Int :=
  let w : World Int := start 0 { type := .float64 }
  let w := w.next (.parameter name x.shape (.ok (.constant 3)) (.ok none) (.ofBool true)) (.node x)
    (w.graph.registered x)
  let w := w.next (.add (.joint .mult) [.node x, .node x]) (.node square) (w.graph.recorded square)
  w.next (.add (.joint .plus) [.node square, .node x]) (.node sum) (w.graph.recorded sum)

/-- The square is checkpointed. -/
def flagged : World Int :=
  built.next (.checkpoint square) (.node square)
    (built.graph.modifySlot square.id fun s => { s with checkpoint := true })

/-- A forward pass has computed both and dropped the value of the square. -/
def passed : World Int :=
  flagged.next .forward .done (after ((forward : GraphM Int Unit) flagged.graph))

theorem built_reachable : Reachable built := by
  refine .next (.next (.next (.start 0 _) ?_ rfl) ?_ rfl) ?_ rfl
  · intro n inside
    cases inside
  · intro n inside _
    simp [Request.nodes, Input.nodes] at inside
    exact .inr (inside ▸ rfl)
  · intro n inside _
    simp [Request.nodes, Input.nodes] at inside
    rcases inside with rfl | rfl
    · exact .inr rfl
    · exact .inl (.inr rfl)

theorem flagged_reachable : Reachable flagged := by
  refine .next built_reachable ?_ rfl
  intro n inside _
  simp [Request.nodes] at inside
  exact .inl (.inr (inside ▸ rfl))

theorem flagged_passes : (forward : GraphM Int Unit) flagged.graph = .ok () passed.graph := by
  obtain ⟨_, ran⟩ := answer_of_answers
    (r := (forward : GraphM Int Unit) flagged.graph) (by decide +kernel)
  exact ran

theorem passed_reachable : Reachable passed := by
  refine .next flagged_reachable (fun n inside => ?_) (answer_return.mpr ⟨(), flagged_passes, rfl⟩)
  cases inside

theorem passed_fresh : passed.fresh := .inl (.inl (.inl (.inl (.inl trivial))))

theorem passed_tape : passed.graph.tape.toList = [square, sum] := by
  rw [(forward_computed flagged_reachable.invariant.sound flagged_passes).1]
  rfl

/-- The square holds no value and still answers what it denotes. -/
theorem passed_denotes : (passed.graph.held? square.id).isNone = true ∧
    (∃ t g, value (.node square) passed.graph = .ok t g ∧ passed.graph.den square = some t) ∧
    (passed.graph.den sum).map Tensor.toList = some [12, 12] := by
  refine ⟨by decide +kernel, ?_, ?_⟩
  · obtain ⟨_, _, _, passes⟩ := reachable_denotes flagged_reachable
    obtain ⟨_, _, answers⟩ := passes passed.graph flagged_passes
    exact answers _ .refl (.inl (.inl (.inl (.inl trivial)))) square (by simp [passed_tape])
  · have held : (passed.graph.held? sum.id).map Tensor.toList = some [12, 12] := by decide +kernel
    obtain ⟨t, held, elements⟩ := Option.map_eq_some_iff.mp held
    obtain ⟨denotes, _⟩ := reachable_denotes passed_reachable
    rw [denotes passed_fresh sum (by simp [passed_tape]) t held]
    exact congrArg some elements

end Sample

end ReverseMode
