import ReverseMode.Proofs.Invariant

/-!
Whether a forward pass has ended.

A graph keeps a flag for it. Here it is read off the run instead: a forward pass that computes
every node it has to ends, also where its report fails afterwards; a new episode and an
invalidated graph begin without one. `History.flag` says that the flag of a reachable graph
tells just that.
-/

namespace ReverseMode

variable {α : Type} [Element α]

open ReverseMode.Graph

/-- Whether a call is a forward pass that computes every node it has to. -/
def Request.completes (g : Graph α) : Request α → Bool
  | forward => answers (forwardFrom g.uncomputed (Pending.start g.slots.size g.uncomputed) g)
  | _ => false

namespace World

/-- Reachable worlds, with whether a forward pass has ended since the episode began or the graph
was last invalidated. -/
inductive History : Bool → World α → Prop
  | start (serial : Nat) (settings : Settings) : History false (start serial settings)
  | answer {passed : Bool} {w : World α} {r : Request α} {a : Answer α} {g : Graph α}
      (before : History passed w) (admissible : w.Admissible r)
      (answered : r.call w.graph = .ok a g) :
      History (r.completes w.graph || (passed && !r.renews)) (w.next r a g)
  | raise {passed : Bool} {w : World α} {r : Request α} {f : Fault} {g : Graph α}
      (before : History passed w) (admissible : w.Admissible r)
      (raised : r.call w.graph = .error f g) :
      History (r.completes w.graph || passed) ⟨g, w.known, w.fresh⟩
  | write {passed : Bool} {w : World α} (before : History passed w) (storage : Nat)
      (elements : Tensor α) :
      History passed ⟨w.graph.write storage elements, w.known,
        w.fresh ∧ (w.graph.write storage elements).held? = w.graph.held? ∨ w.graph.Unread⟩
  | quiet {passed : Bool} {w : World α} {g : Graph α} (before : History passed w)
      (quiet : Quiet w.graph g) : History passed ⟨g, w.known, w.fresh⟩

variable {w : World α} {passed : Bool} {g : Graph α}

theorem History.reachable (history : History passed w) : Reachable w := by
  induction history with
  | start serial settings => exact .start serial settings
  | answer _ admissible answered ih => exact .step ih (.answer admissible answered)
  | raise _ admissible raised ih => exact .step ih (.raise admissible raised)
  | write _ storage elements ih => exact .step ih (.write storage elements)
  | quiet _ quiet ih => exact .step ih (.quiet quiet)

/-- Every reachable world has a history. -/
theorem Reachable.history (reachable : Reachable w) : ∃ passed, History passed w := by
  induction reachable with
  | start serial settings => exact ⟨_, .start serial settings⟩
  | step _ step ih =>
    obtain ⟨passed, before⟩ := ih
    cases step with
    | answer admissible answered => exact ⟨_, before.answer admissible answered⟩
    | raise admissible raised => exact ⟨_, before.raise admissible raised⟩
    | write storage elements => exact ⟨_, before.write storage elements⟩
    | quiet quiet => exact ⟨_, before.quiet quiet⟩

/-! ### The flag over one call -/

/-- A pass that computes every node it has to has ended before it reports. -/
theorem forward_ended {g₁ : Graph α} (ended : forwardFrom g.uncomputed
    (Pending.start g.slots.size g.uncomputed) g = .ok () g₁) :
    (forward : GraphM α Unit) g = logForward g.uncomputed g₁.marked := by
  have got : (get : GraphM α (Graph α)) g = .ok g g := rfl
  have marks : (modify marked : GraphM α Unit) g₁ = .ok () g₁.marked := rfl
  rw [forward, run_bind got, run_bind ended]
  exact run_bind marks

/-- A forward pass sets the flag where it ends, and leaves it else. -/
theorem forward_flag (sound : Sound w.known w.graph) :
    (after ((forward : GraphM α Unit) w.graph)).forwarded =
      ((Request.forward : Request α).completes w.graph || w.graph.forwarded) := by
  rw [Request.completes]
  cases loop : forwardFrom w.graph.uncomputed
      (Pending.start w.graph.slots.size w.graph.uncomputed) w.graph with
  | ok _ g₁ =>
    rw [forward_ended loop]
    exact forwarded_of_outline (logForward_leads w.graph.uncomputed g₁.marked).outline
  | error =>
    cases run : (forward : GraphM α Unit) w.graph with
    | ok =>
      obtain ⟨_, ended, _⟩ := forward_passes run
      simp [loop] at ended
    | error f g =>
      rcases forward_raise sound run with changes | ⟨_, ended, _⟩
      · exact forwarded_of_outline changes.outline
      · simp [loop] at ended

/-- What a call that answers does to the flag. -/
theorem answer_flag (sound : Sound w.known w.graph) {r : Request α} (admissible : w.Admissible r)
    {a : Answer α} (answered : r.call w.graph = .ok a g) :
    g.forwarded = (r.completes w.graph || (w.graph.forwarded && !r.renews)) := by
  cases r with
  | add | constant | parameter =>
    have lasts : w.graph.forwarded = (false || (w.graph.forwarded && !false)) := by simp
    cases built_of_answer sound.toWellFormed admissible answered rfl with
    | same | recorded | registered => exact lasts
  | reset keepParameters =>
    cases answered
    have ends := congrArg Outline.forwarded (outline_reset keepParameters w.graph)
    exact ends.trans (by simp [Request.completes, Request.renews])
  | invalidate n =>
    obtain ⟨_, ran, rfl⟩ := answer_return.mp answered
    rw [invalidate_eq, answer_bind] at ran
    obtain ⟨_, g₁, _, ran⟩ := ran
    rw [← answer_modify.mp ran, forgotten]
    simp [Request.completes, Request.renews]
  | forward =>
    obtain ⟨_, ran, _⟩ := answer_return.mp answered
    have flag := forward_flag sound
    rw [ran, after_ok] at flag
    rw [flag]
    simp [Request.renews]
  | retain | checkpoint | backward | value | gradOf | zeroGrad | zeroGrads =>
    have through := call_through sound admissible rfl rfl (by simp) sound
    rw [answered, after_ok] at through
    rw [forwarded_of_outline through.outline]
    simp [Request.completes, Request.renews]

/-- What a call that raises does to the flag. -/
theorem raise_flag (sound : Sound w.known w.graph) {r : Request α} (admissible : w.Admissible r)
    {f : Fault} (raised : r.call w.graph = .error f g) :
    g.forwarded = (r.completes w.graph || w.graph.forwarded) := by
  cases r with
  | add | constant | parameter =>
    rcases build_raise_cases raised rfl with rfl | rfl
    · rfl
    · rfl
  | reset keepParameters => cases raised
  | invalidate n =>
    rw [invalidate_raise (raise_return.mp raised)]
    rfl
  | forward =>
    have flag := forward_flag sound
    rwa [raise_return.mp raised, after_error] at flag
  | retain | checkpoint | backward | value | gradOf | zeroGrad | zeroGrads =>
    have through := call_through sound admissible rfl rfl (by simp) sound
    rw [raised, after_error] at through
    exact forwarded_of_outline through.outline

/-- The flag of a graph tells whether a forward pass has ended. -/
theorem History.flag (history : History passed w) : w.graph.forwarded = passed := by
  induction history with
  | start => rfl
  | answer before admissible answered ih =>
    rw [← ih]
    exact answer_flag before.reachable.invariant.sound admissible answered
  | raise before admissible raised ih =>
    rw [← ih]
    exact raise_flag before.reachable.invariant.sound admissible raised
  | write _ storage elements ih =>
    rw [← ih]
    exact forwarded_of_outline (outline_write storage elements _)
  | quiet _ quiet ih =>
    rw [← ih]
    exact forwarded_of_outline quiet.outline

end World

end ReverseMode
