import ReverseMode.Proofs.Moments
import ReverseMode.Proofs.Values

/-!
What a backward pass leaves in memory.

Values that were released come back during a backward pass, for any chain of nodes below the one
that is visited. Where memory is released they are dropped again: they belong to nodes that the
walk has still to visit. At the end of the pass the tape holds values and gradients of leaves and
retained nodes only, none of theirs is lost or changed, and a retained node that a gradient has
reached holds it together with its value.
-/

namespace ReverseMode

namespace World

open ReverseMode.Graph

variable {α : Type} [Element α]

/-- Where memory is released, a backward pass that ends, from any roots and seeds, leaves values
and gradients on the tape to leaves and retained nodes only; the roots are retained, and what was
retained stays so. Leaves and retained nodes hold what they held before. A retained application
that has a gradient at any moment of the pass holds its value and its gradient afterwards, and
that is the one with which the walk has come to it. -/
theorem backward_residency {w : World α} (reachable : Reachable w)
    (releases : w.graph.settings.releaseMemory = true) {roots : Roots α} {seeds : Seeds}
    (admissible : w.Admissible (.backward roots seeds)) {g : Graph α}
    (answered : backward roots seeds w.graph = .ok () g) :
    g.tape = w.graph.tape ∧
    (∀ n ∈ g.tape.toList, (g.slot n.id).value.isSome ∨ (g.slot n.id).grad.isSome →
      n.isLeaf = true ∨ (g.slot n.id).retained = true) ∧
    (∀ started, w.graph.checkBackward roots seeds = .ok started →
      ∀ root ∈ started, (g.slot root.1.id).retained = true) ∧
    (∀ id, (w.graph.slot id).retained = true → (g.slot id).retained = true) ∧
    (∀ n, w.known n → n.isLeaf = true ∨ (g.slot n.id).retained = true →
      ∀ held, (w.graph.slot n.id).value = some held → (g.slot n.id).value = some held) ∧
    ∀ n ∈ g.tape.toList, n.isLeaf = false → n.trainable = true →
      (g.slot n.id).retained = true →
      ∀ visited rest p g₁, Moment w.graph roots seeds visited rest p g₁ →
        (g₁.slot n.id).grad.isSome →
        (g.slot n.id).value.isSome ∧ (g.slot n.id).grad.isSome ∧
          ((∀ m ∈ rest, m.id ≤ n.id) → (g.slot n.id).grad = (g₁.slot n.id).grad) := by
  have sound := reachable.invariant.sound
  obtain ⟨started, accepted⟩ := backward_accepted answered
  obtain ⟨g₀, p', g', seeded, walked, quiet⟩ := backward_visits accepted answered
  obtain ⟨prepares, kept, walkable⟩ := backward_walkable sound admissible accepted seeded releases
  obtain ⟨visited, _⟩ := walkable.visited walked
  have tape : g.tape = w.graph.tape :=
    tape_of_outline (quiet.outline.trans (visited.outline.trans prepares.outline))
  have retained : ∀ id, (g.slot id).retained = (g₀.slot id).retained := by
    intro id
    rw [quiet.slots]
    exact visited.retained id
  rw [tape]
  refine ⟨rfl, fun n on holds => ?_, fun started' accepted' root inside => ?_, fun id before => ?_,
    fun n mem stays held value => ?_,
    fun n on inner trainable stays before rest p g₁ moment found => ?_⟩
  · by_contra neither
    have may : g₀.releasable n = true := by
      rw [retained] at neither
      simpa [releasable] using neither
    obtain ⟨value, grad⟩ := visited.left n (List.mem_reverse.mpr on) may
    rw [quiet.slots, value, grad] at holds
    simp at holds
  · cases accepted.symm.trans accepted'
    rw [retained]
    exact kept root inside
  · rw [retained]
    exact prepares.retained before
  · have stays₀ : g₀.releasable n = false := by
      rw [retained] at stays
      rcases stays with leaf | flag
      · simp [releasable, leaf]
      · simp [releasable, flag]
    rw [quiet.slots]
    exact visited.value mem stays₀ (prepares.value value)
  · obtain ⟨started', g₀', accepted', seeded', walked₁⟩ := moment.walked
    cases accepted.symm.trans accepted'
    cases seeded.symm.trans seeded'
    rw [moment.tape] at walked walkable
    obtain ⟨p₂, g₂, walked₂, walked'⟩ := visits_append.mp walked
    cases walked₁.symm.trans walked₂
    rw [quiet.slots]
    have inside : n ∈ before ++ rest := by
      rw [← moment.tape]
      exact List.mem_reverse.mpr on
    exact walkable.received walked₁ walked' inside inner trainable
      ((retained n.id).symm.trans stays) found

end World

/-! ### An example -/

namespace Sample

open ReverseMode.Graph World

/-- A backward pass from the sum has ended; the square was dropped before it. -/
def returned : Graph Int := after ((backward .last .ones : GraphM Int Unit) passed.graph)

theorem returned_answers :
    (backward .last .ones : GraphM Int Unit) passed.graph = .ok () returned := by
  obtain ⟨_, ran⟩ := answer_of_answers
    (r := (backward .last .ones : GraphM Int Unit) passed.graph) (by decide +kernel)
  exact ran

/-- The pass has had the value of the square again and has dropped it again; the sum holds its
value and its gradient, the parameter the value that it had. -/
theorem returned_resident : (returned.slot square.id).value = none ∧
    (returned.slot sum.id).value.isSome ∧ (returned.slot sum.id).grad.isSome ∧
    ∃ held, (passed.graph.slot x.id).value = some held ∧
      (returned.slot x.id).value = some held := by
  obtain ⟨tape, resident, _, _, kept, received⟩ := backward_residency passed_reachable
    (by decide +kernel) (fun n inside => by cases inside) returned_answers
  have on : ∀ n ∈ [square, sum], n ∈ returned.tape.toList := by
    rw [tape, passed_tape]
    exact fun _ inside => inside
  constructor
  · by_contra held
    have holds : (returned.slot square.id).value.isSome := Option.isSome_iff_ne_none.mpr held
    have flags : square.isLeaf = false ∧ (returned.slot square.id).retained = false := by
      decide +kernel
    rcases resident square (on square (by simp)) (.inl holds) with leaf | retained
    · cases flags.1.symm.trans leaf
    · cases flags.2.symm.trans retained
  -- the last moment of the pass
  obtain ⟨started, accepted⟩ := backward_accepted returned_answers
  obtain ⟨g₀, p, g₁, seeded, walked, quiet⟩ := backward_visits accepted returned_answers
  have last : Moment passed.graph .last .ones passed.graph.tape.toList.reverse [] p g₁ :=
    ⟨by simp, started, g₀, accepted, seeded, walked⟩
  have found : (g₁.slot sum.id).grad.isSome := by
    rw [← quiet.slots]
    decide +kernel
  obtain ⟨value, grad, _⟩ := received sum (on sum (by simp)) rfl rfl (by decide +kernel)
    _ _ _ _ last found
  refine ⟨value, grad, ?_⟩
  have holds : (passed.graph.slot x.id).value.isSome := by decide +kernel
  obtain ⟨held, value⟩ := Option.isSome_iff_exists.mp holds
  exact ⟨held, value, kept x (by simp [passed, flagged, built, next, knownAfter, Answer.node?])
    (.inl rfl) held value⟩

end Sample

end ReverseMode
