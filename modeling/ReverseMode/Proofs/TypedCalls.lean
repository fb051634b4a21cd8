import ReverseMode.Proofs.TypedPasses

/-!
Calls keep worlds typed.

A world is typed if its graph is and its nodes are lawful: operators apply functions that write as
arrays are written to, and the leaves that are trainable are parameters of float type. Every call
that is handed lawful functions and seeds keeps it typed, whether it answers or raises.
-/

namespace ReverseMode

open scoped Element Scalar

/-- What a caller hands in is lawful: the functions of custom operators, and seeds. -/
def Request.Lawful : Request Scalar → Prop
  | .add op _ => op.Lawful
  | .backward roots seeds => seeds.Plain roots.isMany
  | _ => True

namespace World

open ReverseMode.Graph

/-- The graph of a world has a serial number and is well-typed, and its nodes are lawful. -/
structure Typed (serial : Nat) (w : World Scalar) : Prop where
  graph : WellTyped w.known serial w.graph
  lawful : ∀ n, w.known n → n.Lawful

variable {serial : Nat} {w : World Scalar} {g : Graph Scalar} {r : Request Scalar}

/-- Calls that build nothing keep their graph well-typed. -/
theorem Typed.call_assures (typed : w.Typed serial) (old : r.builds = false) (lawful : r.Lawful)
    (admissible : w.Admissible r) :
    Assures (WellTyped w.known serial) (fun _ => True) r.call := by
  rw [← typed.graph.serial]
  have given := typed.lawful
  have done {β : Type} {x : GraphM Scalar β} {f : β → Answer Scalar}
      (assures : Assures (WellTyped w.known w.graph.serial) (fun _ => True) x) :
      Assures (WellTyped w.known w.graph.serial) (fun _ => True)
        (do return f (← x) : GraphM Scalar _) :=
    .bind assures fun _ _ => .of_pure trivial
  cases r with
  | add | constant | parameter => cases old
  | retain n => exact done (retain_assures (known_of_input rfl admissible))
  | checkpoint n =>
    exact done (checkpoint_assures fun home => admissible n (by simp [Request.nodes]) home)
  | forward => exact done (forward_assures given)
  | backward roots seeds => exact done (backward_assures given admissible lawful)
  | value n => exact done (value_assures given (known_of_input rfl admissible))
  | gradOf n => exact done (gradOf_assures n)
  | reset keepParameters =>
    exact .bind (.of_modify fun g ready => ready.reset keepParameters) fun _ _ => .of_pure trivial
  | invalidate n =>
    refine done (invalidate_assures fun m given home => ?_)
    exact admissible m (by simp [given, Request.nodes, Input.nodes]) home
  | zeroGrad n => exact done (assures_of_types (Leads.of_modify fun g => zeroGrad_types admissible))
  | zeroGrads =>
    refine done (assures_of_types (Leads.of_modify fun g wf => ?_))
    exact zeroGrads_types (fun n mem => (wf.parameters mem).1) wf

/-- A node that is built with what is lawful is lawful. -/
theorem Typed.built_lawful (typed : w.Typed serial) (lawful : r.Lawful) {a : Answer Scalar}
    (answered : r.call w.graph = .ok a g) (builds : r.builds = true) :
    ∀ n, knownAfter w.known a n → n.Lawful := by
  have wf := typed.graph.wf
  rintro n (mem | same)
  · exact typed.lawful n mem
  · cases r with
    | add op inputs =>
      obtain ⟨_, ran, rfl⟩ := answer_return.mp answered
      cases same
      obtain ⟨nodes, s, _, _, ⟨found, _⟩ | ⟨_, rfl, _⟩⟩ := add_answer.mp ran
      · exact typed.lawful n (wf.known_of_tape (wf.mem_of_found found))
      · exact lawful
    | constant shape init type name =>
      obtain ⟨_, ran, rfl⟩ := answer_return.mp answered
      cases same
      obtain ⟨_, t, _, rfl, _⟩ := constant_answer.mp ran
      intro trainable
      cases trainable
    | parameter name shape init type trainable =>
      obtain ⟨_, ran, rfl⟩ := answer_return.mp answered
      cases same
      rcases parameter_answer.mp ran with ⟨found, _⟩ | ⟨_, t, made, asked, _, _, rfl, _⟩
      · exact typed.lawful n (wf.parameters (mem_of_parameter? found)).1
      · intro _
        refine ⟨rfl, ?_⟩
        obtain ⟨type, _, float⟩ := bind_eq_ok.mp asked
        unfold ElementType.requireFloat at float
        split at float
        · cases float
          assumption
        · cases float
    | _ => cases builds

/-- A call that builds nothing hands out nothing new, and its graph stays well-typed. -/
theorem Typed.old_next (typed : w.Typed serial) (old : r.builds = false) (lawful : r.Lawful)
    (admissible : w.Admissible r) {a : Answer Scalar} (answered : r.call w.graph = .ok a g) :
    (w.next r a g).Typed serial := by
  have kept := (typed.call_assures old lawful admissible w.graph typed.graph).1
  rw [answered, after_ok] at kept
  unfold next
  rw [call_known admissible answered old]
  exact ⟨kept, typed.lawful⟩

/-- A call that builds hands out a node that holds nothing yet. -/
theorem Typed.built_next (typed : w.Typed serial) (builds : r.builds = true) (lawful : r.Lawful)
    (admissible : w.Admissible r) {a : Answer Scalar} (answered : r.call w.graph = .ok a g) :
    (w.next r a g).Typed serial := by
  have wf := typed.graph.wf
  refine ⟨?_, typed.built_lawful lawful answered builds⟩
  unfold next
  cases built_of_answer wf admissible answered builds with
  | same mem =>
    rw [knownAfter_of_known mem]
    exact typed.graph
  | recorded admits now =>
    rw [knownAfter_node]
    exact ⟨wf.recorded admits now, typed.graph.typed.with admits (slot_widened w.graph) rfl,
      typed.graph.serial⟩
  | registered admits free leaf =>
    rw [knownAfter_node]
    exact ⟨wf.registered admits free leaf,
      typed.graph.typed.with admits (slot_widened w.graph) rfl, typed.graph.serial⟩

/-- What a call answers leaves a world typed. -/
theorem Typed.answer (typed : w.Typed serial) (lawful : r.Lawful) (admissible : w.Admissible r)
    {a : Answer Scalar} (answered : r.call w.graph = .ok a g) : (w.next r a g).Typed serial := by
  cases builds : r.builds with
  | true => exact typed.built_next builds lawful admissible answered
  | false => exact typed.old_next builds lawful admissible answered

/-- A call that raises leaves a world typed, too. -/
theorem Typed.raise (typed : w.Typed serial) (lawful : r.Lawful) (admissible : w.Admissible r)
    {f : Fault} (raised : r.call w.graph = .error f g) : Typed serial ⟨g, w.known, w.fresh⟩ := by
  cases builds : r.builds with
  | true =>
    rcases build_raise_cases raised builds with rfl | rfl
    · exact typed
    · have kept : Graph.Typed w.known w.graph.widened :=
        typed.graph.typed.of_slots (Nat.le_refl _) (slot_widened w.graph)
      exact ⟨⟨typed.graph.wf.widened, kept, typed.graph.serial⟩, typed.lawful⟩
  | false =>
    have kept := (typed.call_assures builds lawful admissible w.graph typed.graph).1
    rw [raised, after_error] at kept
    exact ⟨kept, typed.lawful⟩

theorem Typed.quiet (typed : w.Typed serial) (quiet : Quiet w.graph g) :
    Typed serial ⟨g, w.known, w.fresh⟩ :=
  ⟨typed.graph.types (.of_quiet quiet), typed.lawful⟩

end World

end ReverseMode
