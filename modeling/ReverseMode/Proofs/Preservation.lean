import ReverseMode.Proofs.TypedSessions

/-!
What nodes hold, in every state of every program.

Values and gradients have the extents and the element type of their nodes. A gradient is held by
trainable nodes only, and what is trainable is a parameter that was created so, or the output of a
differentiable operator behind a trainable input, and of float type. A node that no gradient can
reach is `Severed`, and never holds one.
-/

namespace ReverseMode

open scoped Element Scalar

/-- Nodes that no gradient can reach: by what they are, by the operator that they are the output of,
or because all their inputs are such nodes. -/
inductive Node.Severed : Node Scalar → Prop
  | constant {s : Stamp} {init : Initializer Scalar} (dated : s.episode ≠ none) :
      Severed (.leaf s init)
  | frozen {s : Stamp} {init : Initializer Scalar} (frozen : s.trainable.holds = false) :
      Severed (.leaf s init)
  | countable {n : Node Scalar} (whole : n.type.isFloat = false) : Severed n
  | stopped {s : Stamp} {inputs : List (Node Scalar)} : Severed (.apply s .stopGradient inputs)
  | compared {s : Stamp} {relation : Relation} {inputs : List (Node Scalar)} :
      Severed (.apply s (.joint (.compare relation)) inputs)
  | indices {s : Stamp} {k : Int} {axis : Axis} {descending : Bool} {inputs : List (Node Scalar)} :
      Severed (.apply s (.topK k axis descending true) inputs)
  | oneWay {s : Stamp} {shape : Shape} {type : ElementType} {forward : Rule Scalar}
      {name : String} {inputs : List (Node Scalar)} :
      Severed (.apply s (.custom shape type forward none name) inputs)
  | behind {s : Stamp} {op : Operator Scalar} {inputs : List (Node Scalar)}
      (all : ∀ i ∈ inputs, Severed i) : Severed (.apply s op inputs)

namespace Graph

variable {known : Node Scalar → Prop} {g : Graph Scalar}

/-- Where an application is trainable: its operator is differentiable and gives a float type, and an
input is trainable. -/
theorem WellFormed.trainable_apply (wf : WellFormed known g) {s : Stamp} {op : Operator Scalar}
    {inputs : List (Node Scalar)} (mem : known (.apply s op inputs)) :
    (Node.apply s op inputs).trainable = true ↔
      op.differentiable = true ∧ s.type.isFloat = true ∧ ∃ i ∈ inputs, i.trainable = true := by
  have flag : (Node.apply s op inputs).trainable = carriesGradient op s.type inputs :=
    congrArg Written.holds (wf.trainable mem)
  rw [flag, carriesGradient]
  simp [and_assoc]

/-- What is trainable is of float type, and a parameter or the output of a differentiable operator
that has a trainable input. -/
theorem WellFormed.of_trainable (wf : WellFormed known g) (lawful : ∀ n, known n → n.Lawful)
    {n : Node Scalar} (mem : known n) (trainable : n.trainable = true) :
    n.type.isFloat = true ∧ (n.isLeaf = true ∧ n.episode = none ∨ ∃ s op inputs,
      n = .apply s op inputs ∧ op.differentiable = true ∧ ∃ i ∈ inputs, i.trainable = true) := by
  cases n with
  | leaf s init =>
    obtain ⟨parameter, float⟩ := lawful _ mem trainable
    exact ⟨float, .inl ⟨rfl, parameter⟩⟩
  | apply s op inputs =>
    obtain ⟨differentiable, float, input⟩ := (wf.trainable_apply mem).mp trainable
    exact ⟨float, .inr ⟨s, op, inputs, rfl, differentiable, input⟩⟩

/-- Severed nodes are not trainable. -/
theorem WellFormed.of_severed (wf : WellFormed known g) (lawful : ∀ n, known n → n.Lawful)
    {n : Node Scalar} (severed : n.Severed) (mem : known n) : n.trainable = false := by
  have barred : ∀ {s : Stamp} {op : Operator Scalar} {inputs : List (Node Scalar)},
      known (.apply s op inputs) → op.differentiable = false →
      (Node.apply s op inputs).trainable = false := by
    intro s op inputs mem barred
    refine Bool.eq_false_iff.mpr fun trainable => ?_
    obtain ⟨differentiable, _⟩ := (wf.trainable_apply mem).mp trainable
    exact Bool.noConfusion (barred.symm.trans differentiable)
  induction severed with
  | constant dated =>
    refine Bool.eq_false_iff.mpr fun trainable => ?_
    exact dated (lawful _ mem trainable).1
  | frozen frozen => exact frozen
  | countable whole =>
    refine Bool.eq_false_iff.mpr fun trainable => ?_
    exact Bool.noConfusion (whole.symm.trans (wf.of_trainable lawful mem trainable).1)
  | stopped | compared | indices | oneWay => exact barred mem rfl
  | @behind s op inputs all ih =>
    refine Bool.eq_false_iff.mpr fun trainable => ?_
    obtain ⟨_, _, i, input, trainable⟩ := (wf.trainable_apply mem).mp trainable
    have severed := ih i input (wf.known_inputs mem input)
    exact Bool.noConfusion (severed.symm.trans trainable)

end Graph

namespace Session

variable {known : Node Scalar → Prop} {s : Session Scalar}

/-- Types are preserved. In every state of every program, whatever calls and steps have raised, a
value and a gradient that a node holds have its extents and its element type, no extent is zero,
and a gradient is held by trainable nodes only. A trainable node is of float type, and a parameter
or the output of a differentiable operator that has a trainable input; severed nodes hold no
gradient. -/
theorem Reachable.preserves (reachable : Reachable known s) {n : Node Scalar} (mem : known n) :
    (∀ t, (s.graphAt n.graph).held? n.id = some t →
      t.shape = n.shape.extents ∧ ∀ x ∈ t.toList, x.type? = some n.type.storage) ∧
    (∀ t, (s.graphAt n.graph).grad? n.id = some t →
      (t.shape = n.shape.extents ∧ ∀ x ∈ t.toList, x.type? = some n.type.storage) ∧
      n.trainable = true) ∧
    (∀ d ∈ n.shape.extents, 1 ≤ d) ∧
    (n.trainable = true →
      n.type.isFloat = true ∧ (n.isLeaf = true ∧ n.episode = none ∨ ∃ stamp op inputs,
        n = .apply stamp op inputs ∧ op.differentiable = true ∧ ∃ i ∈ inputs, i.trainable = true)) ∧
    (n.Severed → (s.graphAt n.graph).grad? n.id = none) := by
  have typed := reachable.typed
  have inside := typed.home n mem
  have sound := (typed.invariant n.graph inside).sound
  have world := typed.worlds n.graph inside
  have here : (s.world known n.graph).known n := ⟨mem, rfl⟩
  refine ⟨?_, ?_, n.shape.positive, world.graph.wf.of_trainable world.lawful here, ?_⟩
  · intro t found
    obtain ⟨held, value, rfl⟩ := Option.map_eq_some_iff.mp found
    obtain ⟨shape, elements⟩ := world.graph.typed.value here value
    exact ⟨shape, elements⟩
  · intro t found
    obtain ⟨held, grad, rfl⟩ := Option.map_eq_some_iff.mp found
    obtain ⟨shape, elements⟩ := world.graph.typed.grad here grad
    exact ⟨⟨shape, elements⟩, sound.trainable_of_grad here (Option.isSome_of_eq_some grad)⟩
  · intro severed
    refine Option.not_isSome_iff_eq_none.mp fun found => ?_
    have trainable := sound.gradTrainable here found
    have frozen := world.graph.wf.of_severed world.lawful severed here
    exact Bool.noConfusion (frozen.symm.trans trainable)

end Session

/-! ### An example -/

namespace Sample

open Session Session.Reachable

/-- The name of the gain. -/
def called : Written := ⟨.text "g", true, "g", "g"⟩

/-- A parameter. -/
def gain : Node Scalar :=
  .leaf ⟨0, 0, .scalar, .float64, none, .ofBool true, some called⟩ (.constant 3)

/-- Its square. -/
def power : Node Scalar :=
  .apply ⟨0, 1, .scalar, .float64, some 0, .ofBool true, none⟩ (.joint .mult)
    [gain, gain]

/-- The gain moves by half of its gradient. -/
def teacher : Optimizer Scalar where
  rule := .descent (.ok (.scalar (.real 0.5))) ⟨.ok true, .ok (.scalar (.real 0.0))⟩
  parameters := [.node gain]
  text := "SGD(lr=0.5, momentum=0.0)"

/-- A call on the first graph. -/
def calling (r : Request Scalar) (s : Session Scalar) : Session Scalar :=
  after (onGraph 0 r.call s)

def opened : Session Scalar := after (addGraph { type := .float64 } {})

/-- The gain is asked for. -/
def gaining : Request Scalar :=
  .parameter called gain.shape (.ok (.constant 3)) (.ok none) (.ofBool true)

/-- The gain is squared. -/
def squaring : Request Scalar := .add (.joint .mult) [.node gain, .node gain]

/-- The square has been computed and differentiated. -/
def graded : Session Scalar :=
  calling (.backward .last .ones) (calling .forward (calling squaring (calling gaining opened)))

/-- The gain has moved. -/
def taught : Session Scalar := after (Session.step 0 (after (addOptimizer teacher graded)))

theorem calling_reachable {known : Node Scalar → Prop} {s : Session Scalar} {r : Request Scalar}
    {a : Answer Scalar} (before : Reachable known s) (lawful : r.Lawful)
    (admissible : (s.world known 0).Admissible r) (inside : 0 < s.graphs.size)
    (answered : onGraph 0 r.call s = .ok a (calling r s)) :
    Reachable (World.knownAfter known a) (calling r s) :=
  .answer before inside lawful admissible answered

theorem graded_reachable : ∃ known, Reachable known graded ∧ known gain := by
  have started : Reachable (fun _ => False) opened := .graph .start _
  have first : Reachable (World.knownAfter (fun _ => False) (.node gain))
      (calling gaining opened) :=
    calling_reachable started trivial (List.forall_mem_nil _) (by decide) rfl
  have second : Reachable (World.knownAfter (World.knownAfter (fun _ => False) (.node gain))
      (.node power))
      (calling squaring (calling gaining opened)) := by
    refine calling_reachable first trivial (fun n inside _ => ?_) (by decide) rfl
    obtain rfl : n = gain := by simpa [squaring, Request.nodes, Input.nodes] using inside
    exact ⟨.inr rfl, rfl⟩
  obtain ⟨_, computed⟩ := answer_of_answers (r := onGraph 0 (Request.forward.call)
    (calling squaring (calling gaining opened))) (by decide +kernel)
  have third := calling_reachable (r := .forward) second trivial (List.forall_mem_nil _)
    (by decide) computed
  obtain ⟨_, differentiated⟩ := answer_of_answers (r := onGraph 0
    (Request.backward .last .ones).call
    (calling .forward (calling squaring (calling gaining opened))))
    (by decide +kernel)
  have fourth := calling_reachable (r := .backward .last .ones) third (Seeds.ones_plain false)
    (List.forall_mem_nil _) (by decide +kernel) differentiated
  exact ⟨_, fourth, .inl (.inl (.inl (.inr rfl)))⟩

/-- Nothing in a number without extents differs from any other. -/
theorem scalar_homogeneous (x : Scalar) : Quantity.Homogeneous (.ok (.scalar x)) := by
  intro t same
  cases same
  intro a mem b mem'
  rw [List.mem_singleton.mp mem, List.mem_singleton.mp mem']
  exact .refl x

/-- After the step the gain still holds a value and a gradient of its type. -/
theorem taught_gain :
    ((taught.graphAt 0).held? 0).isSome = true ∧ ((taught.graphAt 0).grad? 0).isSome = true ∧
      (∀ t, (taught.graphAt 0).held? 0 = some t →
        t.shape = [] ∧ ∀ x ∈ t.toList, x.type? = some .float64) ∧
      (∀ t, (taught.graphAt 0).grad? 0 = some t →
        t.shape = [] ∧ ∀ x ∈ t.toList, x.type? = some .float64) := by
  obtain ⟨known, reachable, mem⟩ := graded_reachable
  have rule : teacher.rule.Homogeneous := ⟨scalar_homogeneous _, scalar_homogeneous _⟩
  have handed : ∀ p ∈ teacher.parameters, ∀ n ∈ p.nodes, known n := by
    intro p inside n node
    obtain rfl := List.mem_singleton.mp inside
    obtain rfl := List.mem_singleton.mp node
    exact mem
  have moved : Reachable known taught := .step (.optimizer reachable rfl rule handed) 0
  obtain ⟨value, grad, _⟩ := moved.preserves mem
  exact ⟨by decide +kernel, by decide +kernel, value, fun t found => (grad t found).1⟩

end Sample

end ReverseMode
