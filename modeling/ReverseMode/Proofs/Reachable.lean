import ReverseMode.Proofs.Construction

/-!
Reachable graphs.

A `World` is a graph with the nodes it has handed out. It moves by calls on the graph, which
may raise, and by elements written to a storage from outside, as optimizers do. A world is
fresh as long as no write has changed a value while values computed from others were there;
forgetting what was computed makes it fresh again.

Every reachable graph is sound, and faithful while its world is fresh.
-/

namespace ReverseMode

variable {α : Type}

/-- A call on a graph. -/
inductive Request (α : Type) where
  | add (op : Operator α) (inputs : List (Input α))
  | constant (shape : Shape) (init : Initializer α) (type : Deferred (Option ElementType))
      (name : Option Written)
  | parameter (name : Written) (shape : Shape) (init : Except Fault (Initializer α))
      (type : Deferred (Option ElementType)) (trainable : Written)
  | retain (n : Input α)
  | checkpoint (n : Node α)
  | forward
  | backward (roots : Roots α) (seeds : Seeds)
  | value (n : Input α)
  | gradOf (n : Input α)
  | reset (keepParameters : Bool)
  | invalidate (n : Option (Input α))
  | zeroGrad (n : Node α)
  | zeroGrads

/-- What a call answers. -/
inductive Answer (α : Type) where
  | done
  | node (n : Node α)
  | array (t : Tensor α)
  | gradient (t : Option (Tensor α))

/-- The nodes that an input stands for. -/
def Input.nodes : Input α → List (Node α)
  | .node n => [n]
  | .other _ => []

/-- The nodes that some roots stand for. -/
def Roots.nodes : Roots α → List (Node α)
  | .last => []
  | .one root => root.nodes
  | .many roots => roots.flatMap Input.nodes

namespace Request

/-- The nodes that a call is handed. -/
def nodes : Request α → List (Node α)
  | add _ inputs => inputs.flatMap Input.nodes
  | retain n | value n | gradOf n | invalidate (some n) => n.nodes
  | checkpoint n | zeroGrad n => [n]
  | backward roots _ => roots.nodes
  | constant _ _ _ _ | parameter _ _ _ _ _ | forward | reset _ | invalidate none | zeroGrads => []

/-- The call. -/
def call [Element α] : Request α → GraphM α (Answer α)
  | add op inputs => return .node (← Graph.add op inputs)
  | constant shape init type name => return .node (← Graph.constant shape init type name)
  | parameter name shape init type trainable =>
    return .node (← Graph.parameter name shape init type trainable)
  | retain n => return .node (← Graph.retain n)
  | checkpoint n => return .node (← Graph.checkpoint n)
  | forward => do
    Graph.forward
    return .done
  | backward roots seeds => do
    Graph.backward roots seeds
    return .done
  | value n => return .array (← Graph.value n)
  | gradOf n => return .gradient (← Graph.gradOf n)
  | reset keepParameters => do
    modify (Graph.reset keepParameters)
    return .done
  | invalidate n => do
    Graph.invalidate n
    return .done
  | zeroGrad n => do
    modify (Graph.zeroGrad n)
    return .done
  | zeroGrads => do
    modify Graph.zeroGrads
    return .done

/-- Whether a call builds a node. -/
def builds : Request α → Bool
  | add _ _ | constant _ _ _ _ | parameter _ _ _ _ _ => true
  | _ => false

/-- Whether a call forgets what was computed from other values. -/
def renews : Request α → Bool
  | reset _ | invalidate _ => true
  | _ => false

end Request

/-- The node that an answer hands out. -/
def Answer.node? : Answer α → Option (Node α)
  | node n => some n
  | _ => none

/-- A graph with the nodes that it has handed out. -/
structure World (α : Type) where
  graph : Graph α
  known : Node α → Prop
  fresh : Prop

namespace World

open ReverseMode.Graph

/-- A graph without nodes. -/
def start (serial : Nat) (settings : Settings) : World α :=
  ⟨Graph.create serial settings, fun _ => False, True⟩

/-- The nodes known after an answer. -/
def knownAfter (known : Node α → Prop) (a : Answer α) (n : Node α) : Prop :=
  known n ∨ a.node? = some n

/-- The world that a call leaves which answers. -/
def next (w : World α) (r : Request α) (a : Answer α) (g : Graph α) : World α :=
  ⟨g, knownAfter w.known a, w.fresh ∨ r.renews = true⟩

/-- A call is handed nodes that the graph has handed out, or nodes of other graphs, which it
refuses. Gradients are set to zero on the graph of their node. -/
def Admissible (w : World α) : Request α → Prop
  | .zeroGrad n => w.known n
  | r => ∀ n ∈ r.nodes, n.graph = w.graph.serial → w.known n

/-- One step of a world; the flag says whether it forgets what was computed. -/
inductive Step [Element α] : Bool → World α → World α → Prop
  | answer {w : World α} {r : Request α} {a : Answer α} {g : Graph α}
      (admissible : w.Admissible r) (answered : r.call w.graph = .ok a g) :
      Step r.renews w (w.next r a g)
  | raise {w : World α} {r : Request α} {f : Fault} {g : Graph α}
      (admissible : w.Admissible r) (raised : r.call w.graph = .error f g) :
      Step false w ⟨g, w.known, w.fresh⟩
  /-- Elements written to a storage, as an optimizer does. -/
  | write {w : World α} (storage : Nat) (elements : Tensor α) :
      Step false w ⟨w.graph.write storage elements, w.known,
        w.fresh ∧ (w.graph.write storage elements).held? = w.graph.held? ∨ w.graph.Unread⟩
  /-- The reports are taken, or the accounting starts anew. -/
  | quiet {w : World α} {g : Graph α} (quiet : Quiet w.graph g) :
      Step false w ⟨g, w.known, w.fresh⟩

/-- Worlds that come about by steps from a graph without nodes. -/
inductive Reachable [Element α] : World α → Prop
  | start (serial : Nat) (settings : Settings) : Reachable (start serial settings)
  | step {w w' : World α} {renews : Bool} (reachable : Reachable w) (step : Step renews w w') :
      Reachable w'

/-- Steps that end no episode and forget nothing that was computed. -/
abbrev Lasting [Element α] : World α → World α → Prop := Relation.ReflTransGen (Step false)

end World

namespace Graph

variable {known : Node α → Prop} {g g' : Graph α}

/-! ### Checks -/

theorem serial_of_checkNode {n : Node α} (used : g.checkNode n = .ok ()) : n.graph = g.serial := by
  unfold checkNode at used
  split at used
  · cases used
  next home => simpa using home

theorem checkInput_eq_ok {input : Input α} {n : Node α} :
    g.checkInput input = .ok n ↔ input = .node n ∧ g.checkNode n = .ok () := by
  cases input with
  | node m =>
    rw [checkInput, bind_eq_ok]
    simp only [pure_eq_ok, Input.node.injEq]
    constructor
    · rintro ⟨_, used, rfl⟩
      exact ⟨rfl, used⟩
    · rintro ⟨rfl, used⟩
      exact ⟨_, used, rfl⟩
  | other => simp [checkInput]

/-- Whether an input is accepted depends on the graph and its episode only. -/
theorem checkInput_congr (serial : g'.serial = g.serial) (episode : g'.episode = g.episode) :
    g'.checkInput = g.checkInput := by
  funext n
  cases n with
  | node n => rw [checkInput, checkInput, checkNode, checkNode, serial, episode]
  | other => rfl

theorem mapM_eq_ok_mem {β γ : Type} {f : β → Except Fault γ} {as : List β} {bs : List γ}
    (mapped : as.mapM f = .ok bs) : ∀ b ∈ bs, ∃ a ∈ as, f a = .ok b := by
  induction as generalizing bs with
  | nil =>
    rw [List.mapM_nil, pure_eq_ok] at mapped
    simp [← mapped]
  | cons a as ih =>
    rw [List.mapM_cons, bind_eq_ok] at mapped
    obtain ⟨b, first, mapped⟩ := mapped
    obtain ⟨rest, others, mapped⟩ := bind_eq_ok.mp mapped
    rw [← pure_eq_ok.mp mapped]
    intro c mem
    rcases List.mem_cons.mp mem with rfl | mem
    · exact ⟨a, by simp, first⟩
    · obtain ⟨a', inside, found⟩ := ih others c mem
      exact ⟨a', by simp [inside], found⟩

/-- The inputs of a call that are accepted are known and may be used. -/
theorem checkInputs {inputs : List (Input α)} {ns : List (Node α)}
    (known' : ∀ n ∈ inputs.flatMap Input.nodes, n.graph = g.serial → known n)
    (checked : inputs.mapM g.checkInput = .ok ns) :
    ∀ n ∈ ns, known n ∧ g.checkNode n = .ok () := by
  intro n mem
  obtain ⟨input, inside, accepted⟩ := mapM_eq_ok_mem checked n mem
  obtain ⟨rfl, used⟩ := checkInput_eq_ok.mp accepted
  refine ⟨known' n ?_ (serial_of_checkNode used), used⟩
  exact List.mem_flatMap.mpr ⟨_, inside, by simp [Input.nodes]⟩

/-- A root that is accepted may be used; its seed was handed in and has its extents. -/
theorem checkRoot_eq_ok {root : Input α} {seed : Option Seed} {n : Node α}
    {literal : Option Literal} (accepted : g.checkRoot root seed = .ok (n, literal)) :
    root = .node n ∧ g.checkNode n = .ok () ∧ seed = literal.map .ok ∧
      ∀ l ∈ literal, l.shape = n.shape.extents := by
  rw [checkRoot, bind_eq_ok] at accepted
  obtain ⟨m, checked, accepted⟩ := accepted
  obtain ⟨rfl, used⟩ := checkInput_eq_ok.mp checked
  cases seed with
  | none =>
    cases pure_eq_ok.mp accepted
    exact ⟨rfl, used, rfl, fun l mem => nomatch mem⟩
  | some given =>
    obtain ⟨l, read, accepted⟩ := bind_eq_ok.mp accepted
    split at accepted
    · obtain ⟨_, impossible, _⟩ := bind_eq_ok.mp accepted
      cases impossible
    next fits =>
      cases pure_eq_ok.mp accepted
      refine ⟨rfl, used, congrArg some read, fun l' mem => ?_⟩
      cases mem
      exact not_not.mp fits

/-- What a backward pass that is accepted starts from. -/
theorem checkBackward_eq_ok {roots : Roots α} {seeds : Seeds}
    {started : List (Node α × Option Literal)}
    (accepted : g.checkBackward roots seeds = .ok started) :
    g.settings.inference = false ∧ g.forwarded = true ∧ g.uncomputed = [] ∧
      ∃ inputs, g.rootList roots = .ok inputs ∧
        ((inputs.zip (seedList (seeds.listed roots.isMany) inputs.length)).mapM
          fun p => g.checkRoot p.1 p.2) = .ok started := by
  unfold checkBackward at accepted
  cases inference : g.settings.inference with
  | true =>
    simp only [inference, if_true] at accepted
    cases accepted
  | false =>
    cases forwarded : g.forwarded with
    | false =>
      simp only [inference, forwarded, Bool.not_false, if_true] at accepted
      cases accepted
    | true =>
      cases computed : g.uncomputed.isEmpty with
      | false =>
        simp only [inference, forwarded, computed, Bool.not_false, Bool.not_true] at accepted
        cases accepted
      | true =>
        simp only [inference, forwarded, computed, Bool.not_true] at accepted
        obtain ⟨inputs, listed, accepted⟩ := bind_eq_ok.mp accepted
        refine ⟨rfl, rfl, by simpa using computed, inputs, listed, ?_⟩
        by_cases count :
            (seedList (seeds.listed roots.isMany) inputs.length).length ≠ inputs.length
        · rw [if_pos count] at accepted
          cases accepted
        · rw [if_neg count] at accepted
          exact accepted

end Graph

end ReverseMode
