import ReverseMode.Optimizer.Named
import ReverseMode.Proofs.Preservation
import ReverseMode.Proofs.UpdateFormulas
import ReverseMode.Proofs.UpdateRules

/-!
Trajectories of parameters.

An optimizer moves its parameters one after the other and keeps their averages under their labels.
A `Course` is what it has of one parameter alone: how many steps were made, the value, and the
averages. Where no node is listed twice, and no two nodes with averages share a label, each node
takes its own course, as if the optimizer had no other parameter.
-/

namespace ReverseMode

open scoped Element Scalar

/-! ### Courses -/

section Course

variable {α β γ σ : Type}

/-- The fault of a call that raises. -/
def failure? : EStateM.Result Fault σ β → Option Fault
  | .ok _ _ => none
  | .error f _ => some f

/-- What happens along a run: a program goes on to something else, or an optimizer steps. -/
inductive Phase (β : Type) where
  /-- What is there after something else. -/
  | given (values : β)
  /-- What a step is made with. -/
  | step (grads : β)

def Phase.map (f : β → γ) : Phase β → Phase γ
  | given values => given (f values)
  | step grads => step (f grads)

/-- What an optimizer has of one parameter. -/
structure Course (α : Type) where
  /-- How many steps were made. -/
  steps : Nat
  value : Option (Tensor α)
  averages : Option (List (Tensor α))

namespace Course

/-- The start of a step. -/
def begun (c : Course α) : Course α := { c with steps := c.steps + 1 }

/-- One application of a rule, where there is a value and a gradient. -/
def moved (apply : Nat → Tensor α → Moving α → Moving α) (grad : Option (Tensor α))
    (c : Course α) : Course α :=
  match c.value, grad with
  | some t, some d =>
    let m := apply c.steps d ⟨t, c.averages⟩
    { c with value := some m.value, averages := m.averages }
  | _, _ => c

variable {apply : Nat → Tensor α → Moving α → Moving α} {grad : Option (Tensor α)} {c : Course α}

theorem moved_idle (idle : c.value = none ∨ grad = none) : c.moved apply grad = c := by
  unfold moved
  rcases idle with absent | absent
  · simp [absent]
  · simp [absent]

theorem moved_active {t d : Tensor α} (value : c.value = some t) :
    c.moved apply (some d) = { c with
      value := some (apply c.steps d ⟨t, c.averages⟩).value
      averages := (apply c.steps d ⟨t, c.averages⟩).averages } := by
  unfold moved
  simp [value]

/-- A course goes on. -/
def next (apply : Nat → Tensor α → Moving α → Moving α) (c : Course α) :
    Phase (Option (Tensor α)) → Course α
  | .given value => { c with value }
  | .step grad => c.begun.moved apply grad

/-- Why a rule cannot be applied. -/
def fault? [Element α] (rule : UpdateRule α) (grad : Option (Tensor α)) (c : Course α) :
    Option Fault :=
  match c.value, grad with
  | some t, some d => failure? (rule.step c.steps d ⟨t, c.averages⟩)
  | _, _ => none

theorem fault?_idle [Element α] {rule : UpdateRule α} (idle : c.value = none ∨ grad = none) :
    c.fault? rule grad = none := by
  unfold fault?
  rcases idle with absent | absent
  · simp [absent]
  · simp [absent]

theorem fault?_active [Element α] {rule : UpdateRule α} {t d : Tensor α}
    (value : c.value = some t) :
    c.fault? rule (some d) = failure? (rule.step c.steps d ⟨t, c.averages⟩) := by
  unfold fault?
  simp [value]

end Course

/-- What a step of a rule leaves, also where it fails. -/
def UpdateRule.leaves [Element α] (rule : UpdateRule α) (steps : Nat) (grad : Tensor α)
    (m : Moving α) : Moving α := after (rule.step steps grad m)

end Course

/-- No node is listed twice, and where averages are kept no two nodes share a label. -/
structure UpdateRule.Separates {α : Type} (rule : UpdateRule α) (ns : List (Node α)) : Prop where
  nodes : ns.Nodup
  labels : rule.Keeps → (ns.map Node.label).Nodup

/-! ### The record of an optimizer -/

namespace Optimizer

variable {α : Type}

theorem lookup_replaced {state : List (String × List (Tensor α))} {label : String}
    (ts : List (Tensor α)) (l : String) :
    (state.map fun e => if e.1 == label then (label, ts) else e).lookup l =
      if l = label then (state.lookup label).map fun _ => ts else state.lookup l := by
  induction state with
  | nil => simp
  | cons e rest ih =>
    obtain ⟨k, held⟩ := e
    by_cases here : k = label
    · subst here
      by_cases same : l = k
      · simp [same]
      · have other : (l == k) = false := by simpa using same
        simpa [List.lookup_cons, other, same] using ih
    · have other : (label == k) = false := by simpa using Ne.symm here
      by_cases same : l = k
      · subst same
        simp [here]
      · have away : (l == k) = false := by simpa using same
        simpa [List.lookup_cons, other, away, here] using ih

/-- Averages are kept under their own label. -/
theorem state?_setState (o : Optimizer α) (label : String) (ts : List (Tensor α)) (l : String) :
    (o.setState label ts).state? l = if l = label then some ts else o.state? l := by
  unfold setState
  split
  next had =>
    obtain ⟨held, found⟩ := Option.isSome_iff_exists.mp had
    rw [state?, lookup_replaced, show o.state.lookup label = some held from found]
    rfl
  next had =>
    have absent : o.state.lookup label = none := Option.not_isSome_iff_eq_none.mp had
    rw [state?, List.lookup_append]
    split
    next same =>
      subst same
      simp [absent]
    next other =>
      have away : (l == label) = false := by simpa using other
      simp [state?, List.lookup_cons, away]

/-- The averages that a move has left are kept. -/
def keep (o : Optimizer α) (label : String) (averages : Option (List (Tensor α))) : Optimizer α :=
  match averages with
  | some ts => o.setState label ts
  | none => o

theorem state?_keep {o : Optimizer α} {label : String} {averages : Option (List (Tensor α))}
    (kept : (o.state? label).isSome → averages.isSome) (l : String) :
    (o.keep label averages).state? l = if l = label then averages else o.state? l := by
  cases averages with
  | some ts => exact state?_setState o label ts l
  | none =>
    split
    next same =>
      subst same
      exact Option.not_isSome_iff_eq_none.mp fun some => Bool.noConfusion (kept some)
    · rfl

/-- An optimizer that starts a step. -/
def begun (o : Optimizer α) : Optimizer α := { o with steps := o.steps + 1 }

/-- Only the averages of an optimizer have changed. -/
structure Same (o o' : Optimizer α) : Prop where
  rule : o'.rule = o.rule
  parameters : o'.parameters = o.parameters
  steps : o'.steps = o.steps

theorem same_keep (o : Optimizer α) (label : String) (averages : Option (List (Tensor α))) :
    Same o (o.keep label averages) := by
  cases averages with
  | none => exact ⟨rfl, rfl, rfl⟩
  | some ts =>
    unfold keep setState
    dsimp only
    split
    · exact ⟨rfl, rfl, rfl⟩
    · exact ⟨rfl, rfl, rfl⟩

end Optimizer

namespace Session

open ReverseMode.Graph

section Moves

variable {α : Type} {known : Node α → Prop} {s s' : Session α} {number : Nat} {o o' : Optimizer α}
  {n m : Node α} {ns : List (Node α)}

/-- The value a node holds. -/
def valueOf (s : Session α) (n : Node α) : Option (Tensor α) := (s.graphAt n.graph).held? n.id

/-- The gradient a node holds. -/
def gradOf (s : Session α) (n : Node α) : Option (Tensor α) := (s.graphAt n.graph).grad? n.id

/-- What an optimizer has of a parameter. -/
def course (s : Session α) (number : Nat) (n : Node α) : Course α where
  steps := (s.optimizers[number]?.map Optimizer.steps).getD 0
  value := s.valueOf n
  averages := s.optimizers[number]?.bind fun o => o.state? n.label

theorem course_eq (record : s.optimizers[number]? = some o) (n : Node α) :
    s.course number n = ⟨o.steps, s.valueOf n, o.state? n.label⟩ := by
  rw [course, record]
  rfl

theorem holds_of_active {held : Held α} {grad : Tensor α}
    (active : active? n (s.graphAt n.graph) = some (held, grad)) :
    s.valueOf n = some held.array ∧ s.gradOf n = some grad := by
  obtain ⟨value, gradient⟩ := active?_eq_some.mp active
  exact ⟨congrArg (Option.map Held.array) value, gradient⟩

theorem idle_of_active (idle : active? n (s.graphAt n.graph) = none) :
    s.valueOf n = none ∨ s.gradOf n = none :=
  (active?_eq_none idle).imp_left (congrArg (Option.map Held.array))

/-- Leaves and gradients of a session have storages of their own. -/
structure Apart (known : Node α → Prop) (s : Session α) : Prop where
  home : ∀ n, known n → n.graph < s.graphs.size
  stored : ∀ serial < s.graphs.size,
    Stored (fun n => known n ∧ n.graph = serial) (s.graphAt serial)

/-- A session in which a storage of a graph has been written, and an optimizer put in its place. -/
def written (s : Session α) (number : Nat) (o : Optimizer α) (serial storage : Nat)
    (elements : Tensor α) : Session α :=
  let written := (s.takeGraph serial).2.putGraph serial ((s.graphAt serial).write storage elements)
  { written with optimizers := written.optimizers.setIfInBounds number o }

theorem graphAt_written (number : Nat) (o : Optimizer α) {serial : Nat} (storage : Nat)
    (elements : Tensor α) (inside : serial < s.graphs.size) (j : Nat) :
    (s.written number o serial storage elements).graphAt j =
      if j = serial then { (s.graphAt serial).write storage elements with reports := #[] }
      else s.graphAt j := by
  refine (graphAt_onGraph serial s ((s.graphAt serial).write storage elements) j).trans ?_
  simp only [inside, and_true]

theorem record_written (record : s.optimizers[number]? = some o) (o' : Optimizer α)
    (serial storage : Nat) (elements : Tensor α) :
    (s.written number o' serial storage elements).optimizers[number]? = some o' := by
  obtain ⟨below, _⟩ := Array.getElem?_eq_some_iff.mp record
  have size := congrArg Array.size
    (optimizers_putGraph serial ((s.graphAt serial).write storage elements) s)
  rw [written, Array.getElem?_setIfInBounds_self_of_lt (by simpa [size] using below)]

theorem Apart.written (apart : s.Apart known) (number : Nat) (o : Optimizer α) {serial : Nat}
    (storage : Nat) (elements : Tensor α) (inside : serial < s.graphs.size) :
    (s.written number o serial storage elements).Apart known := by
  have size : (s.written number o serial storage elements).graphs.size = s.graphs.size :=
    size_putGraph serial _ s
  refine ⟨fun n mem => size ▸ apart.home n mem, fun j below => ?_⟩
  rw [size] at below
  rw [graphAt_written number o storage elements inside]
  split
  next here =>
    have stored := (apart.stored j below).write storage elements
    rw [here] at stored ⊢
    exact ⟨stored.valueUsed, stored.gradUsed, stored.values, stored.apart⟩
  · exact apart.stored j below

/-- What moving some parameters of an optimizer leaves alone. -/
structure Frame (known : Node α → Prop) (ns : List (Node α)) (o : Optimizer α) (s : Session α)
    (o' : Optimizer α) (s' : Session α) : Prop where
  same : o.Same o'
  /-- Only a rule that keeps averages changes those of a label. -/
  averages : ∀ label, (o.rule.Keeps → label ∉ ns.map Node.label) →
    o'.state? label = o.state? label
  values : ∀ m, known m → m.isLeaf = true → m ∉ ns → s'.valueOf m = s.valueOf m
  grads : ∀ m, known m → s'.gradOf m = s.gradOf m

namespace Frame

variable {ms : List (Node α)} {o₁ o₂ : Optimizer α} {s₁ s₂ : Session α}

theorem refl (ns : List (Node α)) (o : Optimizer α) (s : Session α) : Frame known ns o s o s :=
  ⟨⟨rfl, rfl, rfl⟩, fun _ _ => rfl, fun _ _ _ _ => rfl, fun _ _ => rfl⟩

theorem trans (first : Frame known ns o s o₁ s₁) (second : Frame known ms o₁ s₁ o₂ s₂) :
    Frame known (ns ++ ms) o s o₂ s₂ where
  same := ⟨second.same.rule.trans first.same.rule,
    second.same.parameters.trans first.same.parameters, second.same.steps.trans first.same.steps⟩
  averages label apart := by
    simp only [List.map_append, List.mem_append, not_or] at apart
    refine (second.averages label fun keeps => (apart ?_).2).trans
      (first.averages label fun keeps => (apart keeps).1)
    rwa [← first.same.rule]
  values m mem leaf out := by
    rw [List.mem_append, not_or] at out
    exact (second.values m mem leaf out.2).trans (first.values m mem leaf out.1)
  grads m mem := (second.grads m mem).trans (first.grads m mem)

/-- More parameters are left alone. -/
theorem mono (frame : Frame known ns o s o₁ s₁) (sub : ns ⊆ ms) : Frame known ms o s o₁ s₁ where
  same := frame.same
  averages label apart := frame.averages label fun keeps inside =>
    apart keeps (List.map_subset _ sub inside)
  values m mem leaf out := frame.values m mem leaf fun inside => out (sub inside)
  grads := frame.grads

/-- A node that is left alone keeps its course. -/
theorem course (frame : Frame known ns o s o₁ s₁) (record : s.optimizers[number]? = some o)
    (record' : s₁.optimizers[number]? = some o₁) (mem : known m) (leaf : m.isLeaf = true)
    (out : m ∉ ns) (apart : o.rule.Keeps → m.label ∉ ns.map Node.label) :
    s₁.course number m = s.course number m := by
  rw [course_eq record', course_eq record, frame.same.steps, frame.values m mem leaf out,
    frame.averages m.label apart]

end Frame

/-! ### One parameter -/

variable [Element α]

/-- Moving a parameter that has a value and a gradient writes its storage and the record, whether
the rule ends or fails. -/
theorem stepActive_run (number : Nat) (o : Optimizer α) (n : Node α) (held : Held α)
    (grad : Tensor α) (s : Session α) :
    let ran := o.rule.step o.steps grad ⟨held.array, o.state? n.label⟩
    let o' := o.keep n.label (after ran).averages
    let s' := s.written number o' n.graph held.storage (after ran).value
    stepActive number o n held grad s = match ran with
      | .ok _ _ => .ok o' s'
      | .error f _ => .error f s' := by
  unfold stepActive
  cases o.rule.step o.steps grad ⟨held.array, o.state? n.label⟩ with
  | ok _ m => rfl
  | error f m => rfl

/-- What has become of a session in which one parameter has been moved. -/
structure Moves (known : Node α → Prop) (number : Nat) (n : Node α) (o : Optimizer α)
    (s : Session α) (o' : Optimizer α) (s' : Session α) : Prop where
  apart : s'.Apart known
  record : s'.optimizers[number]? = some o'
  frame : Frame known [n] o s o' s'
  course : s'.course number n = (s.course number n).moved o.rule.leaves (s.gradOf n)

theorem moves_of_active (apart : s.Apart known) (record : s.optimizers[number]? = some o)
    (mem : known n) (leaf : n.isLeaf = true) {held : Held α} {grad : Tensor α}
    (active : active? n (s.graphAt n.graph) = some (held, grad)) :
    let m := o.rule.leaves o.steps grad ⟨held.array, o.state? n.label⟩
    let o' := o.keep n.label m.averages
    Moves known number n o s o' (s.written number o' n.graph held.storage m.value) := by
  intro m o'
  have inside := apart.home n mem
  have stored := apart.stored n.graph inside
  obtain ⟨holds, gradient⟩ := holds_of_active active
  -- the write is a move of the leaf, by what the rule leaves
  have write : (s.graphAt n.graph).write held.storage m.value =
      (s.graphAt n.graph).moved n fun t d =>
        (o.rule.leaves o.steps d ⟨t, o.state? n.label⟩).value := by
    rw [Graph.moved, active]
  have graphs := graphAt_written number o' held.storage m.value inside
  have kept : ∀ l, o'.state? l = if l = n.label then m.averages else o.state? l :=
    Optimizer.state?_keep fun some =>
      UpdateRule.step_isSome o.steps ⟨held.array, o.state? n.label⟩ some
  have record' := record_written record o' n.graph held.storage m.value
  refine ⟨apart.written number o' held.storage m.value inside, record',
    ⟨o.same_keep n.label m.averages, ?_, ?_, ?_⟩, ?_⟩
  · intro label other
    rw [kept label]
    split
    next same =>
      have idle : ¬ o.rule.Keeps := fun keeps => other keeps (by simp [same])
      rw [same]
      exact UpdateRule.step_of_not_keeps o.steps ⟨held.array, o.state? n.label⟩ idle
    · rfl
  · intro k mem' leaf' out
    rw [valueOf, valueOf, graphs]
    split
    next here =>
      rw [here]
      change ((s.graphAt n.graph).write held.storage m.value).held? k.id = _
      rw [write, held?_moved_other stored ⟨mem, rfl⟩ leaf ⟨mem', here⟩ leaf' (by simpa using out)]
    · rfl
  · intro k mem'
    rw [gradOf, gradOf, graphs]
    split
    next here =>
      rw [here]
      change ((s.graphAt n.graph).write held.storage m.value).grad? k.id = _
      rw [write, grad?_moved stored ⟨mem, rfl⟩ leaf ⟨mem', here⟩]
    · rfl
  · have shape : m.value.shape = held.array.shape :=
      UpdateRule.step_shape o.steps ⟨held.array, o.state? n.label⟩
    have value' : (s.written number o' n.graph held.storage m.value).valueOf n = some m.value := by
      rw [valueOf, graphs, if_pos rfl]
      change ((s.graphAt n.graph).write held.storage m.value).held? n.id = _
      rw [write, held?_moved_self, show (s.graphAt n.graph).held? n.id = _ from holds,
        show (s.graphAt n.graph).grad? n.id = _ from gradient, shifted]
      change some ((m.value.reshape held.array.shape).toOption.getD held.array) = _
      rw [← shape, Tensor.reshape_self]
      rfl
    rw [course_eq record', course_eq record, value', holds, kept n.label, if_pos rfl, gradient,
      (o.same_keep n.label m.averages).steps]
    rfl

/-- Why a parameter cannot be moved by itself. -/
def faultOf (s : Session α) (number : Nat) (rule : UpdateRule α) (n : Node α) : Option Fault :=
  (s.course number n).fault? rule (s.gradOf n)

/-- A parameter cannot be moved if the rule cannot be applied to it. -/
theorem failure?_stepParameter (record : s.optimizers[number]? = some o) :
    failure? (stepParameter number o (.node n) s) = s.faultOf number o.rule n := by
  rw [stepParameter_eq, faultOf, course_eq record]
  cases active : active? n (s.graphAt n.graph) with
  | none =>
    rw [show active? n (s.graphs.getD n.graph default) = none from active,
      Course.fault?_idle (idle_of_active active)]
    rfl
  | some both =>
    obtain ⟨held, grad⟩ := both
    obtain ⟨holds, gradient⟩ := holds_of_active active
    have ran := stepActive_run number o n held grad s
    rw [show active? n (s.graphs.getD n.graph default) = some (held, grad) from active, gradient,
      Course.fault?_active holds]
    dsimp only at ran ⊢
    rw [ran]
    cases o.rule.step o.steps grad ⟨held.array, o.state? n.label⟩ with
    | ok => rfl
    | error => rfl

/-- Moving one parameter of an optimizer, whether it ends or raises. -/
theorem stepParameter_moves (apart : s.Apart known) (record : s.optimizers[number]? = some o)
    (mem : known n) (leaf : n.isLeaf = true) :
    ∃ o', Moves known number n o s o' (after (stepParameter number o (.node n) s)) ∧
      ∀ o₁ s₁, stepParameter number o (.node n) s = .ok o₁ s₁ → o₁ = o' := by
  rw [stepParameter_eq]
  cases active : active? n (s.graphAt n.graph) with
  | none =>
    rw [show active? n (s.graphs.getD n.graph default) = none from active]
    refine ⟨o, ⟨apart, record, .refl [n] o s, ?_⟩, fun _ _ same => ?_⟩
    · exact (Course.moved_idle (idle_of_active active)).symm
    · cases same
      rfl
  | some both =>
    obtain ⟨held, grad⟩ := both
    have moves := moves_of_active apart record mem leaf active
    have ran := stepActive_run number o n held grad s
    rw [show active? n (s.graphs.getD n.graph default) = some (held, grad) from active]
    unfold UpdateRule.leaves at moves
    dsimp only at ran ⊢
    rw [ran]
    cases result : o.rule.step o.steps grad ⟨held.array, o.state? n.label⟩ with
    | ok _ m =>
      rw [result] at moves
      refine ⟨_, moves, fun _ _ same => ?_⟩
      cases same
      rfl
    | error f m =>
      rw [result] at moves
      refine ⟨_, moves, fun _ _ impossible => ?_⟩
      cases impossible

/-- A parameter that an optimizer goes on from has been moved once, by itself. -/
theorem moves_of_answer (apart : s.Apart known) (record : s.optimizers[number]? = some o)
    (mem : known n) (leaf : n.isLeaf = true)
    (answered : stepParameter number o (.node n) s = .ok o' s') :
    Moves known number n o s o' s' := by
  obtain ⟨o₁, moves, same⟩ := stepParameter_moves apart record mem leaf
  rw [answered, after_ok, ← same o' s' answered] at moves
  exact moves

/-! ### All parameters -/

/-- Moving the parameters of an optimizer leaves everything else alone. -/
theorem stepParameters_frame (apart : s.Apart known) (record : s.optimizers[number]? = some o)
    (mem : ∀ n ∈ ns, known n ∧ n.isLeaf = true) :
    ∃ o', (after (stepParameters number (ns.map .node) o s)).optimizers[number]? = some o' ∧
      Frame known ns o s o' (after (stepParameters number (ns.map .node) o s)) := by
  induction ns generalizing s o with
  | nil => exact ⟨o, record, .refl [] o s⟩
  | cons n rest ih =>
    obtain ⟨here, leaf⟩ := mem n (by simp)
    obtain ⟨o', moves, same⟩ := stepParameter_moves apart record here leaf
    rw [List.map_cons, stepParameters]
    cases run : stepParameter number o (.node n) s with
    | error f s₁ =>
      rw [run] at moves
      rw [raise_bind.mpr (.inl run)]
      exact ⟨o', moves.record, moves.frame.mono (by simp)⟩
    | ok o₁ s₁ =>
      obtain rfl := same o₁ s₁ run
      rw [run, after_ok] at moves
      obtain ⟨o₂, record', frame⟩ :=
        ih moves.apart moves.record fun m inside => mem m (by simp [inside])
      rw [run_bind run]
      exact ⟨o₂, record', moves.frame.trans frame⟩

/-- Moving the parameters of an optimizer raises what the first of them raises that cannot be
moved by itself. Where there is none, each of them has been moved once, by itself. -/
theorem stepParameters_moves (apart : s.Apart known) (record : s.optimizers[number]? = some o)
    (mem : ∀ n ∈ ns, known n ∧ n.isLeaf = true) (separate : o.rule.Separates ns) :
    let ran := stepParameters number (ns.map .node) o s
    failure? ran = (ns.filterMap (s.faultOf number o.rule)).head? ∧
      (answers ran = true → ∀ n ∈ ns,
        (after ran).course number n = (s.course number n).moved o.rule.leaves (s.gradOf n)) := by
  induction ns generalizing s o with
  | nil => exact ⟨rfl, fun _ => List.forall_mem_nil _⟩
  | cons n rest ih =>
    obtain ⟨here, leaf⟩ := mem n (by simp)
    have fails := failure?_stepParameter (n := n) record
    rw [List.map_cons, stepParameters]
    cases run : stepParameter number o (.node n) s with
    | error f s₁ =>
      rw [run] at fails
      rw [raise_bind.mpr (.inl run)]
      refine ⟨?_, fun ended => Bool.noConfusion ended⟩
      rw [List.filterMap_cons_some fails.symm]
      rfl
    | ok o₁ s₁ =>
      rw [run] at fails
      have moves := moves_of_answer apart record here leaf run
      have rule := moves.frame.same.rule
      obtain ⟨new, distinct⟩ := List.nodup_cons.mp separate.nodes
      have labels (keeps : o.rule.Keeps) := List.nodup_cons.mp (separate.labels keeps)
      -- a later parameter has its course and its gradient still
      have later : ∀ m ∈ rest, s₁.course number m = s.course number m ∧
          s₁.gradOf m = s.gradOf m := by
        intro m inside
        obtain ⟨mem', leaf'⟩ := mem m (by simp [inside])
        refine ⟨moves.frame.course record moves.record mem' leaf' ?_ fun keeps => ?_,
          moves.frame.grads m mem'⟩
        · rintro same
          exact new (List.mem_singleton.mp same ▸ inside)
        · rintro same
          exact (labels keeps).1 (List.mem_singleton.mp same ▸ List.mem_map_of_mem inside)
      have separate' : o₁.rule.Separates rest :=
        ⟨distinct, fun keeps => (labels (rule ▸ keeps)).2⟩
      have mem' : ∀ m ∈ rest, known m ∧ m.isLeaf = true := fun m inside => mem m (by simp [inside])
      obtain ⟨_, record', frame⟩ := stepParameters_frame moves.apart moves.record mem'
      obtain ⟨fails', courses⟩ := ih moves.apart moves.record mem' separate'
      rw [run_bind run]
      refine ⟨?_, fun answered m inside => ?_⟩
      · rw [List.filterMap_cons_none fails.symm, fails', rule]
        refine congrArg List.head? (List.filterMap_congr fun m inside => ?_)
        rw [faultOf, faultOf, (later m inside).1, (later m inside).2]
      · rcases List.mem_cons.mp inside with rfl | inside
        · have apart (keeps : o₁.rule.Keeps) := (labels (rule ▸ keeps)).1
          exact (frame.course moves.record record' here leaf new apart).trans moves.course
        · rw [courses answered m inside, (later m inside).1, (later m inside).2, rule]

/-! ### Steps -/

/-- A step counts itself, and moves the parameters in order. -/
theorem step_eq (record : s.optimizers[number]? = some o) (defined : o.rule ≠ .undefined) :
    step number s = stepParameters number o.parameters o.begun
      (after (putOptimizer number o.begun s)) := by
  have got : (get : SessionM α _) s = .ok s s := rfl
  rw [step, run_bind got, optimizer?, record]
  obtain ⟨rule, parameters, steps, state, text⟩ := o
  cases rule with
  | undefined => exact absurd rfl defined
  | descent rate momentum => rfl
  | moments rate first second eps => rfl

/-- An optimizer that steps has a rule. -/
theorem defined_of_step (record : s.optimizers[number]? = some o)
    (answered : answers (step number s) = true) : o.rule ≠ .undefined := by
  intro undefined
  have got : (get : SessionM α _) s = .ok s s := rfl
  rw [step, run_bind got, optimizer?, record] at answered
  dsimp only at answered
  rw [undefined] at answered
  cases answered

omit [Element α] in
/-- What a step counts is that the courses of its parameters begin another one. -/
theorem counted (record : s.optimizers[number]? = some o) :
    let s₁ := after (putOptimizer number o.begun s)
    s₁.optimizers[number]? = some o.begun ∧
      ∀ n, s₁.course number n = (s.course number n).begun ∧ s₁.gradOf n = s.gradOf n := by
  intro s₁
  obtain ⟨below, _⟩ := Array.getElem?_eq_some_iff.mp record
  have record₁ : s₁.optimizers[number]? = some o.begun :=
    Array.getElem?_setIfInBounds_self_of_lt below
  refine ⟨record₁, fun n => ⟨?_, rfl⟩⟩
  rw [course_eq record₁, course_eq record]
  rfl

/-- A step raises what the first parameter raises that cannot be moved by itself. Where there is
none, each parameter has been moved once, by itself. Nothing else is changed but the number of
steps. -/
theorem step_moves (apart : s.Apart known) (record : s.optimizers[number]? = some o)
    (defined : o.rule ≠ .undefined) (handed : o.parameters = ns.map .node)
    (mem : ∀ n ∈ ns, known n ∧ n.isLeaf = true) (separate : o.rule.Separates ns) :
    failure? (step number s) = (ns.filterMap fun n =>
        (s.course number n).begun.fault? o.rule (s.gradOf n)).head? ∧
      (∃ o', (after (step number s)).optimizers[number]? = some o' ∧
        Frame known ns o.begun s o' (after (step number s))) ∧
      (answers (step number s) = true → ∀ n ∈ ns, (after (step number s)).course number n =
        (s.course number n).next o.rule.leaves (.step (s.gradOf n))) := by
  obtain ⟨record₁, begun⟩ := counted record
  have apart₁ : (after (putOptimizer number o.begun s)).Apart known := ⟨apart.home, apart.stored⟩
  obtain ⟨fails, courses⟩ := stepParameters_moves apart₁ record₁ mem separate
  obtain ⟨o', recorded, frame⟩ := stepParameters_frame apart₁ record₁ mem
  rw [step_eq record defined, handed]
  refine ⟨?_, ⟨o', recorded, frame.same, frame.averages, frame.values, frame.grads⟩,
    fun answered n inside => ?_⟩
  · rw [fails]
    refine congrArg List.head? (List.filterMap_congr fun n _ => ?_)
    rw [faultOf, (begun n).1, (begun n).2]
    rfl
  · rw [courses answered n inside, (begun n).1, (begun n).2]
    rfl

end Moves

variable {known : Node Scalar → Prop} {s : Session Scalar} {number : Nat} {o : Optimizer Scalar}
  {n : Node Scalar} {ns : List (Node Scalar)}

theorem Typed.apart (typed : s.Typed known) : s.Apart known :=
  ⟨typed.home, fun serial inside => (typed.invariant serial inside).stored⟩

/-- The parameters that an optimizer has been handed are at home in the session. -/
theorem Typed.listed (typed : s.Typed known) (record : s.optimizers[number]? = some o)
    (handed : o.parameters = ns.map .node) (leaves : ∀ n ∈ ns, n.isLeaf = true) :
    ∀ n ∈ ns, known n ∧ n.isLeaf = true := fun n inside =>
  ⟨(typed.optimizers o (Array.mem_of_getElem? record)).parameters (.node n)
    (handed ▸ List.mem_map_of_mem inside) n (by simp [Input.nodes]), leaves n inside⟩

/-! ### Runs -/

/-- A run of a program since an optimizer is there. The program goes on to anything else, also to
other optimizers, or it makes a step. Nothing but a step touches the record of the optimizer. -/
inductive Trained (number : Nat) (o : Optimizer Scalar) :
    List (Phase (Node Scalar → Option (Tensor Scalar))) → (Node Scalar → Prop) →
      Session Scalar → Prop
  | start {known : Node Scalar → Prop} {s : Session Scalar} (reachable : Reachable known s)
      (record : s.optimizers[number]? = some o) : Trained number o [.given s.valueOf] known s
  | aside {ps : List (Phase (Node Scalar → Option (Tensor Scalar)))}
      {known known' : Node Scalar → Prop} {s s' : Session Scalar}
      (before : Trained number o ps known s) (reachable : Reachable known' s')
      (same : s'.optimizers[number]? = s.optimizers[number]?) :
      Trained number o (ps ++ [.given s'.valueOf]) known' s'
  | step {ps : List (Phase (Node Scalar → Option (Tensor Scalar)))}
      {known : Node Scalar → Prop} {s : Session Scalar} (before : Trained number o ps known s)
      (answered : answers (Session.step number s) = true) :
      Trained number o (ps ++ [.step s.gradOf]) known (after (Session.step number s))

/-- The course that a parameter takes by itself, from what happens to it. -/
def alone (apply : Nat → Tensor Scalar → Moving Scalar → Moving Scalar) (o : Optimizer Scalar)
    (ps : List (Phase (Node Scalar → Option (Tensor Scalar)))) (n : Node Scalar) :
    Course Scalar :=
  (ps.map (Phase.map (· n))).foldl (Course.next apply) ⟨o.steps, none, o.state? n.label⟩

theorem alone_append (apply : Nat → Tensor Scalar → Moving Scalar → Moving Scalar)
    (o : Optimizer Scalar) (ps : List (Phase (Node Scalar → Option (Tensor Scalar))))
    (p : Phase (Node Scalar → Option (Tensor Scalar))) (n : Node Scalar) :
    alone apply o (ps ++ [p]) n = (alone apply o ps n).next apply (p.map (· n)) := by
  rw [alone, List.map_append, List.foldl_append]
  rfl

namespace Trained

variable {ps : List (Phase (Node Scalar → Option (Tensor Scalar)))}

theorem reachable (trained : Trained number o ps known s) : Reachable known s := by
  induction trained with
  | start reachable => exact reachable
  | aside _ reachable => exact reachable
  | step _ _ ih => exact .step ih number

/-- The record of the optimizer in a run. -/
theorem record (trained : Trained number o ps known s) (handed : o.parameters = ns.map .node)
    (leaves : ∀ n ∈ ns, n.isLeaf = true) (apart : o.rule.Separates ns) :
    ∃ o', s.optimizers[number]? = some o' ∧ o'.rule = o.rule ∧ o'.parameters = o.parameters := by
  induction trained with
  | start _ record => exact ⟨o, record, rfl, rfl⟩
  | aside _ _ same ih =>
    rw [same]
    exact ih
  | step before answered ih =>
    obtain ⟨o₁, record, rule, parameters⟩ := ih
    have typed := before.reachable.typed
    obtain ⟨_, ⟨o₂, record', frame⟩, _⟩ := step_moves typed.apart record
      (defined_of_step record answered) (parameters.trans handed)
      (typed.listed record (parameters.trans handed) leaves) (rule ▸ apart)
    exact ⟨o₂, record', frame.same.rule.trans rule, frame.same.parameters.trans parameters⟩

/-- Each parameter has taken its own course. -/
theorem course (trained : Trained number o ps known s) (handed : o.parameters = ns.map .node)
    (leaves : ∀ n ∈ ns, n.isLeaf = true) (apart : o.rule.Separates ns) :
    ∀ n ∈ ns, s.course number n = alone o.rule.leaves o ps n := by
  induction trained with
  | start _ record => exact fun n _ => course_eq record n
  | @aside ps _ _ s s' before _ same ih =>
    intro n inside
    rw [alone_append, ← ih n inside]
    unfold Session.course
    rw [same]
    rfl
  | step before answered ih =>
    intro n inside
    obtain ⟨o₁, record, rule, parameters⟩ := before.record handed leaves apart
    have typed := before.reachable.typed
    obtain ⟨_, _, courses⟩ := step_moves typed.apart record (defined_of_step record answered)
      (parameters.trans handed) (typed.listed record (parameters.trans handed) leaves)
      (rule ▸ apart)
    rw [courses answered n inside, alone_append, ih n inside, rule]
    rfl

end Trained

end Session

/-! ### Rules with numbers -/

/-- The quantities of a rule are numbers in every step, which combine with floats. -/
structure UpdateRule.Numeric (rule : UpdateRule Scalar) (q : Nat → Formula Scalar) : Prop where
  uses : ∀ steps, rule.Uses steps (q steps)
  known : ∀ steps, (q steps).Amenable

namespace UpdateRule.Numeric

variable {rule : UpdateRule Scalar} {q : Nat → Formula Scalar}

/-- A rule keeps as many averages in every step. -/
theorem count_eq (numeric : rule.Numeric q) (steps : Nat) : (q steps).count = (q 0).count := by
  have here := numeric.uses steps
  have first := numeric.uses 0
  cases rule with
  | undefined => cases here
  | moments =>
    generalize q steps = f at here
    generalize q 0 = f₀ at first
    cases here
    cases first
    rfl
  | descent =>
    generalize q steps = f at here
    generalize q 0 = f₀ at first
    cases here with
    | descent none =>
      cases first with
      | descent => rfl
      | momentum some => cases none.symm.trans some
    | momentum some =>
      cases first with
      | descent none => cases none.symm.trans some
      | momentum => rfl

end UpdateRule.Numeric

namespace Optimizer

variable {parameters : Argument Scalar} {o : Optimizer Scalar}

/-- Gradient descent by real numbers. -/
theorem numeric_sgd {rate momentum : Float}
    (built : build "SGD" [parameters, .real rate, .real momentum] = .ok o) :
    o.state = [] ∧ o.rule.Numeric fun _ => if momentum == 0.0 then .descent (.real rate)
      else .momentum (.real rate) (.real momentum) := by
  obtain ⟨inputs, _, made⟩ := bind_eq_ok.mp built
  cases pure_eq_ok.mp made
  refine ⟨rfl, ⟨fun _ => ?_, fun _ => ?_⟩⟩
  · cases zero : (momentum == 0.0) with
    | true => exact .descent (congrArg Except.ok zero)
    | false => exact .momentum (congrArg Except.ok zero) rfl
  · split
    · exact Scalar.amenable_real rate
    · exact ⟨Scalar.amenable_real rate, Scalar.amenable_real momentum⟩

/-- Running averages by real numbers, where the powers of the decays do not overflow. -/
theorem numeric_adam {rate beta1 beta2 eps : Float} {power1 power2 : Nat → Float}
    (first : ∀ steps, Argument.realPower beta1 steps = .ok (power1 steps))
    (second : ∀ steps, Argument.realPower beta2 steps = .ok (power2 steps))
    (built : build "Adam" [parameters, .real rate, .real beta1, .real beta2, .real eps] = .ok o) :
    o.state = [] ∧ o.rule.Numeric fun steps => .moments (.real rate)
      ⟨.real beta1, .real (1.0 - power1 1), .real (1.0 - power1 steps)⟩
      ⟨.real beta2, .real (1.0 - power2 1), .real (1.0 - power2 steps)⟩ (.real eps) := by
  obtain ⟨inputs, _, made⟩ := bind_eq_ok.mp built
  cases pure_eq_ok.mp made
  have less {beta : Float} {power : Nat → Float}
      (known : ∀ steps, Argument.realPower beta steps = .ok (power steps)) (steps : Nat) :
      (Argument.real beta : Argument Scalar).lessPower steps =
        .ok (.scalar (.real (1.0 - power steps))) := by
    rw [Argument.lessPower, known steps]
    rfl
  have real := Scalar.amenable_real
  refine ⟨rfl, ⟨fun steps => ?_, fun steps => ?_⟩⟩
  · exact .moments ⟨rfl, less first 1, less first steps⟩ ⟨rfl, less second 1, less second steps⟩
  · exact ⟨real _, ⟨real _, real _, real _⟩, ⟨real _, real _, real _⟩, real _⟩

end Optimizer

namespace Course

/-- As many averages as are kept, once there are any, of floats with these extents. -/
def Averaged (count : Nat) (shape : List Nat) (c : Course Scalar) : Prop :=
  ∀ ts ∈ c.averages, ts.length = count ∧ ∀ t ∈ ts, t.Floating shape

/-- The formulas of a rule as what it leaves. -/
def formulas (q : Nat → Formula Scalar) (steps : Nat) (grad : Tensor Scalar) (m : Moving Scalar) :
    Moving Scalar := (q steps).apply grad m

/-- A parameter of floats can always be moved, and moves by the formula. -/
theorem moved_formula {rule : UpdateRule Scalar} {q : Nat → Formula Scalar}
    (numeric : rule.Numeric q) {c : Course Scalar} {grad : Option (Tensor Scalar)}
    {shape : List Nat}
    (floats : ∀ t d, c.value = some t → grad = some d → t.Floating shape ∧ d.Floating shape)
    (averaged : c.Averaged (q 0).count shape) :
    c.fault? rule grad = none ∧
      c.moved rule.leaves grad = c.moved (formulas q) grad ∧
      (c.moved (formulas q) grad).Averaged (q 0).count shape := by
  have stays (idle : c.value = none ∨ grad = none) : c.fault? rule grad = none ∧
      c.moved rule.leaves grad = c.moved (formulas q) grad ∧
      (c.moved (formulas q) grad).Averaged (q 0).count shape := by
    rw [fault?_idle idle, moved_idle idle, moved_idle idle]
    exact ⟨rfl, rfl, averaged⟩
  cases value : c.value with
  | none => exact stays (.inl value)
  | some t =>
    cases grad with
    | none => exact stays (.inr rfl)
    | some d =>
      obtain ⟨float, float'⟩ := floats t d value rfl
      have count := numeric.count_eq c.steps
      have ready : Moving.Floating (q c.steps).count shape ⟨t, c.averages⟩ :=
        ⟨float, by rwa [count]⟩
      have known := numeric.known c.steps
      have ran := UpdateRule.step_formula (numeric.uses c.steps) known ready float'
      have leaves :
          rule.leaves c.steps d ⟨t, c.averages⟩ = formulas q c.steps d ⟨t, c.averages⟩ := by
        rw [UpdateRule.leaves, ran]
        rfl
      have floating := (Formula.apply_floating known ready float').averages
      rw [count] at floating
      rw [fault?_active value, ran, moved_active value, moved_active value, leaves]
      exact ⟨rfl, rfl, floating⟩

end Course

namespace Session

variable {known : Node Scalar → Prop} {s : Session Scalar} {number : Nat} {o : Optimizer Scalar}
  {n : Node Scalar} {ns : List (Node Scalar)} {q : Nat → Formula Scalar}
  {ps : List (Phase (Node Scalar → Option (Tensor Scalar)))}

/-- What has a value and a gradient is of floats. -/
theorem Reachable.floating (reachable : Reachable known s) (mem : known n) {t d : Tensor Scalar}
    (value : s.valueOf n = some t) (grad : s.gradOf n = some d) :
    t.Floating n.shape.extents ∧ d.Floating n.shape.extents := by
  have inside := reachable.typed.home n mem
  have sound := (reachable.typed.invariant n.graph inside).sound
  have world := reachable.typed.worlds n.graph inside
  have here : (s.world known n.graph).known n := ⟨mem, rfl⟩
  obtain ⟨held, found, rfl⟩ := Option.map_eq_some_iff.mp value
  obtain ⟨held', found', rfl⟩ := Option.map_eq_some_iff.mp grad
  obtain ⟨shape, typed⟩ := world.graph.typed.value here found
  obtain ⟨shape', typed'⟩ := world.graph.typed.grad here found'
  have trainable := sound.trainable_of_grad here (Option.isSome_of_eq_some found')
  have float := ElementType.storage_floating
    (world.graph.wf.of_trainable world.lawful here trainable).1
  exact ⟨⟨shape, fun x inside => ⟨_, typed x inside, float⟩⟩,
    ⟨shape', fun x inside => ⟨_, typed' x inside, float⟩⟩⟩

/-- With numbers each parameter of a run takes the course of its formulas, and can be moved on. -/
theorem Trained.formula (trained : Trained number o ps known s)
    (handed : o.parameters = ns.map .node) (leaves : ∀ n ∈ ns, n.isLeaf = true)
    (apart : o.rule.Separates ns) (fresh : o.state = []) (numeric : o.rule.Numeric q) :
    ∀ n ∈ ns, s.course number n = alone (Course.formulas q) o ps n ∧
      (s.course number n).Averaged (q 0).count n.shape.extents ∧
      (s.course number n).begun.fault? o.rule (s.gradOf n) = none := by
  have floats {known : Node Scalar → Prop} {s : Session Scalar} {ps}
      (trained : Trained number o ps known s) : ∀ n ∈ ns, ∀ t d, s.valueOf n = some t →
        s.gradOf n = some d → t.Floating n.shape.extents ∧ d.Floating n.shape.extents := by
    intro n inside t d value grad
    obtain ⟨o', record, _, parameters⟩ := trained.record handed leaves apart
    obtain ⟨mem, _⟩ :=
      trained.reachable.typed.listed record (parameters.trans handed) leaves n inside
    exact trained.reachable.floating mem value grad
  have movable {known : Node Scalar → Prop} {s : Session Scalar} {ps}
      (trained : Trained number o ps known s) (n : Node Scalar) (inside : n ∈ ns)
      (averaged : (s.course number n).begun.Averaged (q 0).count n.shape.extents) :=
    Course.moved_formula numeric (floats trained n inside) averaged
  suffices both : ∀ n ∈ ns, s.course number n = alone (Course.formulas q) o ps n ∧
      (s.course number n).Averaged (q 0).count n.shape.extents from fun n inside =>
    ⟨(both n inside).1, (both n inside).2, (movable trained n inside (both n inside).2).1⟩
  induction trained with
  | start _ record =>
    intro n _
    have none : o.state? n.label = none := by
      rw [Optimizer.state?, fresh]
      rfl
    rw [course_eq record n, none]
    refine ⟨?_, fun _ kept => (Option.not_mem_none _ kept).elim⟩
    rw [alone, none]
    rfl
  | @aside ps _ _ s s' before _ same ih =>
    intro n inside
    obtain ⟨course, averaged⟩ := ih n inside
    have next : s'.course number n = { s.course number n with value := s'.valueOf n } := by
      unfold Session.course
      rw [same]
    rw [next, alone_append, ← course]
    exact ⟨rfl, averaged⟩
  | @step ps known s before answered ih =>
    intro n inside
    obtain ⟨course, averaged⟩ := ih n inside
    obtain ⟨o₁, record, rule, parameters⟩ := before.record handed leaves apart
    have typed := before.reachable.typed
    obtain ⟨_, _, courses⟩ := step_moves typed.apart record (defined_of_step record answered)
      (parameters.trans handed) (typed.listed record (parameters.trans handed) leaves)
      (rule ▸ apart)
    obtain ⟨_, moved, averaged⟩ := movable before n inside averaged
    have next : (after (Session.step number s)).course number n =
        (s.course number n).begun.moved (Course.formulas q) (s.gradOf n) := by
      rw [courses answered n inside, rule]
      exact moved
    rw [next, alone_append, ← course]
    exact ⟨rfl, averaged⟩

/-- Under gradient descent as it is built of real numbers each parameter of a run takes the course
of the documented formula, and can be moved on. -/
theorem Trained.sgd {parameters : Argument Scalar} {rate momentum : Float}
    (built : Optimizer.build "SGD" [parameters, .real rate, .real momentum] = .ok o)
    (trained : Trained number o ps known s) (handed : o.parameters = ns.map .node)
    (leaves : ∀ n ∈ ns, n.isLeaf = true) (apart : o.rule.Separates ns) :
    ∀ n ∈ ns, s.course number n = alone (Course.formulas fun _ =>
        if momentum == 0.0 then .descent (.real rate)
        else .momentum (.real rate) (.real momentum)) o ps n ∧
      (s.course number n).begun.fault? o.rule (s.gradOf n) = none := by
  obtain ⟨fresh, numeric⟩ := Optimizer.numeric_sgd built
  intro n inside
  obtain ⟨course, _, able⟩ := trained.formula handed leaves apart fresh numeric n inside
  exact ⟨course, able⟩

/-- So it does under running averages as they are built of real numbers, where no power of a decay
overflows. -/
theorem Trained.adam {parameters : Argument Scalar} {rate beta1 beta2 eps : Float}
    {power1 power2 : Nat → Float}
    (first : ∀ steps, Argument.realPower beta1 steps = .ok (power1 steps))
    (second : ∀ steps, Argument.realPower beta2 steps = .ok (power2 steps))
    (built : Optimizer.build "Adam"
      [parameters, .real rate, .real beta1, .real beta2, .real eps] = .ok o)
    (trained : Trained number o ps known s) (handed : o.parameters = ns.map .node)
    (leaves : ∀ n ∈ ns, n.isLeaf = true) (apart : o.rule.Separates ns) :
    ∀ n ∈ ns, s.course number n = alone (Course.formulas fun steps => .moments (.real rate)
        ⟨.real beta1, .real (1.0 - power1 1), .real (1.0 - power1 steps)⟩
        ⟨.real beta2, .real (1.0 - power2 1), .real (1.0 - power2 steps)⟩ (.real eps)) o ps n ∧
      (s.course number n).begun.fault? o.rule (s.gradOf n) = none := by
  obtain ⟨fresh, numeric⟩ := Optimizer.numeric_adam first second built
  intro n inside
  obtain ⟨course, _, able⟩ := trained.formula handed leaves apart fresh numeric n inside
  exact ⟨course, able⟩

end Session

/-! ### Examples -/

namespace Sample

open Session Session.Reachable

/-- The name of the tilt. -/
def tilted : Written := ⟨.text "h", true, "h", "h"⟩

/-- Another parameter. -/
def tilt : Node Scalar :=
  .leaf ⟨0, 1, .scalar, .float64, none, .ofBool true, some tilted⟩ (.constant 5)

/-- The gain is multiplied by the tilt. -/
def multiplying : Request Scalar := .add (.joint .mult) [.node gain, .node tilt]

/-- The formula of the trainer. -/
def trained (_ : Nat) : Formula Scalar := .momentum (.real 0.5) (.real 0.5)

/-- Whether an array holds one number. -/
def holds (x : Float) (t : Tensor Scalar) : Bool := t.toList.all fun y => y.eq (.float64 x)

/-- The gain is listed twice, as a layer that is used twice lists it. -/
def twice : Session Scalar :=
  after (addOptimizer { teacher with parameters := [.node gain, .node gain] } graded)

end Sample

end ReverseMode
