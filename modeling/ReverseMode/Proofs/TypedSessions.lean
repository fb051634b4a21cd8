import ReverseMode.Proofs.Lockstep
import ReverseMode.Proofs.TypedCalls
import ReverseMode.Proofs.TypedSteps

/-!
Type preservation over whole programs.

A program builds graphs and optimizers and calls both, in any order. Its calls may raise; what a
call has changed before it raises stays. Every state that is reached so is typed: what a node holds
has its extents and its element type, and only nodes that gradients can reach have one.
-/

namespace ReverseMode

open scoped Element Scalar

namespace Graph

/-- The reports of a graph are taken. -/
theorem quiet_reports {α : Type} (g : Graph α) (reports : Array Report) :
    Quiet g { g with reports } :=
  ⟨⟨rfl, rfl, Nat.le_refl _⟩, rfl⟩

variable {known : Node Scalar → Prop} {g : Graph Scalar}

/-- Elements of a type written to the storage of a node of that type. -/
theorem Typed.write (typed : Typed known g) {n : Node Scalar} (mem : known n) {storage : Nat}
    (stores : (g.slot n.id).Stores storage) {elements : Tensor Scalar}
    (suits : elements.Typed n.type.storage) : Typed known (g.write storage elements) := by
  have slots := slot_written (g := g) storage elements
  -- what is held elsewhere stays, and what is held here is of the type of the node
  have kept : ∀ {m}, known m → ∀ {held : Held Scalar}, (g.slot m.id).Stores held.storage →
      held.array.Conforms m.signature →
        (rewritten storage elements held).array.Conforms m.signature := by
    intro m mem' held stores' conforms
    refine ⟨(rewritten_same storage elements held).2.trans conforms.shape, ?_⟩
    unfold rewritten
    split
    next here =>
      split
      next array reshaped =>
        have same : m.type = n.type := typed.shared mem' mem (here ▸ stores') stores
        change array.Typed m.type.storage
        rw [same]
        exact suits.of_toList (Tensor.toList_reshape reshaped).1
      · exact conforms.typed
    · exact conforms.typed
  have before : ∀ {m k}, ((g.write storage elements).slot m).Stores k → (g.slot m).Stores k := by
    intro m k stores'
    rw [slots] at stores'
    rcases stores' with ⟨held, found, rfl⟩ | ⟨held, found, rfl⟩
    · obtain ⟨old, had, rfl⟩ := Option.map_eq_some_iff.mp found
      exact .inl ⟨old, had, (rewritten_same storage elements old).1.symm⟩
    · obtain ⟨old, had, rfl⟩ := Option.map_eq_some_iff.mp found
      exact .inr ⟨old, had, (rewritten_same storage elements old).1.symm⟩
  constructor
  · intro m mem' held found
    rw [slots] at found
    obtain ⟨old, had, rfl⟩ := Option.map_eq_some_iff.mp found
    exact kept mem' (.inl ⟨old, had, rfl⟩) (typed.value mem' had)
  · intro m mem' held found
    rw [slots] at found
    obtain ⟨old, had, rfl⟩ := Option.map_eq_some_iff.mp found
    exact kept mem' (.inr ⟨old, had, rfl⟩) (typed.grad mem' had)
  · exact fun mem' _ stores' => typed.used mem' (before stores')
  · exact fun mem₁ mem₂ _ first second => typed.shared mem₁ mem₂ (before first) (before second)

end Graph

/-! ### Optimizers -/

/-- An optimizer moves known parameters by homogeneous quantities, and its averages are typed. -/
structure Optimizer.Typed (known : Node Scalar → Prop) (o : Optimizer Scalar) : Prop where
  rule : o.rule.Homogeneous
  parameters : ∀ p ∈ o.parameters, ∀ n ∈ p.nodes, known n
  state : ∀ e ∈ o.state, ∀ t ∈ e.2, ∃ s, t.Typed s

namespace Optimizer.Typed

variable {known : Node Scalar → Prop} {o : Optimizer Scalar}

theorem state? (typed : o.Typed known) {label : String} :
    ∀ ts ∈ o.state? label, ∀ t ∈ ts, ∃ s, t.Typed s := by
  intro ts found
  obtain ⟨before, after, same, _⟩ := List.lookup_eq_some_iff.mp found
  exact typed.state (label, ts) (by simp [same])

theorem setState (typed : o.Typed known) (label : String) {ts : List (Tensor Scalar)}
    (each : ∀ t ∈ ts, ∃ s, Tensor.Typed s t) : (o.setState label ts).Typed known := by
  unfold Optimizer.setState
  split
  · refine ⟨typed.rule, typed.parameters, fun e mem => ?_⟩
    obtain ⟨old, inside, rfl⟩ := List.mem_map.mp mem
    split
    · exact each
    · exact typed.state old inside
  · refine ⟨typed.rule, typed.parameters, fun e mem => ?_⟩
    rcases List.mem_append.mp mem with before | new
    · exact typed.state e before
    · rw [List.mem_singleton.mp new]
      exact each

theorem mono {known' : Node Scalar → Prop} (typed : o.Typed known)
    (more : ∀ n, known n → known' n) : o.Typed known' :=
  ⟨typed.rule, fun p mem n inside => more n (typed.parameters p mem n inside), typed.state⟩

end Optimizer.Typed

namespace Session

open ReverseMode.Graph

/-- A graph of a session with those of the known nodes that are its own. -/
def world {α : Type} (s : Session α) (known : Node α → Prop) (serial : Nat) : World α :=
  ⟨s.graphAt serial, fun n => known n ∧ n.graph = serial, False⟩

section Homes

variable {α : Type} {known known' : Node α → Prop} {s : Session α} {serial : Nat}

/-- Nodes that are new on one graph are none of another one. -/
theorem known_elsewhere (more : ∀ n, known n → known' n)
    (new : ∀ n, known' n → known n ∨ n.graph = serial) {j : Nat} (other : j ≠ serial) :
    (fun n : Node α => known' n ∧ n.graph = j) = fun n => known n ∧ n.graph = j := by
  funext n
  refine propext ⟨fun ⟨mem, at'⟩ => ⟨(new n mem).resolve_right ?_, at'⟩,
    fun ⟨mem, at'⟩ => ⟨more n mem, at'⟩⟩
  exact at' ▸ other

/-- A node that a call on a graph answers is one of that graph. -/
theorem knownAfter_at {a : Answer α} (home : ∀ n, a.node? = some n → n.graph = serial) :
    (fun n => World.knownAfter known a n ∧ n.graph = serial) =
      World.knownAfter (fun n => known n ∧ n.graph = serial) a := by
  funext n
  refine propext ⟨?_, ?_⟩
  · rintro ⟨mem | new, at'⟩
    · exact .inl ⟨mem, at'⟩
    · exact .inr new
  · rintro (⟨mem, at'⟩ | new)
    · exact ⟨.inl mem, at'⟩
    · exact ⟨.inr new, home n new⟩

/-- No node is one of a graph that is still to come. -/
theorem known_nowhere (home : ∀ n, known n → n.graph < s.graphs.size) :
    (fun n : Node α => known n ∧ n.graph = s.graphs.size) = fun _ => False := by
  funext n
  refine propext ⟨fun ⟨mem, at'⟩ => ?_, False.elim⟩
  exact absurd at' (Nat.ne_of_lt (home n mem))

end Homes

/-- All graphs and optimizers of a session are in order and typed. -/
structure Typed (known : Node Scalar → Prop) (s : Session Scalar) : Prop where
  home : ∀ n, known n → n.graph < s.graphs.size
  invariant : ∀ serial < s.graphs.size, World.Invariant (s.world known serial)
  worlds : ∀ serial < s.graphs.size, (s.world known serial).Typed serial
  optimizers : ∀ o ∈ s.optimizers, o.Typed known

variable {known : Node Scalar → Prop} {s s' : Session Scalar} {serial : Nat}

theorem optimizers_writes {α : Type} (rs : List Report) (s : Session α) :
    (rs.foldl write s).optimizers = s.optimizers := by
  induction rs generalizing s with
  | nil => rfl
  | cons r rs ih =>
    refine (ih _).trans ?_
    cases r with
    | log => rfl
    | line => rfl

theorem size_putGraph {α : Type} (serial : Nat) (g : Graph α) (s : Session α) :
    ((s.takeGraph serial).2.putGraph serial g).graphs.size = s.graphs.size := by
  simp [putGraph, takeGraph, ← Array.foldl_toList, graphs_writes]

theorem optimizers_putGraph {α : Type} (serial : Nat) (g : Graph α) (s : Session α) :
    ((s.takeGraph serial).2.putGraph serial g).optimizers = s.optimizers := by
  simp [putGraph, takeGraph, ← Array.foldl_toList, optimizers_writes]

/-- A graph is put back, and new nodes are its own. -/
theorem Typed.put (typed : s.Typed known) (inside : serial < s.graphs.size)
    {known' : Node Scalar → Prop} {g : Graph Scalar} (more : ∀ n, known n → known' n)
    (new : ∀ n, known' n → known n ∨ n.graph = serial)
    (invariant : World.Invariant ⟨g, fun n => known' n ∧ n.graph = serial, False⟩)
    (world : World.Typed serial ⟨g, fun n => known' n ∧ n.graph = serial, False⟩) :
    ((s.takeGraph serial).2.putGraph serial g).Typed known' := by
  have quiet := quiet_reports g #[]
  have graphs := graphAt_onGraph serial s g
  have here : ((s.takeGraph serial).2.putGraph serial g).world known' serial =
      ⟨{ g with reports := #[] }, fun n => known' n ∧ n.graph = serial, False⟩ := by
    rw [Session.world, graphs, if_pos ⟨rfl, inside⟩]
  have there : ∀ {j}, j ≠ serial →
      ((s.takeGraph serial).2.putGraph serial g).world known' j = s.world known j := by
    intro j other
    rw [Session.world, Session.world, graphs, if_neg (fun h => other h.1),
      known_elsewhere more new other]
  constructor
  · intro n mem
    rw [size_putGraph]
    exact (new n mem).elim (typed.home n) fun at' => at' ▸ inside
  · intro j below
    rw [size_putGraph] at below
    by_cases same : j = serial
    · rw [same, here]
      exact World.Step.invariant (.quiet quiet) invariant
    · rw [there same]
      exact typed.invariant j below
  · intro j below
    rw [size_putGraph] at below
    by_cases same : j = serial
    · rw [same, here]
      exact world.quiet quiet
    · rw [there same]
      exact typed.worlds j below
  · rw [optimizers_putGraph]
    exact fun o mem => (typed.optimizers o mem).mono more

/-- A call on a graph of the session. -/
theorem Typed.answer (typed : s.Typed known) (inside : serial < s.graphs.size)
    {r : Request Scalar} (lawful : r.Lawful) (admissible : (s.world known serial).Admissible r)
    {a : Answer Scalar} (answered : onGraph serial r.call s = .ok a s') :
    s'.Typed (World.knownAfter known a) := by
  rw [onGraph_run] at answered
  cases run : r.call (s.graphAt serial) with
  | error f g =>
    rw [run] at answered
    cases answered
  | ok b g =>
    rw [run] at answered
    cases answered
    have invariant := World.Step.invariant (.answer admissible run) (typed.invariant serial inside)
    have world := (typed.worlds serial inside).answer lawful admissible run
    have home : ∀ n, a.node? = some n → n.graph = serial := fun n new =>
      (world.graph.wf.home (.inr new)).trans world.graph.serial
    have same : (fun n => World.knownAfter known a n ∧ n.graph = serial) =
        World.knownAfter (s.world known serial).known a := knownAfter_at home
    refine typed.put inside (fun n => .inl) ?_ ?_ ?_
    · rintro n (mem | new)
      · exact .inl mem
      · exact .inr (home n new)
    · rw [same]
      exact ⟨invariant.sound, invariant.stored, False.elim⟩
    · rw [same]
      exact ⟨world.graph, world.lawful⟩

/-- A call on a graph of the session that raises. -/
theorem Typed.raise (typed : s.Typed known) (inside : serial < s.graphs.size)
    {r : Request Scalar} (lawful : r.Lawful) (admissible : (s.world known serial).Admissible r)
    {f : Fault} (raised : onGraph serial r.call s = .error f s') : s'.Typed known := by
  rw [onGraph_run] at raised
  cases run : r.call (s.graphAt serial) with
  | ok b g =>
    rw [run] at raised
    cases raised
  | error e g =>
    rw [run] at raised
    cases raised
    refine typed.put inside (fun n mem => mem) (fun n => .inl) ?_ ?_
    · exact World.Step.invariant (.raise admissible run) (typed.invariant serial inside)
    · exact (typed.worlds serial inside).raise lawful admissible run

/-! ### Steps of optimizers -/

section Keeping

variable {α : Type} [Element α]

/-- What holds of sessions and of their optimizers, and goes on to hold when a known node is moved:
when an optimizer counts a step, is put back, or has written what its rule leaves, also where the
rule fails. -/
structure Kept (known : Node α → Prop) (I : Session α → Prop) (J : Optimizer α → Prop) : Prop where
  nodes : ∀ {o}, J o → ∀ p ∈ o.parameters, ∀ n ∈ p.nodes, known n
  counted : ∀ {s o}, I s → o ∈ s.optimizers → J { o with steps := o.steps + 1 }
  put : ∀ {s o} (number : Nat), I s → J o → I (after (putOptimizer number o s))
  moved : ∀ {s o n held grad}, I s → J o → known n →
    active? n (s.graphAt n.graph) = some (held, grad) →
    let m := after (o.rule.step o.steps grad ⟨held.array, o.state? n.label⟩)
    I (after (onGraph n.graph (modify (Graph.write held.storage m.value)) s)) ∧
      ∀ ts ∈ m.averages, J (o.setState n.label ts)

namespace Kept

variable {known : Node α → Prop} {I : Session α → Prop} {J : Optimizer α → Prop}
  {s : Session α} {o : Optimizer α}

theorem putOptimizer (kept : Kept known I J) (holds : J o) (number : Nat) :
    Assures I (fun _ => True) (Session.putOptimizer number o) :=
  fun _ before => ⟨kept.put number before holds, fun _ _ _ => trivial⟩

theorem active (kept : Kept known I J) (before : I s) (holds : J o) {n : Node α} (mem : known n)
    {held : Held α} {grad : Tensor α}
    (active : active? n (s.graphAt n.graph) = some (held, grad)) (number : Nat) :
    I (after (stepActive number o n held grad s)) ∧
      ∀ o' s', stepActive number o n held grad s = .ok o' s' → J o' := by
  obtain ⟨written, averages⟩ := kept.moved before holds mem active
  have ran (elements : Tensor α) :
      ∃ s₁, onGraph n.graph (modify (Graph.write held.storage elements)) s = .ok () s₁ := ⟨_, rfl⟩
  have ends {o' : Optimizer α} (holds' : J o') : Assures I J (do
      Session.putOptimizer number o'
      pure o') :=
    (kept.putOptimizer holds' number).bind fun _ _ => .of_pure holds'
  have fails {o' : Optimizer α} {f : Fault} (holds' : J o') : Assures I J (do
      Session.putOptimizer number o'
      throw f) :=
    (kept.putOptimizer holds' number).bind fun _ _ => .of_throw f
  unfold stepActive
  cases run : o.rule.step o.steps grad ⟨held.array, o.state? n.label⟩ with
  | ok _ m =>
    obtain ⟨s₁, wrote⟩ := ran m.value
    rw [run, after_ok] at written averages
    rw [wrote, after_ok] at written
    simp only
    rw [run_bind wrote]
    refine ends ?_ s₁ written
    split
    next ts found => exact averages ts found
    · exact holds
  | error f m =>
    obtain ⟨s₁, wrote⟩ := ran m.value
    rw [run, after_error] at written averages
    rw [wrote, after_ok] at written
    simp only
    rw [run_bind wrote]
    refine fails ?_ s₁ written
    split
    next ts found => exact averages ts found
    · exact holds

theorem parameter (kept : Kept known I J) (holds : J o) {p : Input α}
    (mem : ∀ n ∈ p.nodes, known n) (number : Nat) : Assures I J (stepParameter number o p) := by
  cases p with
  | other _ => exact .bind (P := fun _ => False) (.of_throw _) fun _ impossible => impossible.elim
  | node n =>
    intro s before
    rw [stepParameter_eq]
    split
    · refine ⟨before, fun o' s' answered => ?_⟩
      cases answered
      exact holds
    next held grad active =>
      exact kept.active before holds (mem n (by simp [Input.nodes])) active number

theorem parameters (kept : Kept known I J) (holds : J o) {ps : List (Input α)}
    (mem : ∀ p ∈ ps, ∀ n ∈ p.nodes, known n) (number : Nat) :
    Assures I (fun _ => True) (stepParameters number ps o) := by
  induction ps generalizing o with
  | nil => exact .of_pure trivial
  | cons p rest ih =>
    refine .bind (kept.parameter holds (mem p (by simp)) number) fun o' holds' => ?_
    exact ih holds' fun q inside => mem q (by simp [inside])

/-- A step of an optimizer goes on to keep it, whether it ends or raises. -/
theorem step (kept : Kept known I J) (number : Nat) :
    Assures I (fun _ => True) (Session.step number) := by
  refine .bind .of_get fun s before => ?_
  split
  · exact .of_throw _
  next o found =>
    have holds := kept.counted before (Array.mem_of_getElem? found)
    split
    · exact .of_throw _
    · refine .bind (kept.putOptimizer holds number) fun _ _ => ?_
      exact kept.parameters holds (kept.nodes holds) number

end Kept

end Keeping

/-- Elements of the type of a node are written to the storage of its value. -/
theorem Typed.written (typed : s.Typed known) {n : Node Scalar} (mem : known n)
    {held : Held Scalar} (value : ((s.graphAt n.graph).slot n.id).value = some held)
    {elements : Tensor Scalar} (suits : elements.Typed n.type.storage) :
    (after (onGraph n.graph (modify (Graph.write held.storage elements)) s)).Typed known := by
  have inside := typed.home n mem
  have world := typed.worlds n.graph inside
  have stores : ((s.graphAt n.graph).slot n.id).Stores held.storage := .inl ⟨held, value, rfl⟩
  refine typed.put inside (fun n mem => mem) (fun n => .inl) ?_ ⟨⟨?_, ?_, ?_⟩, world.lawful⟩
  · have invariant := World.Step.invariant (.write held.storage elements)
      (typed.invariant n.graph inside)
    exact ⟨invariant.sound, invariant.stored, False.elim⟩
  · exact world.graph.wf.of_outline (outline_write held.storage elements _)
  · exact world.graph.typed.write ⟨mem, rfl⟩ stores suits
  · exact world.graph.serial

/-- A rule moves a value of one type, with averages of that type, by a gradient of it. -/
theorem typed_kept (known : Node Scalar → Prop) :
    Kept known (Session.Typed known) (Optimizer.Typed known) where
  nodes typed := typed.parameters
  counted typed mem := by
    obtain ⟨rule, parameters, state⟩ := typed.optimizers _ mem
    exact ⟨rule, parameters, state⟩
  put number typed typed' := by
    refine { typed with optimizers := fun o' mem => ?_ }
    rcases Array.mem_or_eq_of_mem_setIfInBounds mem with before | rfl
    · exact typed.optimizers o' before
    · exact typed'
  moved := by
    intro s o n held grad typed typed' mem active m
    obtain ⟨value, gradient⟩ := active?_eq_some.mp active
    obtain ⟨opened, found, rfl⟩ := Option.map_eq_some_iff.mp gradient
    have graph := (typed.worlds n.graph (typed.home n mem)).graph.typed
    have conforms := graph.value ⟨mem, rfl⟩ value
    have homogeneous := (graph.grad ⟨mem, rfl⟩ found).typed.homogeneous
    have moves : UpdateRule.Moves n.type.storage ⟨held.array, o.state? n.label⟩ :=
      ⟨conforms.typed, typed'.state?⟩
    obtain ⟨moves, _⟩ := UpdateRule.step_assures typed'.rule o.steps homogeneous _ moves
    exact ⟨typed.written mem value moves.value,
      fun ts found => typed'.setState n.label (moves.averages ts found)⟩

/-! ### Programs -/

theorem graphAt_addGraph {α : Type} (settings : Settings) (s : Session α) (j : Nat) :
    (after (addGraph settings s)).graphAt j =
      if j = s.graphs.size then { Graph.create s.graphs.size settings with reports := #[] }
      else s.graphAt j := by
  have size : ∀ {g : Graph α}, (s.graphs.push g).size = s.graphs.size + 1 := by simp
  simp only [addGraph, after_ok, graphAt, putGraph, Array.getD_eq_getD_getElem?]
  rw [← Array.foldl_toList, graphs_writes]
  split
  next same =>
    subst same
    simp
  next other =>
    rw [Array.getElem?_setIfInBounds_ne (Ne.symm other), Array.getElem?_push, if_neg other]

theorem size_addGraph {α : Type} (settings : Settings) (s : Session α) :
    (after (addGraph settings s)).graphs.size = s.graphs.size + 1 := by
  simp [addGraph, putGraph, ← Array.foldl_toList, graphs_writes]

theorem optimizers_addGraph {α : Type} (settings : Settings) (s : Session α) :
    (after (addGraph settings s)).optimizers = s.optimizers := by
  simp [addGraph, putGraph, ← Array.foldl_toList, optimizers_writes]

/-- A new graph has no nodes yet. -/
theorem Typed.addGraph (typed : s.Typed known) (settings : Settings) :
    (after (addGraph settings s)).Typed known := by
  have size := size_addGraph settings s
  have here : (after (Session.addGraph settings s)).world known s.graphs.size =
      ⟨{ Graph.create s.graphs.size settings with reports := #[] }, fun _ => False, False⟩ := by
    rw [Session.world, graphAt_addGraph, if_pos rfl, known_nowhere typed.home]
  have there : ∀ {j}, j ≠ s.graphs.size →
      (after (Session.addGraph settings s)).world known j = s.world known j := by
    intro j other
    rw [Session.world, Session.world, graphAt_addGraph, if_neg other]
  have quiet := quiet_reports (Graph.create s.graphs.size settings : Graph Scalar) #[]
  have start := World.Reachable.invariant
    (.start s.graphs.size settings : World.Reachable (α := Scalar) _)
  have empty : World.Typed s.graphs.size (World.start s.graphs.size settings) :=
    ⟨⟨start.sound.toWellFormed, ⟨False.elim, False.elim, False.elim, False.elim⟩, rfl⟩,
      fun _ => False.elim⟩
  constructor
  · intro n mem
    rw [size]
    exact Nat.lt_succ_of_lt (typed.home n mem)
  · intro j below
    rw [size] at below
    by_cases same : j = s.graphs.size
    · rw [same, here]
      have kept := World.Step.invariant (.quiet quiet) start
      exact ⟨kept.sound, kept.stored, False.elim⟩
    · rw [there same]
      exact typed.invariant j (by omega)
  · intro j below
    rw [size] at below
    by_cases same : j = s.graphs.size
    · rw [same, here]
      have kept := empty.quiet quiet
      exact ⟨kept.graph, kept.lawful⟩
    · rw [there same]
      exact typed.worlds j (by omega)
  · rw [optimizers_addGraph]
    exact typed.optimizers

theorem Typed.addOptimizer (typed : s.Typed known) {o : Optimizer Scalar} (typed' : o.Typed known) :
    (after (addOptimizer o s)).Typed known := by
  refine { typed with optimizers := fun o' mem => ?_ }
  rcases Array.mem_push.mp mem with before | rfl
  · exact typed.optimizers o' before
  · exact typed'

/-- The accounting of a graph changes. -/
theorem Typed.account (typed : s.Typed known) (inside : serial < s.graphs.size)
    {f : Graph Scalar → Graph Scalar} (quiet : ∀ g, Quiet g (f g)) :
    (after (onGraph serial (modify f) s)).Typed known :=
  typed.put inside (fun _ mem => mem) (fun _ => .inl)
    (World.Step.invariant (.quiet (quiet _)) (typed.invariant serial inside))
    ((typed.worlds serial inside).quiet (quiet _))

/-- The states of programs, with the nodes that have been handed out. A program builds graphs and
optimizers and calls them in any order; a call may raise, and the program goes on. Functions of
callers write into arrays as arrays are written to, and arrays that are handed in have one element
type. -/
inductive Reachable : (Node Scalar → Prop) → Session Scalar → Prop
  | start : Reachable (fun _ => False) {}
  | graph {known : Node Scalar → Prop} {s : Session Scalar} (before : Reachable known s)
      (settings : Settings) :
      Reachable known (after (Session.addGraph settings s))
  | optimizer {known : Node Scalar → Prop} {s : Session Scalar} {o : Optimizer Scalar}
      (before : Reachable known s) (new : o.state = [])
      (homogeneous : o.rule.Homogeneous) (handed : ∀ p ∈ o.parameters, ∀ n ∈ p.nodes, known n) :
      Reachable known (after (Session.addOptimizer o s))
  | answer {known : Node Scalar → Prop} {s s' : Session Scalar} {serial : Nat} {r : Request Scalar}
      {a : Answer Scalar}
      (before : Reachable known s) (inside : serial < s.graphs.size) (lawful : r.Lawful)
      (admissible : (s.world known serial).Admissible r)
      (answered : onGraph serial r.call s = .ok a s') : Reachable (World.knownAfter known a) s'
  | raise {known : Node Scalar → Prop} {s s' : Session Scalar} {serial : Nat} {r : Request Scalar}
      {f : Fault}
      (before : Reachable known s) (inside : serial < s.graphs.size) (lawful : r.Lawful)
      (admissible : (s.world known serial).Admissible r)
      (raised : onGraph serial r.call s = .error f s') : Reachable known s'
  /-- A step of an optimizer, which may raise. -/
  | step {known : Node Scalar → Prop} {s : Session Scalar} (before : Reachable known s)
      (number : Nat) :
      Reachable known (after (Session.step number s))
  | account {known : Node Scalar → Prop} {s : Session Scalar} {serial : Nat}
      {f : Graph Scalar → Graph Scalar}
      (before : Reachable known s) (inside : serial < s.graphs.size) (quiet : ∀ g, Quiet g (f g)) :
      Reachable known (after (onGraph serial (modify f) s))
  | printed {known : Node Scalar → Prop} {s : Session Scalar} (before : Reachable known s) :
      Reachable known (after (takePrinted s))

theorem Reachable.typed (reachable : Reachable known s) : s.Typed known := by
  induction reachable with
  | start =>
    exact ⟨fun _ mem => mem.elim, fun j below => absurd below (Nat.not_lt_zero j),
      fun j below => absurd below (Nat.not_lt_zero j),
      fun o mem => absurd mem (Array.not_mem_empty o)⟩
  | graph _ settings ih => exact ih.addGraph settings
  | @optimizer _ _ o _ new homogeneous handed ih =>
    refine ih.addOptimizer ⟨homogeneous, handed, fun e mem => ?_⟩
    rw [new] at mem
    cases mem
  | answer _ inside lawful admissible answered ih =>
    exact ih.answer inside lawful admissible answered
  | raise _ inside lawful admissible raised ih => exact ih.raise inside lawful admissible raised
  | @step known _ _ number ih => exact ((typed_kept known).step number _ ih).1
  | account _ inside quiet ih => exact ih.account inside quiet
  | printed _ ih => exact ⟨ih.home, ih.invariant, ih.worlds, ih.optimizers⟩

end Session

end ReverseMode
