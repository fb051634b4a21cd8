import ReverseMode.Proofs.LeafExtents
import ReverseMode.Proofs.RingElements
import ReverseMode.Proofs.Trajectories
import ReverseMode.Proofs.TypedSessions

/-!
Programs over any elements.

A program builds graphs and optimizers and calls both, in any order; a call may raise, and the
program goes on. What it holds are the nodes that it has been handed. Every graph of every state
that is reached so is a reachable graph with those of these nodes that are its own, so all that
holds of reachable graphs holds of each graph of a program.
-/

namespace ReverseMode

variable {α : Type} [Element α]

/-! ### Graphs -/

namespace Graph

variable {known : Node α → Prop} {g g' : Graph α} {r : Request α}

/-- A graph that comes about by calls and writes, with the nodes that it has handed out. -/
def Attained (known : Node α → Prop) (g : Graph α) : Prop :=
  ∃ fresh, World.Reachable ⟨g, known, fresh⟩

namespace Attained

theorem create (serial : Nat) (settings : Settings) :
    Attained (fun _ => False) (Graph.create serial settings : Graph α) :=
  ⟨_, .start serial settings⟩

theorem sound (attained : Attained known g) : Sound known g :=
  attained.choose_spec.invariant.sound

theorem stored (attained : Attained known g) : Stored known g :=
  attained.choose_spec.invariant.stored

theorem leavesFit (attained : Attained known g) : LeavesFit known g :=
  attained.choose_spec.leavesFit

theorem answer (attained : Attained known g) (admissible : World.Admissible ⟨g, known, False⟩ r)
    {a : Answer α} (answered : r.call g = .ok a g') :
    Attained (World.knownAfter known a) g' ∧ g'.serial = g.serial := by
  obtain ⟨fresh, reachable⟩ := attained
  have step : World.Step r.renews ⟨g, known, fresh⟩ _ := .answer admissible answered
  exact ⟨⟨_, .step reachable step⟩, step.serial reachable.invariant.sound⟩

theorem raise (attained : Attained known g) (admissible : World.Admissible ⟨g, known, False⟩ r)
    {f : Fault} (raised : r.call g = .error f g') :
    Attained known g' ∧ g'.serial = g.serial := by
  obtain ⟨fresh, reachable⟩ := attained
  have step : World.Step false ⟨g, known, fresh⟩ _ := .raise admissible raised
  exact ⟨⟨_, .step reachable step⟩, step.serial reachable.invariant.sound⟩

theorem write (attained : Attained known g) (storage : Nat) (elements : Tensor α) :
    Attained known (g.write storage elements) := by
  obtain ⟨fresh, reachable⟩ := attained
  exact ⟨_, .step reachable (.write storage elements)⟩

theorem quiet (attained : Attained known g) (quiet : Quiet g g') : Attained known g' := by
  obtain ⟨fresh, reachable⟩ := attained
  exact ⟨_, .step reachable (.quiet quiet)⟩

end Attained

end Graph

/-- An optimizer has been handed known nodes. -/
def Optimizer.Handed (known : Node α → Prop) (o : Optimizer α) : Prop :=
  ∀ p ∈ o.parameters, ∀ n ∈ p.nodes, known n

namespace Session

open ReverseMode.Graph

/-- All graphs of a session have come about by calls and writes, under their own numbers, and its
optimizers have been handed nodes of them. -/
structure Coherent (known : Node α → Prop) (s : Session α) : Prop where
  home : ∀ n, known n → n.graph < s.graphs.size
  serial : ∀ serial < s.graphs.size, (s.graphAt serial).serial = serial
  graph : ∀ serial < s.graphs.size,
    Attained (fun n => known n ∧ n.graph = serial) (s.graphAt serial)
  optimizers : ∀ o ∈ s.optimizers, o.Handed known

variable {known known' : Node α → Prop} {s s' : Session α} {serial number : Nat} {r : Request α}
  {o : Optimizer α}

/-- A graph is put back, and new nodes are its own. -/
theorem Coherent.put (coherent : s.Coherent known) (inside : serial < s.graphs.size)
    {g : Graph α} (more : ∀ n, known n → known' n)
    (new : ∀ n, known' n → known n ∨ n.graph = serial) (same : g.serial = serial)
    (attained : Attained (fun n => known' n ∧ n.graph = serial) g) :
    ((s.takeGraph serial).2.putGraph serial g).Coherent known' := by
  have graphs := graphAt_onGraph serial s g
  have size := size_putGraph serial g s
  constructor
  · intro n mem
    rw [size]
    exact (new n mem).elim (coherent.home n) fun at' => at' ▸ inside
  · intro j below
    rw [size] at below
    rw [graphs]
    split
    next here => exact same.trans here.1.symm
    · exact coherent.serial j below
  · intro j below
    rw [size] at below
    rw [graphs]
    split
    next here =>
      rw [here.1]
      exact attained.quiet (quiet_reports g #[])
    next other =>
      rw [known_elsewhere more new fun same => other ⟨same, inside⟩]
      exact coherent.graph j below
  · rw [optimizers_putGraph]
    exact fun o mem p inside n node => more n (coherent.optimizers o mem p inside n node)

/-- A call on a graph of the session. -/
theorem Coherent.answer (coherent : s.Coherent known) (inside : serial < s.graphs.size)
    (admissible : (s.world known serial).Admissible r) {a : Answer α}
    (answered : onGraph serial r.call s = .ok a s') :
    s'.Coherent (World.knownAfter known a) := by
  rw [onGraph_run] at answered
  cases run : r.call (s.graphAt serial) with
  | error f g =>
    rw [run] at answered
    cases answered
  | ok b g =>
    rw [run] at answered
    cases answered
    obtain ⟨attained, same⟩ := (coherent.graph serial inside).answer admissible run
    have same := same.trans (coherent.serial serial inside)
    have home : ∀ n, a.node? = some n → n.graph = serial := fun n new =>
      (attained.sound.home (.inr new)).trans same
    refine coherent.put inside (fun n => .inl) ?_ same ?_
    · rintro n (mem | new)
      · exact .inl mem
      · exact .inr (home n new)
    · rwa [knownAfter_at home]

/-- A call on a graph of the session that raises. -/
theorem Coherent.raise (coherent : s.Coherent known) (inside : serial < s.graphs.size)
    (admissible : (s.world known serial).Admissible r) {f : Fault}
    (raised : onGraph serial r.call s = .error f s') : s'.Coherent known := by
  rw [onGraph_run] at raised
  cases run : r.call (s.graphAt serial) with
  | ok b g =>
    rw [run] at raised
    cases raised
  | error e g =>
    rw [run] at raised
    cases raised
    obtain ⟨attained, same⟩ := (coherent.graph serial inside).raise admissible run
    exact coherent.put inside (fun _ mem => mem) (fun _ => .inl)
      (same.trans (coherent.serial serial inside)) attained

/-- The accounting of a graph changes. -/
theorem Coherent.account (coherent : s.Coherent known) (inside : serial < s.graphs.size)
    {f : Graph α → Graph α} (quiet : ∀ g, Quiet g (f g)) :
    (after (onGraph serial (modify f) s)).Coherent known :=
  coherent.put inside (fun _ mem => mem) (fun _ => .inl)
    ((serial_of_outline (quiet _).outline).trans (coherent.serial serial inside))
    ((coherent.graph serial inside).quiet (quiet _))

/-- A new graph has no nodes yet. -/
theorem Coherent.addGraph (coherent : s.Coherent known) (settings : Settings) :
    (after (addGraph settings s)).Coherent known := by
  have size := size_addGraph settings s
  constructor
  · intro n mem
    rw [size]
    exact Nat.lt_succ_of_lt (coherent.home n mem)
  · intro j below
    rw [size] at below
    rw [graphAt_addGraph]
    split
    next last => exact last.symm
    next other => exact coherent.serial j (by omega)
  · intro j below
    rw [size] at below
    rw [graphAt_addGraph]
    split
    next last =>
      rw [last, known_nowhere coherent.home]
      exact (Attained.create s.graphs.size settings).quiet (quiet_reports _ #[])
    next other => exact coherent.graph j (by omega)
  · rw [optimizers_addGraph]
    exact coherent.optimizers

theorem Coherent.addOptimizer (coherent : s.Coherent known) (handed : o.Handed known) :
    (after (addOptimizer o s)).Coherent known := by
  refine { coherent with optimizers := fun o' mem => ?_ }
  rcases Array.mem_push.mp mem with before | rfl
  · exact coherent.optimizers o' before
  · exact handed

/-! ### Steps of optimizers -/

omit [Element α] in
theorem handed_setState (handed : o.Handed known) (label : String) (ts : List (Tensor α)) :
    (o.setState label ts).Handed known := by
  unfold Optimizer.setState
  split
  · exact handed
  · exact handed

/-- A move writes to a storage of a graph, and the nodes that an optimizer has been handed stay. -/
theorem coherent_kept (known : Node α → Prop) :
    Kept known (Session.Coherent known) (Optimizer.Handed known) where
  nodes handed := handed
  counted coherent mem := by
    have handed := coherent.optimizers _ mem
    exact handed
  put number coherent handed := by
    refine { coherent with optimizers := fun o' mem => ?_ }
    rcases Array.mem_or_eq_of_mem_setIfInBounds mem with before | rfl
    · exact coherent.optimizers o' before
    · exact handed
  moved := by
    intro s o n held grad coherent handed mem _ m
    have inside := coherent.home n mem
    have outline := outline_write held.storage m.value (s.graphAt n.graph)
    exact ⟨coherent.put inside (fun _ mem => mem) (fun _ => .inl)
      ((serial_of_outline outline).trans (coherent.serial n.graph inside))
      ((coherent.graph n.graph inside).write held.storage m.value),
      fun ts _ => handed_setState handed n.label ts⟩

/-! ### Programs -/

/-- The states of programs, with the nodes that have been handed out. -/
inductive Attained : (Node α → Prop) → Session α → Prop
  | start : Attained (fun _ => False) {}
  | graph {known : Node α → Prop} {s : Session α} (before : Attained known s)
      (settings : Settings) : Attained known (after (Session.addGraph settings s))
  | optimizer {known : Node α → Prop} {s : Session α} {o : Optimizer α}
      (before : Attained known s) (handed : o.Handed known) :
      Attained known (after (Session.addOptimizer o s))
  | answer {known : Node α → Prop} {s s' : Session α} {serial : Nat} {r : Request α}
      {a : Answer α} (before : Attained known s) (inside : serial < s.graphs.size)
      (admissible : (s.world known serial).Admissible r)
      (answered : onGraph serial r.call s = .ok a s') : Attained (World.knownAfter known a) s'
  | raise {known : Node α → Prop} {s s' : Session α} {serial : Nat} {r : Request α} {f : Fault}
      (before : Attained known s) (inside : serial < s.graphs.size)
      (admissible : (s.world known serial).Admissible r)
      (raised : onGraph serial r.call s = .error f s') : Attained known s'
  /-- A step of an optimizer, which may raise. -/
  | step {known : Node α → Prop} {s : Session α} (before : Attained known s) (number : Nat) :
      Attained known (after (Session.step number s))
  | account {known : Node α → Prop} {s : Session α} {serial : Nat} {f : Graph α → Graph α}
      (before : Attained known s) (inside : serial < s.graphs.size) (quiet : ∀ g, Quiet g (f g)) :
      Attained known (after (onGraph serial (modify f) s))
  | printed {known : Node α → Prop} {s : Session α} (before : Attained known s) :
      Attained known (after (takePrinted s))

theorem Attained.coherent (attained : Attained known s) : s.Coherent known := by
  induction attained with
  | start =>
    exact ⟨fun _ mem => mem.elim, fun j below => absurd below (Nat.not_lt_zero j),
      fun j below => absurd below (Nat.not_lt_zero j),
      fun o mem => absurd mem (Array.not_mem_empty o)⟩
  | graph _ settings ih => exact ih.addGraph settings
  | optimizer _ handed ih => exact ih.addOptimizer handed
  | answer _ inside admissible answered ih => exact ih.answer inside admissible answered
  | raise _ inside admissible raised ih => exact ih.raise inside admissible raised
  | @step known _ _ number ih => exact ((coherent_kept known).step number _ ih).1
  | account _ inside quiet ih => exact ih.account inside quiet
  | printed _ ih => exact ⟨ih.home, ih.serial, ih.graph, ih.optimizers⟩

end Session

/-! ### An example -/

namespace Sample

open Session

/-- The name of the mass. -/
def massName : Written := ⟨.text "w", true, "w", "w"⟩

/-- A parameter on the graph of a number. -/
def mass (serial : Nat) : Node ℚ :=
  .leaf ⟨serial, 0, .scalar, .float64, none, .ofBool true, some massName⟩ (.constant 3)

/-- Its square. -/
def massSquare (serial : Nat) : Node ℚ :=
  .apply ⟨serial, 1, .scalar, .float64, some 0, .ofBool true, none⟩ (.joint .mult)
    [mass serial, mass serial]

/-- The mass is asked for. -/
def placing : Request ℚ :=
  .parameter massName .scalar (.ok (.constant 3)) (.ok none) (.ofBool true)

/-- The mass is squared. -/
def squaringMass (serial : Nat) : Request ℚ :=
  .add (.joint .mult) [.node (mass serial), .node (mass serial)]

/-- Calls on one graph, one after the other. -/
def calls (serial : Nat) (rs : List (Request ℚ)) (s : Session ℚ) : Session ℚ :=
  rs.foldl (fun s r => after (onGraph serial r.call s)) s

/-- The square of a mass has been computed on a new graph. -/
def weighed (serial : Nat) (s : Session ℚ) : Session ℚ :=
  calls serial [placing, squaringMass serial, .forward]
    (after (addGraph { type := .float64 } s))

theorem calls_attained {known : Node ℚ → Prop} {s : Session ℚ} {a : Answer ℚ} (serial : Nat)
    (r : Request ℚ) (before : Attained known s) (inside : serial < s.graphs.size)
    (admissible : (s.world known serial).Admissible r)
    (answered : onGraph serial r.call s = .ok a (calls serial [r] s)) :
    Attained (World.knownAfter known a) (calls serial [r] s) :=
  .answer before inside admissible answered

theorem weighed_attained :
    ∃ known, Attained known (weighed 0 {}) ∧ known (mass 0) ∧ known (massSquare 0) := by
  have started : Attained (fun _ => False) (after (addGraph { type := .float64 } {}) : Session ℚ) :=
    .graph .start _
  have first := calls_attained (a := .node (mass 0)) 0 placing started (by decide)
    (List.forall_mem_nil _) rfl
  have second := calls_attained (a := .node (massSquare 0)) 0 (squaringMass 0) first (by decide)
    (fun n inside _ => by
      obtain rfl : n = mass 0 := by simpa [squaringMass, Request.nodes, Input.nodes] using inside
      exact ⟨.inr rfl, rfl⟩) rfl
  obtain ⟨_, computed⟩ := answer_of_answers (r := onGraph 0 (Request.forward.call)
    (calls 0 [placing, squaringMass 0] (after (addGraph { type := .float64 } {}))))
    (by decide +kernel)
  have third := calls_attained 0 .forward second (by decide) (List.forall_mem_nil _) computed
  exact ⟨_, third, .inl (.inl (.inr rfl)), .inl (.inr rfl)⟩

end Sample

end ReverseMode
