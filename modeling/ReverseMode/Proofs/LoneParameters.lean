import ReverseMode.Proofs.Programs

/-!
A parameter that an optimizer has to itself.

An optimizer may be handed any parameters. Of one that it lists once, and whose averages it keeps
for no other one, a step makes one application of the rule: what happens to the parameters before
it and behind it leaves its value, its gradient and its averages alone. So along a run of a program
such a parameter takes a course that can be followed step by step.
-/

namespace ReverseMode

variable {α : Type}

/-- A node that an optimizer lists once, among leaves, and whose label no other node of the list has
if averages are kept. -/
structure Optimizer.Lone (o : Optimizer α) (n : Node α) : Prop where
  once : ∃ as bs, o.parameters = as ++ .node n :: bs ∧ .node n ∉ as ∧ .node n ∉ bs
  leaves : ∀ m, .node m ∈ o.parameters → m.isLeaf = true
  label : o.rule.Keeps → ∀ m, .node m ∈ o.parameters → m ≠ n → m.label ≠ n.label

namespace Optimizer

variable {o o' : Optimizer α} {n : Node α}

theorem Lone.listed (lone : o.Lone n) : .node n ∈ o.parameters := by
  obtain ⟨as, bs, listed, _⟩ := lone.once
  simp [listed]

theorem Lone.leaf (lone : o.Lone n) : n.isLeaf = true := lone.leaves n lone.listed

/-- The other nodes of the list differ from it, and in their labels if averages are kept. -/
theorem Lone.apart (lone : o.Lone n) {ns : List (Node α)} (sub : ns.map .node ⊆ o.parameters)
    (out : .node n ∉ ns.map Input.node) :
    n ∉ ns ∧ (o.rule.Keeps → n.label ∉ ns.map Node.label) := by
  refine ⟨fun inside => out (List.mem_map_of_mem inside), fun keeps same => ?_⟩
  obtain ⟨m, inside, same⟩ := List.mem_map.mp same
  refine lone.label keeps m (sub (List.mem_map_of_mem inside)) ?_ same
  rintro rfl
  exact out (List.mem_map_of_mem inside)

theorem Lone.congr (lone : o.Lone n) (rule : o'.rule = o.rule)
    (parameters : o'.parameters = o.parameters) : o'.Lone n := by
  obtain ⟨once, leaves, label⟩ := lone
  rw [← parameters] at once leaves label
  rw [← rule] at label
  exact ⟨once, leaves, label⟩

end Optimizer

namespace Session

open ReverseMode.Graph

variable {known : Node α → Prop} {s s' : Session α} {number : Nat} {o o' : Optimizer α}
  {n : Node α}

theorem Coherent.apart [Element α] (coherent : s.Coherent known) : s.Apart known :=
  ⟨coherent.home, fun serial inside => (coherent.graph serial inside).stored⟩

variable [Element α]

/-! ### Beside other parameters -/

/-- A step that ends goes past the parameters at its front, which are nodes, and leaves everything
else alone. -/
theorem stepParameters_past (apart : s.Apart known) (record : s.optimizers[number]? = some o)
    {ps rest : List (Input α)} (mem : ∀ p, .node p ∈ ps → known p ∧ p.isLeaf = true)
    (answered : stepParameters number (ps ++ rest) o s = .ok () s') :
    ∃ ns o₁ s₁, ps = ns.map .node ∧ s₁.Apart known ∧ s₁.optimizers[number]? = some o₁ ∧
      Frame known ns o s o₁ s₁ ∧ stepParameters number rest o₁ s₁ = .ok () s' := by
  induction ps generalizing o s with
  | nil => exact ⟨[], o, s, rfl, apart, record, .refl [] o s, answered⟩
  | cons p ps ih =>
    rw [List.cons_append, stepParameters, answer_bind] at answered
    obtain ⟨o₁, s₁, first, answered⟩ := answered
    cases p with
    | other _ => cases first
    | node p =>
      obtain ⟨mem', leaf⟩ := mem p (by simp)
      have moves := moves_of_answer apart record mem' leaf first
      obtain ⟨ns, o₂, s₂, rfl, apart₂, record₂, frame, answered⟩ :=
        ih moves.apart moves.record (fun q inside => mem q (by simp [inside])) answered
      exact ⟨p :: ns, o₂, s₂, rfl, apart₂, record₂, moves.frame.trans frame, answered⟩

/-! ### Steps -/

/-- A step moves a lone parameter once, by itself, and can do so. -/
theorem step_lone (apart : s.Apart known) (record : s.optimizers[number]? = some o)
    (handed : o.Handed known) (lone : o.Lone n) (answered : step number s = .ok () s') :
    (∃ o', s'.optimizers[number]? = some o' ∧ o.begun.Same o') ∧
      (s.course number n).begun.fault? o.rule (s.gradOf n) = none ∧
      s'.course number n = (s.course number n).next o.rule.leaves (.step (s.gradOf n)) := by
  have mem : ∀ p, .node p ∈ o.parameters → known p ∧ p.isLeaf = true := fun p inside =>
    ⟨handed (.node p) inside p (by simp [Input.nodes]), lone.leaves p inside⟩
  obtain ⟨here, leaf⟩ := mem n lone.listed
  have defined := defined_of_step record (by rw [answered]; rfl)
  rw [step_eq record defined] at answered
  obtain ⟨record₁, begun⟩ := counted record
  obtain ⟨begun, grad₁⟩ := begun n
  have apart₁ : (after (putOptimizer number o.begun s)).Apart known := ⟨apart.home, apart.stored⟩
  obtain ⟨as, bs, listed, before, behind⟩ := lone.once
  rw [listed] at answered
  obtain ⟨ns, o₂, s₂, rfl, apart₂, record₂, past, answered⟩ := stepParameters_past apart₁ record₁
    (fun p inside => mem p (by simp [listed, inside])) answered
  rw [stepParameters, answer_bind] at answered
  obtain ⟨o₃, s₃, moved, answered⟩ := answered
  have moves := moves_of_answer apart₂ record₂ here leaf moved
  have able := failure?_stepParameter (n := n) record₂
  rw [moved] at able
  have rule₂ : o₂.rule = o.rule := past.same.rule
  have rule₃ : o₃.rule = o.rule := moves.frame.same.rule.trans rule₂
  rw [← List.append_nil bs] at answered
  obtain ⟨ms, o₄, s₄, rfl, _, record₄, past', ended⟩ := stepParameters_past moves.apart moves.record
    (fun p inside => mem p (by simp [listed, inside])) answered
  cases ended
  obtain ⟨out, apart'⟩ := lone.apart (by simp [listed]) before
  obtain ⟨out', apart''⟩ := lone.apart (by simp [listed]) behind
  have course₂ := past.course record₁ record₂ here leaf out apart'
  have course₄ := past'.course moves.record record₄ here leaf out' (rule₃ ▸ apart'')
  have grad₂ := past.grads n here
  refine ⟨⟨o₄, record₄, ((past.trans moves.frame).trans past').same⟩, ?_, ?_⟩
  · rw [← begun, ← course₂, ← grad₁, ← grad₂, ← rule₂]
    exact able.symm
  · rw [course₄, moves.course, course₂, grad₂, begun, grad₁, rule₂]
    rfl

/-- An optimizer of one parameter, to which its rule can be applied, steps. -/
theorem step_answers (record : s.optimizers[number]? = some o) (defined : o.rule ≠ .undefined)
    (only : o.parameters = [.node n])
    (able : (s.course number n).begun.fault? o.rule (s.gradOf n) = none) :
    answers (step number s) = true := by
  obtain ⟨record₁, begun⟩ := counted record
  obtain ⟨begun, grad₁⟩ := begun n
  rw [← begun, ← grad₁] at able
  have moved := (failure?_stepParameter record₁).trans able
  rw [step_eq record defined, only, stepParameters]
  cases ran : stepParameter number o.begun (.node n) (after (putOptimizer number o.begun s)) with
  | ok o' s' =>
    rw [run_bind ran]
    rfl
  | error f s' =>
    rw [ran] at moved
    cases moved

/-! ### Runs -/

/-- The gradient by which a step moves a node: the one that it holds, if it has a value. -/
def pull (s : Session α) (n : Node α) : Option (Tensor α) :=
  (active? n (s.graphAt n.graph)).map Prod.snd

omit [Element α] in
theorem pull_eq_some {d : Tensor α} :
    s.pull n = some d ↔ (∃ t, s.valueOf n = some t) ∧ s.gradOf n = some d := by
  rw [pull, Option.map_eq_some_iff]
  constructor
  · rintro ⟨⟨held, grad⟩, active, rfl⟩
    obtain ⟨holds, gradient⟩ := holds_of_active active
    exact ⟨⟨held.array, holds⟩, gradient⟩
  · rintro ⟨⟨t, value⟩, gradient⟩
    obtain ⟨held, found, _⟩ := Option.map_eq_some_iff.mp value
    exact ⟨(held, d), active?_eq_some.mpr ⟨found, gradient⟩, rfl⟩

omit [Element α] in
theorem pull_eq_none : s.pull n = none ↔ s.valueOf n = none ∨ s.gradOf n = none := by
  rw [Option.eq_none_iff_forall_ne_some]
  constructor
  · intro idle
    cases value : s.valueOf n with
    | none => exact .inl rfl
    | some t =>
      refine .inr (Option.eq_none_iff_forall_ne_some.mpr fun d gradient => ?_)
      exact idle d (pull_eq_some.mpr ⟨⟨t, value⟩, gradient⟩)
  · rintro idle d pulled
    obtain ⟨⟨t, value⟩, gradient⟩ := pull_eq_some.mp pulled
    rcases idle with absent | absent
    · cases absent.symm.trans value
    · cases absent.symm.trans gradient

/-- A run of a program from a session in which an optimizer is there. The program makes a step, or
goes on to anything else that leaves the record of the optimizer as it is, and of which `between`
says more. What the steps of the run pull a node with is listed, the first one first. -/
inductive Run (between : Session α → Session α → Prop) (number : Nat) (n : Node α)
    (s₀ : Session α) : List (Option (Tensor α)) → (Node α → Prop) → Session α → Prop
  | start {known : Node α → Prop} (attained : Attained known s₀) :
    Run between number n s₀ [] known s₀
  | aside {gs : List (Option (Tensor α))} {known known' : Node α → Prop} {s s' : Session α}
    (before : Run between number n s₀ gs known s) (attained : Attained known' s')
    (record : s'.optimizers[number]? = s.optimizers[number]?) (meanwhile : between s s') :
    Run between number n s₀ gs known' s'
  | step {gs : List (Option (Tensor α))} {known : Node α → Prop} {s s' : Session α}
    (before : Run between number n s₀ gs known s)
    (answered : Session.step number s = .ok () s') :
    Run between number n s₀ (gs ++ [s.pull n]) known s'

namespace Run

variable {between : Session α → Session α → Prop} {s₀ : Session α}
  {gs : List (Option (Tensor α))}

theorem attained (run : Run between number n s₀ gs known s) : Attained known s := by
  induction run with
  | start attained => exact attained
  | aside _ attained => exact attained
  | step _ answered ih =>
    have next := Attained.step ih number
    rwa [answered, after_ok] at next

/-- The record of the optimizer in a run: its averages change, and it counts its steps. -/
theorem record (run : Run between number n s₀ gs known s)
    (record : s₀.optimizers[number]? = some o) (lone : o.Lone n) :
    ∃ o', s.optimizers[number]? = some o' ∧ o'.rule = o.rule ∧ o'.parameters = o.parameters ∧
      o'.steps = o.steps + gs.length := by
  induction run with
  | start _ => exact ⟨o, record, rfl, rfl, rfl⟩
  | aside _ _ same _ ih =>
    rw [same]
    exact ih
  | step before answered ih =>
    obtain ⟨o₁, record₁, rule, parameters, steps⟩ := ih
    have coherent := before.attained.coherent
    have handed := coherent.optimizers o₁ (Array.mem_of_getElem? record₁)
    obtain ⟨⟨o₂, record₂, same⟩, _⟩ :=
      step_lone coherent.apart record₁ handed (lone.congr rule parameters) answered
    refine ⟨o₂, record₂, same.rule.trans rule, same.parameters.trans parameters, ?_⟩
    rw [same.steps, List.length_append, ← Nat.add_assoc, ← steps]
    rfl

/-- A value and a gradient of the parameter have its extents. -/
theorem extents (run : Run between number n s₀ gs known s)
    (record : s₀.optimizers[number]? = some o) (lone : o.Lone n) :
    (∀ t, s.valueOf n = some t → t.shape = n.shape.extents) ∧
      ∀ d, s.gradOf n = some d → d.shape = n.shape.extents := by
  obtain ⟨o₁, record₁, _, parameters, _⟩ := run.record record lone
  have coherent := run.attained.coherent
  have mem : known n := coherent.optimizers o₁ (Array.mem_of_getElem? record₁) (.node n)
    (parameters ▸ lone.listed) n (by simp [Input.nodes])
  have graph := coherent.graph n.graph (coherent.home n mem)
  refine ⟨fun t found => ?_, fun d found => graph.sound.gradShape ⟨mem, rfl⟩ found⟩
  obtain ⟨held, value, rfl⟩ := Option.map_eq_some_iff.mp found
  exact graph.leavesFit n ⟨mem, rfl⟩ lone.leaf held value

/-- One more step of a run only counts itself where it does not pull the parameter. Where it does,
it has applied the rule once, to a value and a gradient of the extents of the parameter. -/
theorem next (run : Run between number n s₀ gs known s)
    (record : s₀.optimizers[number]? = some o) (lone : o.Lone n)
    (answered : Session.step number s = .ok () s') :
    (s.pull n = none → s'.course number n = (s.course number n).begun) ∧
      ∀ d, s.pull n = some d → ∃ x m, s.valueOf n = some x ∧ x.shape = n.shape.extents ∧
        d.shape = n.shape.extents ∧
        o.rule.step (o.steps + gs.length + 1) d ⟨x, (s.course number n).averages⟩ = .ok () m ∧
        s'.course number n = ⟨o.steps + gs.length + 1, some m.value, m.averages⟩ := by
  obtain ⟨o₁, record₁, rule, parameters, steps⟩ := run.record record lone
  have coherent := run.attained.coherent
  have handed := coherent.optimizers o₁ (Array.mem_of_getElem? record₁)
  obtain ⟨_, able, course⟩ :=
    step_lone coherent.apart record₁ handed (lone.congr rule parameters) answered
  rw [rule] at able course
  refine ⟨fun idle => ?_, fun d pulled => ?_⟩
  · rw [course]
    exact Course.moved_idle (c := (s.course number n).begun) (pull_eq_none.mp idle)
  · obtain ⟨⟨x, value⟩, gradient⟩ := pull_eq_some.mp pulled
    obtain ⟨values, grads⟩ := run.extents record lone
    have begun : (s.course number n).begun =
        ⟨o.steps + gs.length + 1, s.valueOf n, (s.course number n).averages⟩ := by
      rw [course_eq record₁, steps]
      rfl
    rw [gradient, Course.fault?_active (c := (s.course number n).begun) value, begun] at able
    rw [gradient, Course.next, Course.moved_active (c := (s.course number n).begun) value,
      begun] at course
    unfold UpdateRule.leaves at course
    dsimp only at able course
    cases applied : o.rule.step (o.steps + gs.length + 1) d
        ⟨x, (s.course number n).averages⟩ with
    | ok _ m =>
      rw [applied] at course
      exact ⟨x, m, value, values x value, grads d gradient, applied, course⟩
    | error f m =>
      rw [applied] at able
      cases able

/-- The rule can be applied to the parameter if it can be to any value and gradient of its
extents. -/
theorem able (run : Run between number n s₀ gs known s)
    (record : s₀.optimizers[number]? = some o) (lone : o.Lone n)
    (applies : ∀ x d, s.valueOf n = some x → x.shape = n.shape.extents →
      d.shape = n.shape.extents → ∃ m, o.rule.step (s.course number n).begun.steps d
        ⟨x, (s.course number n).averages⟩ = .ok () m) :
    (s.course number n).begun.fault? o.rule (s.gradOf n) = none := by
  obtain ⟨values, grads⟩ := run.extents record lone
  cases value : s.valueOf n with
  | none => exact Course.fault?_idle (.inl value)
  | some x =>
    cases gradient : s.gradOf n with
    | none => exact Course.fault?_idle (.inr rfl)
    | some d =>
      obtain ⟨m, applied⟩ := applies x d value (values x value) (grads d gradient)
      rw [Course.fault?_active (c := (s.course number n).begun) value]
      exact congrArg failure? applied

/-- An optimizer of the one parameter steps where its rule can be applied. -/
theorem answers (run : Run between number n s₀ gs known s)
    (record : s₀.optimizers[number]? = some o) (lone : o.Lone n) (defined : o.rule ≠ .undefined)
    (able : (s.course number n).begun.fault? o.rule (s.gradOf n) = none)
    (only : o.parameters = [.node n]) : answers (Session.step number s) = true := by
  obtain ⟨o₁, record₁, rule, parameters, _⟩ := run.record record lone
  rw [← rule] at defined able
  exact step_answers record₁ defined (parameters.trans only) able

end Run

end Session

/-! ### An example -/

namespace Sample

open Session

variable {o : Optimizer ℚ} (only : o.parameters = [.node (mass 0)])

include only

end Sample

end ReverseMode
