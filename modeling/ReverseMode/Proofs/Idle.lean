import ReverseMode.Proofs.Moments
import ReverseMode.Proofs.Trace

/-!
Passes that run nothing in vain.

A call is idle if it runs no operator and counts no recomputation. Making a node available is idle
if its value is there, or if it is a leaf that has not been drawn. The counts of consumers keep a
value as long as a node of the pass will read it: in a forward pass over nodes whose inputs are at
hand, or are among these nodes, every step runs the operator of its node only; in a backward pass
over nodes whose inputs are held, every step is idle.
-/

namespace ReverseMode

variable {α : Type}

namespace Traced

variable {β γ : Type} {g : Graph α}

/-- A call that runs no operator in a state and counts no recomputation. -/
structure Idle (x : Traced α β) (g : Graph α) : Prop where
  ran : x.ran g = []
  recomputations : (after (x.call g)).recomputations = g.recomputations

theorem Idle.silent {x : GraphM α β}
    (same : (after (x g)).recomputations = g.recomputations) : Idle (silent x) g := ⟨rfl, same⟩

theorem Idle.bind {x : Traced α β} {f : β → Traced α γ} (first : Idle x g)
    (second : ∀ b g', x.call g = .ok b g' → Idle (f b) g') : Idle (x >>= f) g := by
  constructor
  · cases run : x.call g with
    | ok b g' => rw [ran_bind_answer run, first.ran, (second b g' run).ran, List.nil_append]
    | error f g' => rw [ran_bind_raise run, first.ran]
  · have same := first.recomputations
    change (after (EStateM.bind x.call (fun b => (f b).call) g)).recomputations = _
    unfold EStateM.bind
    cases run : x.call g with
    | ok b g' =>
      rw [run, after_ok] at same
      exact (second b g' run).recomputations.trans same
    | error f g' => rwa [run] at same

/-- A call that starts by reading the state. -/
theorem Idle.read {f : Graph α → Traced α β} (rest : Idle (f g) g) :
    Idle (Traced.silent get >>= f) g := by
  refine .bind (.silent rfl) fun _ _ got => ?_
  obtain ⟨rfl, rfl⟩ := answer_get.mp got
  exact rest

end Traced

namespace Graph

variable {known : Node α → Prop} {g g' : Graph α}

/-! ### Values at hand -/

/-- The value of the node is there, or it is that of a leaf that has not been drawn. -/
def AtHand (g : Graph α) (n : Node α) : Prop :=
  (g.slot n.id).value.isSome ∨ n.isLeaf = true ∧ (g.slot n.id).computed = false

/-- What is at hand stays so if its slot keeps value and mark, or gets a value. -/
theorem AtHand.of_slot {n : Node α} (atHand : AtHand g n)
    (slot : (g'.slot n.id).value = (g.slot n.id).value ∧
      (g'.slot n.id).computed = (g.slot n.id).computed ∨ (g'.slot n.id).value.isSome) :
    AtHand g' n := by
  rcases slot with ⟨value, computed⟩ | held
  · rwa [AtHand, value, computed]
  · exact .inl held

theorem AtHand.of_fills {Q : Node α → Prop} {n : Node α} (atHand : AtHand g n)
    (fills : Fills Q g g') : AtHand g' n := by
  refine atHand.of_slot ?_
  rcases fills.slots n.id with same | ⟨_, _, held, filled⟩
  · exact .inl ⟨by rw [same], by rw [same]⟩
  · exact .inr (by rw [filled]; rfl)

theorem recomputations_releaseValue (g : Graph α) (id : Nat) :
    (g.releaseValue id).recomputations = g.recomputations := by
  unfold releaseValue
  split
  · rfl
  · simp only [modifySlot]
    split <;> rfl

theorem recomputations_releaseGrad (g : Graph α) (id : Nat) :
    (g.releaseGrad id).recomputations = g.recomputations := by
  unfold releaseGrad
  split
  · rfl
  · rfl

variable [Element α]

/-- No recomputation is counted. -/
def Uncounted (g g' : Graph α) : Prop := g'.recomputations = g.recomputations

omit [Element α] in
theorem Uncounted.refl (g : Graph α) : Uncounted g g := rfl

omit [Element α] in
theorem Uncounted.trans {g₁ g₂ g₃ : Graph α} (first : Uncounted g₁ g₂)
    (second : Uncounted g₂ g₃) : Uncounted g₁ g₃ :=
  Eq.trans second first

omit [Element α] in
theorem Uncounted.of_grades {β : Type} {x : GraphM α β} (leads : Leads (Grades fun _ => True) x) :
    Leads Uncounted x := fun g => (leads g).recomputations

omit [Element α] in
theorem inputValues_uncounted (inputs : List (Node α)) : Leads Uncounted (inputValues inputs) :=
  Leads.bind Uncounted.trans (Leads.of_get .refl) fun _ => .of_grades (lift_grades _)

omit [Element α] in
theorem setValue_uncounted (id : Nat) (held : Held α) :
    Leads Uncounted (modify (setValue id held)) :=
  Leads.of_modify fun g => recomputations_releaseValue g id

theorem tell_uncounted (op : Operator α) (values : List (Tensor α)) :
    Leads Uncounted (tell op values) := by
  unfold tell
  split
  · refine Leads.bind Uncounted.trans (Leads.of_get .refl) fun _ => ?_
    split
    · exact .of_grades (writeLog_grades _ _)
    · exact Leads.of_modify fun _ => rfl
  · exact Leads.of_pure .refl _

theorem computeLeaf_uncounted (s : Stamp) (init : Initializer α) :
    Leads Uncounted (computeLeaf s init) := by
  refine Leads.bind Uncounted.trans (.of_grades (allocate_grades _)) fun storage => ?_
  refine Leads.bind Uncounted.trans (Leads.of_get .refl) fun g => ?_
  dsimp only
  split
  · exact Leads.bind Uncounted.trans (Leads.of_modify fun _ => rfl) fun _ => setValue_uncounted _ _
  · exact Leads.bind Uncounted.trans (Leads.of_modify fun _ => rfl) fun _ => Leads.of_throw .refl _

theorem computeView_uncounted (s : Stamp) (op : Operator α) (inputs : List (Node α)) :
    Leads Uncounted (computeView s op inputs) := by
  rw [computeView_eq]
  refine Leads.bind Uncounted.trans (inputValues_uncounted inputs) fun values => ?_
  refine Leads.bind Uncounted.trans (tell_uncounted op values) fun _ => ?_
  refine Leads.bind Uncounted.trans (.of_grades (lift_grades _)) fun array => ?_
  refine Leads.bind Uncounted.trans (Leads.of_get .refl) fun g => ?_
  split
  · exact setValue_uncounted _ _
  · exact Leads.of_throw .refl _

theorem computeOwned_uncounted (s : Stamp) (op : Operator α) (inputs : List (Node α)) :
    Leads Uncounted (computeOwned s op inputs) := by
  refine Leads.bind Uncounted.trans (inputValues_uncounted inputs) fun values => ?_
  refine Leads.bind Uncounted.trans (.of_grades (allocate_grades _)) fun storage => ?_
  refine Leads.bind Uncounted.trans (.of_grades (lift_grades _)) fun array => ?_
  exact setValue_uncounted _ _

theorem compute_uncounted (n : Node α) : Leads Uncounted (compute n) := by
  cases n with
  | leaf s init =>
    rw [compute_leaf]
    exact Leads.bind Uncounted.trans (computeLeaf_uncounted s init) fun _ =>
      Leads.of_modify fun _ => rfl
  | apply s op inputs =>
    rw [compute_apply]
    refine Leads.bind Uncounted.trans ?_ fun _ => Leads.of_modify fun _ => rfl
    unfold computeApply
    split
    · exact computeView_uncounted s op inputs
    · exact computeOwned_uncounted s op inputs

/-- Making available what is at hand runs nothing. -/
theorem ensure_idle {n : Node α} (atHand : AtHand g n) : (Traced.ensure n).Idle g := by
  rw [Traced.ensure_eq]
  refine .read ?_
  split
  · exact ⟨rfl, rfl⟩
  next absent =>
    obtain ⟨leaf, fresh⟩ := atHand.resolve_left absent
    cases n with
    | apply => cases leaf
    | leaf s init =>
      refine Traced.Idle.bind ⟨rfl, rfl⟩ fun _ g₁ none => ?_
      obtain rfl : g = g₁ := (answer_pure.mp none).2
      have uncounted : countRecomputation (.leaf s init) g = g :=
        if_neg (by rw [fresh]; exact Bool.false_ne_true)
      refine Traced.Idle.bind (.silent ?_) fun _ g₁ counted => ?_
      · exact congrArg recomputations uncounted
      · rw [← answer_modify.mp counted, uncounted]
        exact ⟨rfl, compute_uncounted (.leaf s init) g⟩

theorem ensure_atHand {n : Node α} (wf : WellFormed known g) (mem : known n)
    (atHand : AtHand g n) (answered : ensure n g = .ok () g') : (g'.slot n.id).value.isSome := by
  by_cases held : (g.slot n.id).value.isSome
  · rw [ensure_held held] at answered
    cases answered
    exact held
  · obtain ⟨leaf, _⟩ := atHand.resolve_left held
    cases n with
    | apply => cases leaf
    | leaf s init =>
      rw [ensure_eq, run_bind (answer_get.mpr ⟨rfl, rfl⟩), if_neg held, answer_bind] at answered
      obtain ⟨_, g₁, none, answered⟩ := answered
      obtain rfl : g = g₁ := (answer_pure.mp none).2
      rw [answer_bind] at answered
      obtain ⟨_, g₂, counted, answered⟩ := answered
      refine (compute_filled ?_ answered).1
      rw [← answer_modify.mp counted, size_of_outline (outline_countRecomputation g _)]
      exact wf.bound mem

/-- Nodes at hand made available in a row. -/
theorem ensureEach_idle {is : List (Node α)} (wf : WellFormed known g) (mem : ∀ i ∈ is, known i)
    (atHand : ∀ i ∈ is, AtHand g i) :
    (is.forM Traced.ensure).Idle g ∧ ∀ g', is.forM ensure g = .ok () g' →
      ∀ i ∈ is, (g'.slot i.id).value.isSome := by
  induction is generalizing g with
  | nil => exact ⟨⟨rfl, rfl⟩, by simp⟩
  | cons i rest ih =>
    have here := mem i (by simp)
    have fills := ensure_fills_known here wf
    have later : ∀ g₁, ensure i g = .ok () g₁ → WellFormed known g₁ ∧ _ := fun g₁ ready => by
      rw [ready, after_ok] at fills
      have wf₁ := wf.of_outline fills.outline
      exact ⟨wf₁, ih wf₁ (fun j inside => mem j (by simp [inside]))
        fun j inside => (atHand j (by simp [inside])).of_fills fills⟩
    constructor
    · refine Traced.Idle.bind (ensure_idle (atHand i (by simp))) fun _ g₁ ready => ?_
      rw [Traced.call_ensure] at ready
      exact (later g₁ ready).2.1
    · intro g' ran j inside
      obtain ⟨g₁, ready, others⟩ := answer_forM_cons.mp ran
      obtain ⟨wf₁, _, filled⟩ := later g₁ ready
      have held := ensure_atHand wf here (atHand i (by simp)) ready
      rcases List.mem_cons.mp inside with rfl | inside
      · have size : ∀ i ∈ rest, known i ∧ i.id < g₁.slots.size := by
          intro i inside
          have known' := mem i (by simp [inside])
          exact ⟨known', wf₁.bound known'⟩
        have fills' : Fills (fun n => known n ∧ n.id < g₁.slots.size) g₁
            (after (rest.forM ensure g₁)) := ensureEach_fills (v := fun i => i) size wf₁
        rw [others, after_ok] at fills'
        exact fills'.held held
      · exact filled g' others j inside

/-! ### Forward passes -/

omit [Element α] in
theorem countDown_uncounted (may : Graph α → Node α → Bool) (is : List (Node α)) (p : Pending)
    (g : Graph α) : Uncounted g (is.foldl (countDown may) (g, p)).1 := by
  induction is generalizing g p with
  | nil => exact .refl g
  | cons i rest ih =>
    refine Uncounted.trans ?_ (ih _ _)
    dsimp only
    split
    · exact recomputations_releaseValue g i.id
    · exact .refl g

omit [Element α] in
theorem afterForward_uncounted (n : Node α) (p : Pending) (g : Graph α) :
    Uncounted g (afterForward n p g).2 :=
  countDown_uncounted dropsEarly n.distinctInputs p g

omit [Element α] in
/-- What a forward pass over some nodes starts from: counts of their consumers, and every input at
hand that is not one of them. -/
structure Provided (known : Node α → Prop) (ns : List (Node α)) (p : Pending) (g : Graph α) :
    Prop where
  wf : WellFormed known g
  mem : ∀ n ∈ ns, known n
  sorted : ns.Pairwise fun m n => m.id < n.id
  fits : p.counts.size = g.slots.size
  matched : p.Matches ns
  inputs : ∀ n ∈ ns, ∀ i ∈ n.inputs, i ∈ ns ∨ AtHand g i

namespace Provided

variable {n : Node α} {ns rest : List (Node α)} {p p' : Pending}

omit [Element α] in
/-- The inputs of the first node are older than all nodes of the pass. -/
theorem first (provided : Provided known (n :: rest) p g) : ∀ i ∈ n.inputs, AtHand g i := by
  intro i input
  have older := (provided.wf.inputs (provided.mem n (by simp)) input).2
  rcases provided.inputs n (by simp) i input with among | atHand
  · rcases List.mem_cons.mp among with rfl | later
    · omega
    · have := (List.pairwise_cons.mp provided.sorted).1 i later
      omega
  · exact atHand

theorem distinct_idle (provided : Provided known (n :: rest) p g) :
    (n.distinctInputs.forM Traced.ensure).Idle g :=
  (ensureEach_idle provided.wf
    (fun _ input => provided.wf.known_inputs (provided.mem n (by simp))
      (mem_inputs_of_distinct input))
    fun i input => provided.first i (mem_inputs_of_distinct input)).1

/-- The step of the first node runs its operator, if it has one, and no other. -/
theorem stepRuns (provided : Provided known (n :: rest) p g) :
    Uncounted g (after (forwardStep n p g)) ∧
      (Traced.forwardStep n p).ran g <+: applications [n] ∧
      (answers (forwardStep n p g) = true →
        (Traced.forwardStep n p).ran g = applications [n]) := by
  have idle := provided.distinct_idle
  have call : (n.distinctInputs.forM Traced.ensure).call = n.distinctInputs.forM ensure := by
    rw [Traced.call_forM, funext (Traced.call_ensure (α := α))]
  have uncounted := idle.recomputations
  rw [call] at uncounted
  constructor
  · refine Leads.bind_at Uncounted.trans uncounted fun _ g₁ _ => ?_
    refine Leads.bind_at Uncounted.trans (compute_uncounted n g₁) fun _ g₂ _ => ?_
    exact afterForward_uncounted n p g₂
  · cases ready : n.distinctInputs.forM ensure g with
    | ok _ g₁ =>
      have ran : (Traced.forwardStep n p).ran g = applications [n] := by
        rw [← call] at ready
        rw [Traced.forwardStep, Traced.ran_bind_answer ready, idle.ran, List.nil_append,
          Traced.ran_bind_silent]
        rfl
      exact ⟨ran ▸ List.prefix_rfl, fun _ => ran⟩
    | error f g₁ =>
      have ran : (Traced.forwardStep n p).ran g = [] := by
        rw [Traced.forwardStep, Traced.ran_bind_raise (by rw [call, ready]), idle.ran]
      refine ⟨ran ▸ List.nil_prefix, fun answered => ?_⟩
      obtain ⟨_, ran⟩ := answer_of_answers answered
      obtain ⟨_, _, ready', _⟩ := forwardStep_answer.mp ran
      cases ready.symm.trans ready'

/-- The step of the first node leaves what the pass over the others starts from. -/
theorem step (provided : Provided known (n :: rest) p g)
    (answered : forwardStep n p g = .ok p' g') : Provided known rest p' g' := by
  have wf := provided.wf
  have here := provided.mem n (by simp)
  have filled : ∀ g₁, n.distinctInputs.forM ensure g = .ok () g₁ →
      Fills (fun m => known m ∧ m.id < n.id) g g₁ := by
    intro g₁ ready
    have fills := ensureEach_fills (v := fun i => i)
      (fun i input => wf.inputs here (mem_inputs_of_distinct input)) wf
    rwa [ready, after_ok] at fills
  obtain ⟨g₁, g₂, held, fills, outline, slots, down⟩ :=
    forwardStep_parts wf here provided.fits filled answered
  have outline' := down.outline.trans outline
  have matched := down.matches provided.matched
  constructor
  · exact wf.of_outline outline'
  · exact fun m inside => provided.mem m (by simp [inside])
  · exact (List.pairwise_cons.mp provided.sorted).2
  · rw [down.size, provided.fits, size_of_outline outline']
  · exact matched
  · intro m inside i input
    -- a value with a consumer to come is not dropped
    have kept : g'.slot i.id = g₂.slot i.id := by
      refine down.kept i.id fun j _ _ none => ?_
      rw [matched] at none
      have := consumers_pos inside input rfl
      omega
    have stays : ∀ {j : Node α}, j.id = i.id → AtHand g j → AtHand g' j := by
      intro j same atHand
      refine (atHand.of_fills fills).of_slot ?_
      rw [same, kept, slots]
      by_cases self : i.id = n.id
      · right
        rw [self, Function.update_self]
        rfl
      · left
        rw [Function.update_of_ne self]
        exact ⟨rfl, rfl⟩
    rcases provided.inputs m (by simp [inside]) i input with among | atHand
    · rcases List.mem_cons.mp among with rfl | among
      · right
        left
        rw [kept, slots, Function.update_self]
        rfl
      · exact .inl among
    · exact .inr (stays rfl atHand)

/-- The operators of the nodes run in their order, each one once, up to where the pass raises. -/
theorem runs (provided : Provided known ns p g) :
    Uncounted g (after (forwardFrom ns p g)) ∧
      (Traced.forwardFrom ns p).ran g <+: applications ns ∧
      (answers (forwardFrom ns p g) = true →
        (Traced.forwardFrom ns p).ran g = applications ns) := by
  induction ns generalizing g p with
  | nil => exact ⟨.refl g, List.prefix_rfl, fun _ => rfl⟩
  | cons n rest ih =>
    obtain ⟨uncounted, started, ended⟩ := provided.stepRuns
    have cons : applications (n :: rest) = applications [n] ++ applications rest := by
      rw [applications, applications, applications, ← List.filter_append, List.singleton_append]
    rw [forwardFrom_cons, Traced.forwardFrom, cons]
    cases step : forwardStep n p g with
    | ok p' g₁ =>
      obtain ⟨uncounted', started', ended'⟩ := ih (provided.step step)
      rw [step] at uncounted ended
      rw [← Traced.call_forwardStep] at step
      rw [Traced.ran_bind_answer step, ended rfl, run_bind (Traced.call_forwardStep n p ▸ step)]
      refine ⟨uncounted.trans uncounted', (List.prefix_append_right_inj _).mpr started', ?_⟩
      intro answered
      rw [ended' answered]
    | error f g₁ =>
      have raised : (forwardStep n p >>= forwardFrom rest) g = .error f g₁ :=
        raise_bind.mpr (.inl step)
      rw [raised]
      rw [step] at uncounted
      rw [← Traced.call_forwardStep] at step
      rw [Traced.ran_bind_raise step]
      exact ⟨uncounted, started.trans (List.prefix_append _ _), fun answered => by cases answered⟩

end Provided

/-! ### Backward passes -/

omit [Element α] in
theorem AtHand.of_prepares {n : Node α} (atHand : AtHand g n) (prepares : Prepares g g') :
    AtHand g' n := by
  rcases atHand with held | ⟨leaf, fresh⟩
  · exact .inl (prepares.held held)
  · rcases prepares.computed n.id with same | held
    · exact .inr ⟨leaf, same.trans fresh⟩
    · exact .inl held

/-- A value that is held is read. -/
theorem ensured_idle {n : Node α} (held : (g.slot n.id).value.isSome) :
    (Traced.ensured n).Idle g ∧ after (ensured n g) = g := by
  constructor
  · refine Traced.Idle.bind (ensure_idle (.inl held)) fun _ g₁ _ => .read ?_
    cases g₁.held? n.id with
    | some t => exact ⟨rfl, rfl⟩
    | none => exact ⟨rfl, rfl⟩
  · rw [ensured, run_bind (ensure_held held), run_bind (answer_get.mpr ⟨rfl, rfl⟩)]
    cases g.held? n.id with
    | some t => rfl
    | none => rfl

/-- Values that are held are read in a row. -/
theorem ensuredEach_idle {is : List (Node α)} (held : ∀ i ∈ is, (g.slot i.id).value.isSome) :
    (is.mapM Traced.ensured).Idle g ∧ after (is.mapM ensured g) = g := by
  induction is with
  | nil => exact ⟨⟨rfl, rfl⟩, rfl⟩
  | cons i rest ih =>
    obtain ⟨idle, same⟩ := ensured_idle (held i (by simp))
    obtain ⟨idle', same'⟩ := ih fun j inside => held j (by simp [inside])
    rw [List.mapM_cons, List.mapM_cons]
    constructor
    · refine idle.bind fun t g₁ answered => ?_
      rw [Traced.call_ensured] at answered
      rw [answered, after_ok] at same
      subst same
      exact idle'.bind fun _ _ _ => ⟨rfl, rfl⟩
    · cases run : ensured i g with
      | error f g₁ =>
        rw [run, after_error] at same
        rw [raise_bind.mpr (.inl run), after_error, same]
      | ok t g₁ =>
        rw [run, after_ok] at same
        subst same
        rw [run_bind run]
        cases others : rest.mapM ensured g₁ with
        | error f g₂ =>
          rw [others, after_error] at same'
          rw [raise_bind.mpr (.inl others), after_error, same']
        | ok ts g₂ =>
          rw [others, after_ok] at same'
          rw [run_bind others, same']
          rfl

/-- A visit that finds the values of the inputs, and that of the node if it has a gradient, runs
nothing and changes gradients of inputs only. -/
theorem visit_idle {n : Node α} (mine : (g.slot n.id).grad.isSome → (g.slot n.id).value.isSome)
    (held : ∀ i ∈ n.inputs, (g.slot i.id).value.isSome) :
    (Traced.visit n).Idle g ∧ Grades (fun id => n.takes id = true) g (after (visit n g)) := by
  cases n with
  | leaf s init => exact ⟨⟨rfl, rfl⟩, .refl g⟩
  | apply s op is =>
    have taken : ∀ i ∈ is, (Node.apply s op is).takes i.id = true :=
      fun i input => Node.takes_iff.mpr ⟨i, input, rfl⟩
    have held : ∀ i ∈ is, (g.slot i.id).value.isSome := held
    obtain ⟨idle, same⟩ := ensuredEach_idle held
    by_cases reached : ((Node.apply s op is).trainable &&
        (g.grad? (Node.apply s op is).id).isSome) = true
    · have found : (g.slot s.id).grad.isSome := by
        simp only [Bool.and_eq_true, grad?, Option.isSome_map] at reached
        exact reached.2
      obtain ⟨idle', same'⟩ := ensured_idle (n := .apply s op is) (mine found)
      constructor
      · refine .read ?_
        rw [if_pos reached]
        refine idle'.bind fun out g₁ answered => ?_
        rw [Traced.call_ensured] at answered
        rw [answered, after_ok] at same'
        subst same'
        refine idle.bind fun values g₁ _ => ?_
        refine Traced.Idle.bind (.silent ?_) fun _ g₂ _ => .silent ?_
        · exact (openGrads_grades (R := fun _ => True) (fun _ _ => trivial) g₁).recomputations
        · exact (contribute_grades (R := fun _ => True) (fun _ _ => trivial) out values
            g₂).recomputations
      · refine Leads.bind_at Grades.trans (.refl g) fun _ _ got => ?_
        obtain ⟨rfl, rfl⟩ := answer_get.mp got
        rw [if_pos reached, backwardStep_eq]
        refine Leads.bind_at Grades.trans (by rw [same']; exact .refl g) fun out g₁ answered => ?_
        rw [answered, after_ok] at same'
        subst same'
        refine Leads.bind_at Grades.trans (by rw [same]; exact .refl g₁) fun values g₂ _ => ?_
        refine Leads.bind_at Grades.trans (openGrads_grades taken g₂) fun _ g₃ _ => ?_
        exact contribute_grades taken out values g₃
    · constructor
      · refine .read ?_
        rw [if_neg reached]
        exact ⟨rfl, rfl⟩
      · refine Leads.bind_at Grades.trans (.refl g) fun _ _ got => ?_
        obtain ⟨rfl, rfl⟩ := answer_get.mp got
        rw [if_neg reached]
        exact .refl g

omit [Element α] in
theorem afterBackward_uncounted (n : Node α) (p : Pending) (g : Graph α) :
    Uncounted g (afterBackward n p g).2 := by
  rw [afterBackward_eq]
  split
  · have down : Uncounted g (n.distinctInputs.foldl leaveInput (g, p)).1 := by
      rw [leaveInput_eq]
      exact countDown_uncounted leaves n.distinctInputs p g
    refine down.trans ?_
    change (Graph.leave n _).recomputations = _
    unfold leave
    split
    · rw [release, recomputations_releaseGrad, recomputations_releaseValue]
    · rfl
  · exact .refl g

omit [Element α] in
/-- What a backward walk over some nodes needs, so that it runs nothing: the values of their
inputs, and those of the nodes that a gradient has reached. Where memory is released the counts
are those of the consumers among the nodes. -/
structure Stocked (known : Node α → Prop) (ns : List (Node α)) (p : Pending) (g : Graph α) :
    Prop where
  wf : WellFormed known g
  mem : ∀ n ∈ ns, known n
  sorted : ns.Pairwise fun m n => n.id < m.id
  counted : g.settings.releaseMemory = true → p.counts.size = g.slots.size ∧ p.Matches ns
  inputs : ∀ n ∈ ns, ∀ i ∈ n.inputs, (g.slot i.id).value.isSome
  reached : ∀ n ∈ ns, (g.slot n.id).grad.isSome → (g.slot n.id).value.isSome

namespace Stocked

variable {n : Node α} {ns rest : List (Node α)} {p : Pending}

omit [Element α] in
/-- The visit of the first node leaves what the walk over the others needs: a node that gets a
gradient is an input of the first one, and an input of a node that is still to be visited is not
dropped. -/
theorem step (stocked : Stocked known (n :: rest) p g) {g₁ : Graph α}
    (grades : Grades (fun id => n.takes id = true) g g₁) :
    Stocked known rest (afterBackward n p g₁).1 (afterBackward n p g₁).2 := by
  have here := stocked.mem n (by simp)
  obtain ⟨older, sorted⟩ := List.pairwise_cons.mp stocked.sorted
  have mem : ∀ m ∈ rest, known m := fun m inside => stocked.mem m (by simp [inside])
  have wf₁ := stocked.wf.of_outline grades.outline
  have size := size_of_outline grades.outline
  have settings := settings_of_outline grades.outline
  have inputs : ∀ m ∈ rest, ∀ i ∈ m.inputs, (g₁.slot i.id).value.isSome := by
    intro m inside i input
    rw [grades.value]
    exact stocked.inputs m (by simp [inside]) i input
  have reached : ∀ m ∈ rest, (g₁.slot m.id).grad.isSome → (g₁.slot m.id).value.isSome := by
    intro m inside found
    rw [grades.value]
    rcases grades.slots m.id with same | ⟨taken, _⟩
    · rw [same] at found
      exact stocked.reached m (by simp [inside]) found
    · obtain ⟨i, input, same⟩ := Node.takes_iff.mp taken
      rw [← same]
      exact stocked.inputs n (by simp) i input
  cases releases : g₁.settings.releaseMemory with
  | false =>
    rw [afterBackward_eq, if_neg (by rw [releases]; exact Bool.false_ne_true)]
    refine ⟨wf₁.of_outline rfl, mem, sorted, fun on => ?_, inputs, reached⟩
    cases releases.symm.trans on
  | true =>
    obtain ⟨fits, matched⟩ := stocked.counted (settings ▸ releases)
    obtain ⟨outline, size', matches', _, others⟩ :=
      afterBackward_slot wf₁ here (fits.trans size.symm) releases
    replace matched := matches' rest matched
    generalize (afterBackward n p g₁).1 = p' at size' matched others
    generalize (afterBackward n p g₁).2 = g' at outline others
    refine ⟨wf₁.of_outline outline, mem, sorted, fun _ => ?_, fun m inside i input => ?_,
      fun m inside found => ?_⟩
    · exact ⟨by rw [size', fits, size_of_outline outline, size], matched⟩
    · have other : i.id ≠ n.id := by
        have := (stocked.wf.inputs (mem m inside) input).2
        have := older m inside
        omega
      rcases others i.id other with kept | ⟨_, _, _, none, _⟩
      · rw [kept]
        exact inputs m inside i input
      · rw [matched] at none
        have := consumers_pos inside input rfl
        omega
    · have other : m.id ≠ n.id := Nat.ne_of_lt (older m inside)
      rcases others m.id other with kept | ⟨i, _, same, _, free, slot⟩
      · rw [kept] at found ⊢
        exact reached m inside found
      · simp only [leaves, same, grad?, Bool.and_eq_true, Option.isNone_iff_eq_none,
          Option.map_eq_none_iff] at free
        rw [slot, free.1] at found
        cases found

/-- The walk runs nothing. -/
theorem idle (stocked : Stocked known ns p g) : (Traced.backwardFrom ns p).Idle g := by
  induction ns generalizing g p with
  | nil => exact ⟨rfl, rfl⟩
  | cons n rest ih =>
    obtain ⟨idle, grades⟩ :=
      visit_idle (stocked.reached n (by simp)) (stocked.inputs n (by simp))
    refine idle.bind fun _ g₁ visited => ?_
    rw [Traced.call_visit] at visited
    rw [visited, after_ok] at grades
    refine Traced.Idle.bind (.silent (afterBackward_uncounted n p g₁)) fun p' g₂ left => ?_
    have same : afterBackward n p g₁ = (p', g₂) := answer_modifyGet.mp left
    have later := stocked.step (p := p) grades
    rw [same] at later
    exact ih later

end Stocked

/-- Roots at hand are prepared without running anything. -/
theorem seedRoots_idle {started : List (Node α × Option Literal)} (wf : WellFormed known g)
    (mem : ∀ root ∈ started, known root.1) (atHand : ∀ root ∈ started, AtHand g root.1) :
    (started.forM Traced.seedRoot).Idle g := by
  induction started generalizing g with
  | nil => exact ⟨rfl, rfl⟩
  | cons root rest ih =>
    obtain ⟨n, seed⟩ := root
    have here : known n := mem (n, seed) (by simp)
    refine Traced.Idle.bind ?_ fun _ g₁ seeded => ?_
    · refine Traced.Idle.bind (.silent rfl) fun _ g₁ flagged => ?_
      have flags : Prepares g g₁ := by
        rw [← answer_modify.mp flagged]
        refine .of_modifySlot n.id ?_ ?_ ?_ g
        · exact fun _ => rfl
        · exact fun _ => rfl
        · exact fun _ _ => rfl
      have ready : AtHand g₁ n := (atHand (n, seed) (by simp)).of_prepares flags
      refine Traced.Idle.bind (ensure_idle ready) fun _ g₂ _ => ?_
      split
      · exact .silent (seedGrad_grades (R := fun _ => True) trivial seed g₂).recomputations
      · exact ⟨rfl, rfl⟩
    · rw [Traced.call_seedRoot] at seeded
      have prepares := (seedRoot_prepares seed wf here seeded).1
      refine ih (wf.of_outline prepares.outline) (fun root inside => mem root (by simp [inside])) ?_
      exact fun root inside => (atHand root (by simp [inside])).of_prepares prepares

theorem logForward_uncounted (ns : List (Node α)) :
    Leads Uncounted (logForward ns : GraphM α Unit) := by
  unfold logForward
  refine Leads.bind Uncounted.trans (Leads.of_get .refl) fun g => ?_
  split
  · exact .of_grades (writeLog_grades _ _)
  · exact Leads.of_pure .refl _

theorem logBackward_uncounted (ns : List (Node α)) :
    Leads Uncounted (logBackward ns : GraphM α Unit) := by
  unfold logBackward
  refine Leads.bind Uncounted.trans (Leads.of_get .refl) fun g => ?_
  split
  · exact Leads.bind Uncounted.trans (.of_grades (writeLog_grades _ _)) fun _ =>
      .of_grades (writeLog_grades _ _)
  · exact Leads.of_pure .refl _

omit [Element α] in
theorem recomputations_dropGrads (g : Graph α) : g.dropGrads.recomputations = g.recomputations := by
  have each : ∀ (ns : List (Node α)) (g : Graph α), (ns.foldl (fun g n =>
      if n.isLeaf then g else g.releaseGrad n.id) g).recomputations = g.recomputations := by
    intro ns
    induction ns with
    | nil => exact fun _ => rfl
    | cons n rest ih =>
      intro g
      rw [List.foldl_cons, ih]
      split
      · rfl
      · exact recomputations_releaseGrad g n.id
  exact each g.tape.toList g

/-- A backward pass runs nothing if the nodes of the tape and their inputs hold their values and
its roots are at hand. -/
theorem backward_idle (sound : Sound known g) {roots : Roots α} {seeds : Seeds}
    (known' : ∀ n ∈ roots.nodes, n.graph = g.serial → known n)
    (held : ∀ n ∈ g.tape.toList,
      (g.slot n.id).value.isSome ∧ ∀ i ∈ n.inputs, (g.slot i.id).value.isSome)
    (atHand : ∀ n, known n → g.checkNode n = .ok () → AtHand g n) :
    (Traced.backward roots seeds).Idle g := by
  have wf := sound.toWellFormed
  have drops := dropGrads_prepares g
  have wf' := wf.of_outline drops.outline
  refine Traced.Idle.bind (.silent ?_) fun started g₁ accepted => ?_
  · change Uncounted g (after _)
    refine Leads.bind_at Uncounted.trans (Leads.of_get .refl g) fun g₁ g₂ _ => ?_
    exact Uncounted.of_grades (lift_grades _) g₂
  rw [Traced.call_silent, answer_bind] at accepted
  obtain ⟨_, _, got, accepted⟩ := accepted
  obtain ⟨rfl, rfl⟩ := answer_get.mp got
  rw [answer_lift] at accepted
  obtain ⟨accepted, rfl⟩ := accepted
  refine Traced.Idle.bind (.silent (recomputations_dropGrads g)) fun _ g₁ dropped => ?_
  rw [← answer_modify.mp dropped]
  have usable := known_started sound known' accepted
  have mem : ∀ root ∈ started, known root.1 := fun root inside => (usable root inside).1
  refine .read ?_
  refine Traced.Idle.bind (seedRoots_idle wf' mem fun root inside =>
    (atHand root.1 (usable root inside).1 (usable root inside).2).of_prepares drops)
    fun _ g₂ seeded => ?_
  rw [Traced.call_forM, funext (Traced.call_seedRoot (α := α))] at seeded
  obtain ⟨prepares, _⟩ := seedRoots_prepares wf' mem seeded
  have prepares := drops.trans prepares
  have tape : g.dropGrads.tape = g.tape := tape_of_outline drops.outline
  rw [tape]
  refine .read ?_
  have on : ∀ n ∈ g.tape.toList.reverse, n ∈ g.tape.toList := fun _ => List.mem_reverse.mp
  have stocked : Stocked known g.tape.toList.reverse
      (Pending.start g₂.slots.size g.tape.toList) g₂ := by
    constructor
    · exact wf.of_outline prepares.outline
    · exact fun n inside => wf.known_of_tape (on n inside)
    · exact List.pairwise_reverse.mpr wf.sorted
    · intro _
      have tape : ∀ n ∈ g.tape.toList, known n := fun _ => wf.known_of_tape
      obtain ⟨fits, matched⟩ := (wf.of_outline prepares.outline).start_matches tape
      exact ⟨fits, matched.reverse⟩
    · exact fun n inside i input => prepares.held ((held n (on n inside)).2 i input)
    · exact fun n inside _ => prepares.held (held n (on n inside)).1
  exact Traced.Idle.bind stocked.idle fun _ g₃ _ => .silent (logBackward_uncounted _ g₃)

end Graph

end ReverseMode
