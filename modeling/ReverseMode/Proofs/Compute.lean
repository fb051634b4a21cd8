import ReverseMode.Proofs.Change

/-!
The computation of one node.

`compute` either raises and changes only the accounting, or it sets the value of the node to
what the initializer supplies or the operator makes of the values of the inputs. It answers
whenever these values are there and the attempt succeeds.
-/

namespace ReverseMode

namespace Graph

variable {α : Type} {g g' : Graph α}

/-! ### Steps that change only the accounting -/

theorem answer_lift {β : Type} {e : Except Fault β} {b : β} :
    lift e g = .ok b g' ↔ e = .ok b ∧ g = g' := by
  cases e with
  | ok c => simp [lift, answer_pure]
  | error f => simpa [lift] using not_answer_throw

theorem raise_lift {β : Type} {e : Except Fault β} {f : Fault} :
    lift e g = .error f g' ↔ e = .error f ∧ g = g' := by
  cases e with
  | ok c => simpa [lift] using not_raise_pure
  | error f => simp [lift, raise_throw]

theorem leads_lift {β : Type} {R : Graph α → Graph α → Prop} (reflexive : ∀ g, R g g)
    (e : Except Fault β) : Leads R (lift e : GraphM α β) := by
  intro g
  cases e with
  | ok => exact reflexive g
  | error => exact reflexive g

theorem lift_leads {β : Type} (e : Except Fault β) : Leads Quiet (lift e : GraphM α β) :=
  leads_lift .refl e

/-- The graph with a new storage in use. -/
def allocated (s : Signature) (g : Graph α) : Graph α :=
  { g with allocator := (g.allocator.allocate (bytes s)).2 }

theorem allocated_quiet (s : Signature) (g : Graph α) : Quiet g (g.allocated s) :=
  ⟨⟨rfl, rfl, Nat.le_succ _⟩, rfl⟩

theorem answer_allocate {s : Signature} {storage : Nat} :
    allocate s g = .ok storage g' ↔
      checkRank s.shape.rank *> Allocator.checkBytes (bytes s) = .ok () ∧
        storage = g.allocator.fresh ∧ g' = g.allocated s := by
  unfold allocate
  cases checkRank s.shape.rank *> Allocator.checkBytes (bytes s) with
  | error f => simpa using not_answer_throw
  | ok _ =>
    simp only [answer_modifyGet, true_and, Allocator.allocate, allocated, Prod.mk.injEq]
    exact and_congr eq_comm eq_comm

theorem raise_allocate {s : Signature} {f : Fault} :
    allocate s g = .error f g' ↔
      checkRank s.shape.rank *> Allocator.checkBytes (bytes s) = .error f ∧ g' = g := by
  unfold allocate
  cases checkRank s.shape.rank *> Allocator.checkBytes (bytes s) with
  | error e => simp [raise_throw, eq_comm]
  | ok _ => simpa using fun impossible => nomatch impossible

theorem report_quiet (r : Report) (g : Graph α) : Quiet g (g.report r) :=
  ⟨⟨rfl, rfl, Nat.le_refl _⟩, rfl⟩

theorem writeLog_leads (log : LogSettings) (pieces : Report.Pieces) :
    Leads Quiet (writeLog log pieces : GraphM α Unit) := by
  unfold writeLog
  refine Leads.bind Quiet.trans (Leads.of_modify (report_quiet _)) fun _ => ?_
  split
  · exact Leads.of_throw Quiet.refl _
  · exact Leads.of_pure Quiet.refl _

theorem writeLog_answer {log : LogSettings} {pieces : Report.Pieces} :
    writeLog log pieces g = .ok () g' ↔ (Report.written pieces).2 = none ∧
      g' = g.report (.log log.name (Report.written pieces).1) := by
  unfold writeLog
  simp only [answer_bind, answer_modify]
  cases (Report.written pieces).2 with
  | none =>
    simp only [answer_pure, true_and]
    constructor
    · rintro ⟨_, _, rfl, rfl⟩
      rfl
    · rintro rfl
      exact ⟨⟨⟩, _, rfl, rfl⟩
  | some f => simp [not_answer_throw]

theorem writeLog_answers {log : LogSettings} {pieces : Report.Pieces} :
    (∃ g', writeLog log pieces g = .ok () g') ↔ (Report.written pieces).2 = none := by
  simp [writeLog_answer]

theorem writeLog_raises {log : LogSettings} {pieces : Report.Pieces} {f : Fault} :
    (∃ g', writeLog log pieces g = .error f g') ↔ (Report.written pieces).2 = some f := by
  unfold writeLog
  simp only [raise_bind, not_raise_modify, answer_modify, false_or]
  cases (Report.written pieces).2 with
  | none => simp [not_raise_pure]
  | some e => simp [raise_throw]

theorem fill_slots {id : Nat} (bound : id < g.slots.size) (held : Held α) :
    ((g.setValue id held).setComputed true id).slot = Function.update g.slot id
      { g.slot id with value := some held, computed := true } := by
  have size : (g.setValue id held).slots.size = g.slots.size :=
    size_of_outline (outline_setValue g id held)
  rw [slot_setComputed (by rwa [size]), slot_setValue bound]
  simp

/-! ### Values of the inputs -/

/-- The values of some nodes, or the fault of the first one that holds none. -/
def reading (g : Graph α) (inputs : List (Node α)) : Except Fault (List (Tensor α)) :=
  inputs.mapM fun i => match g.held? i.id with
    | some t => .ok t
    | none => .error .type

theorem read_inputs {inputs : List (Node α)} {ts : List (Tensor α)} :
    g.reading inputs = .ok ts ↔ g.Reads inputs ts := by
  unfold reading
  induction inputs generalizing ts with
  | nil => simp [Reads, Yields.nil, pure, Except.pure, eq_comm]
  | cons n rest ih =>
    simp only [List.mapM_cons, bind_eq_ok, pure_eq_ok, Reads, Yields.cons] at ih ⊢
    cases g.held? n.id with
    | none => simp
    | some t =>
      constructor
      · rintro ⟨_, same, us, others, rfl⟩
        cases same
        exact ⟨t, us, rfl, rfl, ih.mp others⟩
      · rintro ⟨_, us, rfl, same, others⟩
        cases same
        exact ⟨t, rfl, us, ih.mpr others, rfl⟩

theorem reading_congr (slots : g'.slot = g.slot) : g'.reading = g.reading := by
  funext inputs
  simp only [reading, held?, slots]

theorem answer_inputValues {inputs : List (Node α)} {ts : List (Tensor α)} :
    inputValues inputs g = .ok ts g' ↔ g.Reads inputs ts ∧ g = g' := by
  simp only [inputValues, answer_bind, answer_get, answer_lift]
  constructor
  · rintro ⟨_, _, ⟨rfl, rfl⟩, reads, rfl⟩
    exact ⟨read_inputs.mp reads, rfl⟩
  · rintro ⟨reads, rfl⟩
    exact ⟨g, g, ⟨rfl, rfl⟩, read_inputs.mpr reads, rfl⟩

theorem raise_inputValues {inputs : List (Node α)} {f : Fault} :
    inputValues inputs g = .error f g' ↔ g.reading inputs = .error f ∧ g' = g := by
  rw [inputValues, raise_bind]
  constructor
  · rintro (impossible | ⟨_, _, got, refused⟩)
    · exact absurd impossible not_raise_get
    · obtain ⟨rfl, rfl⟩ := answer_get.mp got
      obtain ⟨missing, same⟩ := raise_lift.mp refused
      exact ⟨missing, same.symm⟩
  · rintro ⟨missing, rfl⟩
    exact .inr ⟨g', g', answer_get.mpr ⟨rfl, rfl⟩, raise_lift.mpr ⟨missing, rfl⟩⟩

theorem reads_congr (slots : g'.slot = g.slot) {inputs : List (Node α)} {ts : List (Tensor α)}
    (reads : g.Reads inputs ts) : g'.Reads inputs ts := by
  rwa [← read_inputs, reading_congr slots, read_inputs]

/-- The first of some held values. -/
theorem head_held {inputs : List (Node α)} {t : Tensor α} {ts : List (Tensor α)}
    (reads : g.Reads inputs (t :: ts)) :
    ∃ held, (inputs.head?.bind fun i => (g.slot i.id).value) = some held := by
  cases inputs with
  | nil => simp [Reads, Yields] at reads
  | cons n rest =>
    obtain ⟨_, _, same, found, _⟩ := Yields.cons.mp reads
    obtain ⟨held, value, _⟩ := Option.map_eq_some_iff.mp found
    exact ⟨held, value⟩

/-! ### Views -/

/-- A view needs a first value. -/
theorem viewOf_nil (op : Operator α) : ∀ t, op.viewOf [] ≠ .ok t := by
  intro t made
  unfold Operator.viewOf at made
  split at made <;> simp [Operator.first, bind, Except.bind, throw, throwThe,
    MonadExceptOf.throw] at made

/-- What follows in the computation of a view once its values have been told. -/
def showView (s : Stamp) (op : Operator α) (inputs : List (Node α)) (values : List (Tensor α)) :
    GraphM α Unit := do
  let array ← lift (op.viewOf values)
  let g ← get
  match inputs.head?.bind fun i => (g.slot i.id).value with
  | some held => modify (setValue s.id ⟨held.storage, false, array⟩)
  | none => throw .type

theorem showView_raise {s : Stamp} {op : Operator α} {inputs : List (Node α)}
    {ts : List (Tensor α)} {f : Fault} (reads : g.Reads inputs ts) :
    showView s op inputs ts g = .error f g' ↔ op.viewOf ts = .error f ∧ g' = g := by
  rw [showView, raise_bind]
  constructor
  · rintro (refused | ⟨t, _, viewed, raised⟩)
    · obtain ⟨refused, same⟩ := raise_lift.mp refused
      exact ⟨refused, same.symm⟩
    · -- a view that has been made shows the first input
      obtain ⟨made, rfl⟩ := answer_lift.mp viewed
      cases ts with
      | nil => exact absurd made (viewOf_nil op t)
      | cons first rest =>
        obtain ⟨held, shown⟩ := head_held reads
        rw [raise_bind] at raised
        rcases raised with impossible | ⟨_, _, got, raised⟩
        · exact absurd impossible not_raise_get
        obtain ⟨rfl, rfl⟩ := answer_get.mp got
        simp only [shown] at raised
        exact absurd raised not_raise_modify
  · rintro ⟨refused, rfl⟩
    exact .inl (raise_lift.mpr ⟨refused, rfl⟩)

theorem showView_answer {s : Stamp} {op : Operator α} {inputs : List (Node α)}
    {ts : List (Tensor α)} (answered : showView s op inputs ts g = .ok () g') :
    ∃ held : Held α, op.viewOf ts = .ok held.array ∧ held.owned = false ∧
      g' = g.setValue s.id held := by
  rw [showView, answer_bind] at answered
  obtain ⟨array, _, viewed, answered⟩ := answered
  obtain ⟨made, rfl⟩ := answer_lift.mp viewed
  rw [answer_bind] at answered
  obtain ⟨_, _, got, answered⟩ := answered
  obtain ⟨rfl, rfl⟩ := answer_get.mp got
  cases shown : inputs.head?.bind fun i => (g.slot i.id).value with
  | some held =>
    simp only [shown] at answered
    exact ⟨⟨held.storage, false, array⟩, made, rfl, (answer_modify.mp answered).symm⟩
  | none =>
    simp only [shown] at answered
    exact absurd answered not_answer_throw

theorem showView_answers {s : Stamp} {op : Operator α} {inputs : List (Node α)}
    {ts : List (Tensor α)} {t : Tensor α} (reads : g.Reads inputs ts)
    (made : op.viewOf ts = .ok t) : ∃ g', showView s op inputs ts g = .ok () g' := by
  cases ts with
  | nil => exact absurd made (viewOf_nil op t)
  | cons first rest =>
    obtain ⟨held, shown⟩ := head_held reads
    refine ⟨g.setValue s.id ⟨held.storage, false, t⟩, ?_⟩
    rw [showView, answer_bind]
    refine ⟨t, g, answer_lift.mpr ⟨made, rfl⟩, ?_⟩
    rw [answer_bind]
    refine ⟨g, g, answer_get.mpr ⟨rfl, rfl⟩, ?_⟩
    simp only [shown]
    exact answer_modify.mpr rfl

/-! ### What debug nodes tell -/

variable [Element α]

theorem reportDebug_leads (message : Message) (phase title : String) (seen : Tensor α) :
    Leads Quiet (reportDebug message phase title seen) := by
  refine Leads.bind Quiet.trans (Leads.of_get Quiet.refl) fun g => ?_
  split
  · exact writeLog_leads _ _
  · exact Leads.of_modify (report_quiet _)

/-- What a debug node tells when it is computed. -/
def tell (op : Operator α) (values : List (Tensor α)) : GraphM α Unit :=
  match debugMessage? op, values with
  | some message, seen :: _ => reportDebug message "forward" "FORWARD" seen
  | _, _ => pure ()

theorem tell_leads (op : Operator α) (values : List (Tensor α)) : Leads Quiet (tell op values) := by
  unfold tell
  split
  · exact reportDebug_leads _ _ _ _
  · exact Leads.of_pure Quiet.refl _

/-- What is told leaves the allocator alone. -/
theorem tell_allocator (op : Operator α) (values : List (Tensor α)) :
    Leads (fun g g' => g'.allocator = g.allocator) (tell op values) := by
  have transitive : ∀ {g₁ g₂ g₃ : Graph α}, g₂.allocator = g₁.allocator →
      g₃.allocator = g₂.allocator → g₃.allocator = g₁.allocator :=
    fun first second => second.trans first
  unfold tell
  split
  · refine Leads.bind transitive (Leads.of_get fun _ => rfl) fun _ => ?_
    split
    · refine Leads.bind transitive (Leads.of_modify fun _ => rfl) fun _ => ?_
      split
      · exact fun _ => rfl
      · exact fun _ => rfl
    · exact Leads.of_modify fun _ => rfl
  · exact fun _ => rfl

theorem tell_answers {op : Operator α} {values : List (Tensor α)} :
    (∃ g', tell op values g = .ok () g') ↔
      (Report.written (op.told g.settings values)).2 = none := by
  unfold tell Operator.told
  cases debugMessage? op with
  | none => simp [answer_pure, Report.written]
  | some message =>
    cases values with
    | nil => simp [answer_pure, Report.written]
    | cons seen rest =>
      simp only [reportDebug, answer_bind, answer_get]
      cases log : g.settings.log? with
      | none => simp [log, answer_modify, Report.written]
      | some l =>
        rw [← @writeLog_answers _ g l]
        simp [log]

theorem tell_raises {op : Operator α} {values : List (Tensor α)} {f : Fault} :
    (∃ g', tell op values g = .error f g') ↔
      (Report.written (op.told g.settings values)).2 = some f := by
  unfold tell Operator.told
  cases debugMessage? op with
  | none => simp [not_raise_pure, Report.written]
  | some message =>
    cases values with
    | nil => simp [not_raise_pure, Report.written]
    | cons seen rest =>
      simp only [reportDebug, raise_bind, not_raise_get, answer_get, false_or]
      cases log : g.settings.log? with
      | none => simp [log, not_raise_modify, Report.written]
      | some l =>
        rw [← @writeLog_raises _ g l]
        simp [log]

/-! ### Leaves -/

/-- The value of a leaf is drawn with the randomness from before its storage was taken. -/
theorem supply_allocated (init : Initializer α) (s : Stamp) (g : Graph α) :
    init.supply s g.random = (do
      let drawn ← init.run s.shape s.type (g.allocated ⟨s.shape, s.type⟩).random
      pure (← drawn.1.assign s.type.storage s.shape.extents, drawn.2)) := rfl

/-- A leaf that raises after its storage has been taken has given it back. -/
theorem computeLeaf_raise {s : Stamp} {init : Initializer α} {f : Fault} :
    computeLeaf s init g = .error f g' ↔
      checkRank s.shape.rank *> Allocator.checkBytes (bytes ⟨s.shape, s.type⟩) = .error f ∧ g' = g ∨
      checkRank s.shape.rank *> Allocator.checkBytes (bytes ⟨s.shape, s.type⟩) = .ok () ∧
        init.supply s g.random = .error f ∧
        g' = (g.allocated ⟨s.shape, s.type⟩).giveBack g.allocator.fresh := by
  rw [computeLeaf, raise_bind, raise_allocate]
  refine or_congr Iff.rfl ⟨?_, ?_⟩
  · rintro ⟨storage, _, allocates, raised⟩
    obtain ⟨admitted, rfl, rfl⟩ := answer_allocate.mp allocates
    rw [raise_bind] at raised
    rcases raised with impossible | ⟨_, _, read, raised⟩
    · exact absurd impossible not_raise_get
    obtain ⟨rfl, rfl⟩ := answer_get.mp read
    rw [← supply_allocated] at raised
    cases supplied : init.supply s g.random with
    | ok drawn =>
      simp only [supplied, raise_bind, not_raise_modify, and_false, exists_false, or_false]
        at raised
    | error refusal =>
      simp only [supplied, raise_bind] at raised
      rcases raised with impossible | ⟨_, _, given, raised⟩
      · exact absurd impossible not_raise_modify
      · obtain ⟨rfl, rfl⟩ := raise_throw.mp raised
        exact ⟨admitted, rfl, (answer_modify.mp given).symm⟩
  · rintro ⟨admitted, refused, rfl⟩
    refine ⟨_, _, answer_allocate.mpr ⟨admitted, rfl, rfl⟩, ?_⟩
    rw [run_bind (answer_get.mpr ⟨rfl, rfl⟩)]
    rw [← supply_allocated, refused]
    rfl

theorem computeLeaf_answer {s : Stamp} {init : Initializer α}
    (answered : computeLeaf s init g = .ok () g') :
    ∃ held random, init.supply s g.random = .ok (held.array, random) ∧
      held.storage = g.allocator.fresh ∧ held.owned = true ∧
      g' = setValue s.id held { g.allocated ⟨s.shape, s.type⟩ with random } := by
  rw [computeLeaf, answer_bind] at answered
  obtain ⟨storage, g₁, allocates, answered⟩ := answered
  obtain ⟨_, rfl, rfl⟩ := answer_allocate.mp allocates
  rw [answer_bind] at answered
  obtain ⟨_, _, read, answered⟩ := answered
  obtain ⟨rfl, rfl⟩ := answer_get.mp read
  rw [← supply_allocated] at answered
  cases supplied : init.supply s g.random with
  | ok drawn =>
    simp only [supplied, answer_bind] at answered
    obtain ⟨_, _, drawn, answered⟩ := answered
    rw [← answer_modify.mp answered, ← answer_modify.mp drawn]
    exact ⟨⟨g.allocator.fresh, true, _⟩, _, rfl, rfl, rfl, rfl⟩
  | error refusal =>
    simp only [supplied, answer_bind] at answered
    obtain ⟨_, _, _, impossible⟩ := answered
    exact absurd impossible not_answer_throw

/-! ### Applications -/

theorem computeView_eq (s : Stamp) (op : Operator α) (inputs : List (Node α)) :
    computeView s op inputs = (do
      let values ← inputValues inputs
      tell op values
      showView s op inputs values) := by
  unfold computeView tell
  congr 1
  funext values
  cases debugMessage? op with
  | none => rfl
  | some message =>
    cases values with
    | nil => rfl
    | cons => rfl

/-- Where an operator raises after a storage has been taken, that stays in use. -/
theorem computeOwned_raise {s : Stamp} {op : Operator α} {inputs : List (Node α)} {f : Fault} :
    computeOwned s op inputs g = .error f g' ↔ g.reading inputs = .error f ∧ g' = g ∨
      ∃ ts, g.Reads inputs ts ∧
        (checkRank s.shape.rank *> Allocator.checkBytes (bytes ⟨s.shape, s.type⟩) = .error f ∧
            g' = g ∨
          checkRank s.shape.rank *> Allocator.checkBytes (bytes ⟨s.shape, s.type⟩) = .ok () ∧
            op.forward s.type.storage s.shape.extents ts = .error f ∧
            g' = g.allocated ⟨s.shape, s.type⟩) := by
  simp only [computeOwned, raise_bind, raise_inputValues, answer_inputValues, raise_allocate,
    answer_allocate, raise_lift, not_raise_modify, and_false, exists_false, or_false]
  refine or_congr Iff.rfl ⟨?_, ?_⟩
  · rintro ⟨ts, _, ⟨reads, rfl⟩, refused | ⟨_, _, ⟨admitted, rfl, rfl⟩, refused, rfl⟩⟩
    · exact ⟨ts, reads, .inl refused⟩
    · exact ⟨ts, reads, .inr ⟨admitted, refused, rfl⟩⟩
  · rintro ⟨ts, reads, refused | ⟨admitted, refused, rfl⟩⟩
    · exact ⟨ts, g, ⟨reads, rfl⟩, .inl refused⟩
    · exact ⟨ts, g, ⟨reads, rfl⟩, .inr ⟨_, _, ⟨admitted, rfl, rfl⟩, refused, rfl⟩⟩

/-- A view that raises has taken nothing. -/
theorem computeView_raise {s : Stamp} {op : Operator α} {inputs : List (Node α)} {f : Fault}
    (raised : computeView s op inputs g = .error f g') :
    (g.reading inputs = .error f ∨ ∃ ts, g.Reads inputs ts ∧
      ((Report.written (op.told g.settings ts)).2 = some f ∨
        (Report.written (op.told g.settings ts)).2 = none ∧ op.viewOf ts = .error f)) ∧
      Quiet g g' ∧ g'.allocator = g.allocator := by
  rw [computeView_eq, raise_bind, raise_inputValues] at raised
  rcases raised with ⟨missing, rfl⟩ | ⟨ts, _, read, raised⟩
  · exact ⟨.inl missing, .refl g', rfl⟩
  obtain ⟨reads, rfl⟩ := answer_inputValues.mp read
  rw [raise_bind] at raised
  have quiet := tell_leads op ts g
  have same := tell_allocator op ts g
  rcases raised with refused | ⟨_, g₁, told, raised⟩
  · rw [refused, after_error] at quiet same
    exact ⟨.inr ⟨ts, reads, .inl (tell_raises.mp ⟨g', refused⟩)⟩, quiet, same⟩
  · rw [told, after_ok] at quiet same
    obtain ⟨refused, rfl⟩ := (showView_raise (reads_congr quiet.slots reads)).mp raised
    exact ⟨.inr ⟨ts, reads, .inr ⟨tell_answers.mp ⟨g', told⟩, refused⟩⟩, quiet, same⟩

theorem computeOwned_answer {s : Stamp} {op : Operator α} {inputs : List (Node α)} :
    computeOwned s op inputs g = .ok () g' ↔ ∃ ts t,
      g.Reads inputs ts ∧
      checkRank s.shape.rank *> Allocator.checkBytes (bytes ⟨s.shape, s.type⟩) = .ok () ∧
      op.forward s.type.storage s.shape.extents ts = .ok t ∧
      g' = (g.allocated ⟨s.shape, s.type⟩).setValue s.id ⟨g.allocator.fresh, true, t⟩ := by
  simp only [computeOwned, answer_bind, answer_lift, answer_modify, answer_inputValues,
    answer_allocate]
  constructor
  · rintro ⟨ts, _, ⟨reads, rfl⟩, _, _, ⟨admitted, rfl, rfl⟩, t, _, ⟨made, rfl⟩, rfl⟩
    exact ⟨ts, t, reads, admitted, made, rfl⟩
  · rintro ⟨ts, t, reads, admitted, made, rfl⟩
    exact ⟨ts, g, ⟨reads, rfl⟩, _, _, ⟨admitted, rfl, rfl⟩, t, _, ⟨made, rfl⟩, rfl⟩

/-! ### Nodes -/

/-- Where a value is put: in a new storage of its size, or in one that it does not own. -/
def Placed (s : Signature) (held : Held α) (g g' : Graph α) : Prop :=
  held.owned = true ∧ held.storage = g.allocator.fresh ∧
      g'.allocator = (g.allocator.allocate (bytes s)).2 ∨
    held.owned = false ∧ g'.allocator = g.allocator

/-- The value of an application or why there is none. -/
def computeApply (s : Stamp) (op : Operator α) (inputs : List (Node α)) : GraphM α Unit :=
  if op.isView then computeView s op inputs else computeOwned s op inputs

/-- Why an application raises: an input holds no value, or the attempt fails. -/
theorem computeApply_raise {s : Stamp} {op : Operator α} {inputs : List (Node α)} {f : Fault}
    (raised : computeApply s op inputs g = .error f g') :
    (g.reading inputs = .error f ∨
      ∃ ts, g.Reads inputs ts ∧ op.attempt g.settings s ts = .error f) ∧ Quiet g g' := by
  unfold computeApply at raised
  simp only [Operator.attempt_eq_error, Operator.admitted, Operator.result]
  split at raised
  next view =>
    obtain ⟨why, quiet, _⟩ := computeView_raise raised
    refine ⟨why.imp_right fun ⟨ts, reads, refused⟩ => ⟨ts, reads, ?_⟩, quiet⟩
    rcases refused with told | ⟨told, refused⟩
    · simp [view, told]
    · simp [view, told, refused]
  next owned =>
    obtain ⟨missing, rfl⟩ | ⟨ts, reads, ⟨refused, rfl⟩ | ⟨admitted, refused, rfl⟩⟩ :=
      computeOwned_raise.mp raised
    · exact ⟨.inl missing, .refl g'⟩
    · exact ⟨.inr ⟨ts, reads, by simp [owned, refused]⟩, .refl g'⟩
    · exact ⟨.inr ⟨ts, reads, by simp [owned, admitted, refused]⟩, allocated_quiet _ g⟩

theorem computeApply_answer {s : Stamp} {op : Operator α} {inputs : List (Node α)}
    (answered : computeApply s op inputs g = .ok () g') :
    ∃ ts held g₁, g.Reads inputs ts ∧ op.attempt g.settings s ts = .ok held.array ∧
      Quiet g g₁ ∧ Placed ⟨s.shape, s.type⟩ held g g₁ ∧ g' = g₁.setValue s.id held := by
  unfold computeApply at answered
  simp only [Operator.attempt_eq_ok, Operator.admitted, Operator.result]
  split at answered
  next view =>
    rw [computeView_eq, answer_bind] at answered
    obtain ⟨ts, _, read, answered⟩ := answered
    obtain ⟨reads, rfl⟩ := answer_inputValues.mp read
    rw [answer_bind] at answered
    obtain ⟨_, g₁, told, answered⟩ := answered
    obtain ⟨held, made, shown, rfl⟩ := showView_answer answered
    have silent := tell_answers.mp ⟨g₁, told⟩
    have same : g₁.allocator = g.allocator := by simpa [told] using tell_allocator op ts g
    have quiet : Quiet g g₁ := by simpa [told] using tell_leads op ts g
    refine ⟨ts, held, g₁, reads, ?_, quiet, .inr ⟨shown, same⟩, rfl⟩
    simp [view, silent, made]
  next owned =>
    obtain ⟨ts, t, reads, admitted, made, rfl⟩ := computeOwned_answer.mp answered
    refine ⟨ts, _, _, reads, ?_, allocated_quiet _ g, .inl ⟨rfl, rfl, rfl⟩, rfl⟩
    simp [owned, admitted, made]

theorem computeApply_answers {s : Stamp} {op : Operator α} {inputs : List (Node α)}
    {ts : List (Tensor α)} {t : Tensor α} (reads : g.Reads inputs ts)
    (made : op.attempt g.settings s ts = .ok t) :
    ∃ g', computeApply s op inputs g = .ok () g' := by
  obtain ⟨admitted, made⟩ := Operator.attempt_eq_ok.mp made
  unfold computeApply
  unfold Operator.admitted at admitted
  unfold Operator.result at made
  split
  next view =>
    simp only [view, if_true] at admitted made
    have silent : (Report.written (op.told g.settings ts)).2 = none := by
      cases told : (Report.written (op.told g.settings ts)).2 with
      | none => rfl
      | some f => simp [told] at admitted
    obtain ⟨g₁, told⟩ := tell_answers.mpr silent
    have quiet : Quiet g g₁ := by simpa [told] using tell_leads op ts g
    have reads' : g₁.Reads inputs ts := reads_congr quiet.slots reads
    obtain ⟨g', shown⟩ := showView_answers (s := s) reads' made
    refine ⟨g', ?_⟩
    rw [computeView_eq, answer_bind]
    refine ⟨ts, g, answer_inputValues.mpr ⟨reads, rfl⟩, ?_⟩
    rw [answer_bind]
    exact ⟨(), g₁, told, shown⟩
  next owned =>
    simp only [owned] at admitted made
    exact ⟨_, computeOwned_answer.mpr ⟨ts, t, reads, admitted, made, rfl⟩⟩

/-- The faults of an application: that of the first input without a value, or that of the
attempt. -/
theorem computeApply_raises {s : Stamp} {op : Operator α} {inputs : List (Node α)} {f : Fault} :
    (∃ g', computeApply s op inputs g = .error f g') ↔ g.reading inputs = .error f ∨
      ∃ ts, g.Reads inputs ts ∧ op.attempt g.settings s ts = .error f := by
  refine ⟨fun ⟨_, raised⟩ => (computeApply_raise raised).1, fun why => ?_⟩
  unfold computeApply
  simp only [Operator.attempt_eq_error, Operator.admitted, Operator.result] at why
  split
  next view =>
    simp only [view, if_true] at why
    rw [computeView_eq]
    simp only [raise_bind, raise_inputValues]
    rcases why with missing | ⟨ts, reads, why⟩
    · exact ⟨g, .inl ⟨missing, rfl⟩⟩
    cases told : (Report.written (op.told g.settings ts)).2 with
    | some e =>
      obtain ⟨g', refused⟩ := tell_raises.mpr told
      have same : e = f := by simpa [told] using why
      exact ⟨g', .inr ⟨ts, g, answer_inputValues.mpr ⟨reads, rfl⟩, .inl (same ▸ refused)⟩⟩
    | none =>
      obtain ⟨g₁, silent⟩ := tell_answers.mpr told
      have quiet : Quiet g g₁ := by simpa [silent] using tell_leads op ts g
      have refused : op.viewOf ts = .error f := by simpa [told] using why
      have raised := (showView_raise (s := s) (reads_congr quiet.slots reads)).mpr ⟨refused, rfl⟩
      exact ⟨g₁, .inr ⟨ts, g, answer_inputValues.mpr ⟨reads, rfl⟩, .inr ⟨(), g₁, silent, raised⟩⟩⟩
  next owned =>
    simp only [owned] at why
    simp only [computeOwned_raise]
    rcases why with missing | ⟨ts, reads, refused | ⟨admitted, refused⟩⟩
    · exact ⟨g, .inl ⟨missing, rfl⟩⟩
    · exact ⟨g, .inr ⟨ts, reads, .inl ⟨refused, rfl⟩⟩⟩
    · exact ⟨_, .inr ⟨ts, reads, .inr ⟨admitted, refused, rfl⟩⟩⟩

theorem compute_leaf (s : Stamp) (init : Initializer α) :
    compute (.leaf s init) = (do
      computeLeaf s init
      modify (setComputed true s.id)) := rfl

theorem compute_apply (s : Stamp) (op : Operator α) (inputs : List (Node α)) :
    compute (.apply s op inputs) = (do
      computeApply s op inputs
      modify (setComputed true s.id)) := by
  unfold compute computeApply
  dsimp only
  split <;> rfl

theorem compute_raise {n : Node α} {f : Fault} (raised : compute n g = .error f g') :
    Quiet g g' := by
  cases n with
  | leaf s init =>
    rw [compute_leaf, raise_bind] at raised
    rcases raised with raised | ⟨_, _, _, impossible⟩
    · rcases computeLeaf_raise.mp raised with ⟨_, rfl⟩ | ⟨_, _, rfl⟩
      · exact .refl g'
      · refine (allocated_quiet ⟨s.shape, s.type⟩ g).trans ⟨⟨rfl, rfl, ?_⟩, rfl⟩
        exact Nat.le_of_eq (fresh_giveBack _ _).symm
    · exact absurd impossible not_raise_modify
  | apply s op inputs =>
    rw [compute_apply, raise_bind] at raised
    rcases raised with raised | ⟨_, _, _, impossible⟩
    · exact (computeApply_raise raised).2
    · exact absurd impossible not_raise_modify

/-- How a node is computed: its value is placed, set, and noted as computed. -/
theorem compute_places {n : Node α} (answered : compute n g = .ok () g') :
    ∃ held g₁, Placed n.signature held g g₁ ∧ g₁.outline = g.outline ∧ g₁.slot = g.slot ∧
      g' = (g₁.setValue n.id held).setComputed true n.id := by
  cases n with
  | leaf s init =>
    rw [compute_leaf, answer_bind] at answered
    obtain ⟨_, _, computed, answered⟩ := answered
    obtain ⟨held, random, _, storage, owned, rfl⟩ := computeLeaf_answer computed
    exact ⟨held, { g.allocated ⟨s.shape, s.type⟩ with random }, .inl ⟨owned, storage, rfl⟩,
      rfl, rfl, (answer_modify.mp answered).symm⟩
  | apply s op inputs =>
    rw [compute_apply, answer_bind] at answered
    obtain ⟨_, _, computed, answered⟩ := answered
    obtain ⟨_, held, g₁, _, _, quiet, placed, rfl⟩ := computeApply_answer computed
    exact ⟨held, g₁, placed, quiet.outline, quiet.slots, (answer_modify.mp answered).symm⟩

theorem compute_leaf_answer {s : Stamp} {init : Initializer α} (bound : s.id < g.slots.size)
    (answered : compute (.leaf s init) g = .ok () g') :
    ∃ held : Held α, init.supply s g.random = .ok (held.array, g'.random) ∧
      g'.outline = g.outline ∧ New g g' held.storage ∧
      g'.slot = Function.update g.slot s.id
        { g.slot s.id with value := some held, computed := true } := by
  rw [compute_leaf, answer_bind] at answered
  obtain ⟨_, g₁, computed, answered⟩ := answered
  obtain ⟨held, random, supplied, storage, _, rfl⟩ := computeLeaf_answer computed
  rw [← answer_modify.mp answered]
  refine ⟨held, ?_, ?_, ?_, fill_slots (g := { g.allocated _ with random }) bound held⟩
  · rw [supplied]
    simp [setComputed, modifySlot, setValue]
  · rw [outline_setComputed, outline_setValue]
    rfl
  · rw [New, storage]
    simp [setComputed, modifySlot, allocated, Allocator.allocate]

theorem compute_apply_answer {s : Stamp} {op : Operator α} {inputs : List (Node α)}
    (bound : s.id < g.slots.size) (answered : compute (.apply s op inputs) g = .ok () g') :
    ∃ ts, ∃ held : Held α, g.Reads inputs ts ∧ op.attempt g.settings s ts = .ok held.array ∧
      Aside g g' ∧ g'.slot = Function.update g.slot s.id
        { g.slot s.id with value := some held, computed := true } := by
  rw [compute_apply, answer_bind] at answered
  obtain ⟨_, _, computed, answered⟩ := answered
  obtain ⟨ts, held, g₁, reads, made, quiet, _, rfl⟩ := computeApply_answer computed
  rw [← answer_modify.mp answered]
  refine ⟨ts, held, reads, made, ?_, ?_⟩
  · refine quiet.toAside.trans ⟨by simp, ?_, ?_⟩
    · simp [setComputed, modifySlot]
    · simp [setComputed, modifySlot]
  · rw [fill_slots (by rwa [size_of_outline quiet.outline]), quiet.slots]

theorem compute_apply_answers {s : Stamp} {op : Operator α} {inputs : List (Node α)}
    {ts : List (Tensor α)} {t : Tensor α} (reads : g.Reads inputs ts)
    (made : op.attempt g.settings s ts = .ok t) :
    ∃ g', compute (.apply s op inputs) g = .ok () g' := by
  obtain ⟨g₁, computed⟩ := computeApply_answers reads made
  refine ⟨g₁.setComputed true s.id, ?_⟩
  rw [compute_apply, answer_bind]
  exact ⟨(), g₁, computed, answer_modify.mpr rfl⟩

end Graph

end ReverseMode
