import ReverseMode.Proofs.Balance
import ReverseMode.Proofs.Invariant
import ReverseMode.Proofs.Walk

/-!
The accounting of a graph.

Calls on a graph touch the allocator only by allocating and giving back, so its counts describe
its storages in every graph that comes about by calls, also after calls that raise. The history
notes bytes that were in use, so none of its entries lies above the peak, unless the peak has
been counted anew.

`Managed` are the worlds that come about by calls and by what a caller may do beside them. What
is said about accounting is said of these, since a step of a reachable world may put any other
allocator in place.
-/

namespace ReverseMode

variable {α : Type}

namespace Graph

variable {g g' : Graph α}

/-- No entry of the history lies above the peak. -/
def Noted (g : Graph α) : Prop := ∀ b ∈ g.history, b ≤ g.allocator.peak

/-- The counts stay right, and the history stays below the peak. -/
def Tallies (g g' : Graph α) : Prop :=
  g.allocator.Balanced → g'.allocator.Balanced ∧ (g.Noted → g'.Noted)

theorem Tallies.refl (g : Graph α) : Tallies g g := fun balanced => ⟨balanced, id⟩

theorem Tallies.trans {g₁ g₂ g₃ : Graph α} (first : Tallies g₁ g₂) (second : Tallies g₂ g₃) :
    Tallies g₁ g₃ := by
  intro balanced
  obtain ⟨balanced, noted⟩ := first balanced
  obtain ⟨balanced, noted'⟩ := second balanced
  exact ⟨balanced, fun h => noted' (noted h)⟩

/-- Where neither the allocator nor the history changes, both stay right. -/
theorem Tallies.of_same (allocator : g'.allocator = g.allocator)
    (history : g'.history = g.history) : Tallies g g' := by
  intro balanced
  rw [allocator]
  refine ⟨balanced, fun noted => ?_⟩
  rwa [Noted, allocator, history]

theorem allocated_tallies (s : Signature) (g : Graph α) : Tallies g (g.allocated s) :=
  fun balanced => ⟨balanced.allocate _,
    fun noted b mem => Nat.le_trans (noted b mem) (Nat.le_max_left _ _)⟩

theorem giveBack_tallies (storage : Nat) (g : Graph α) : Tallies g (g.giveBack storage) := by
  intro balanced
  refine ⟨balanced.release storage, fun noted b mem => ?_⟩
  have peak : (g.allocator.release storage).peak = g.allocator.peak := by
    unfold Allocator.release
    split <;> rfl
  change b ≤ (g.allocator.release storage).peak
  rw [peak]
  exact noted b mem

theorem record_tallies (g : Graph α) : Tallies g g.record := by
  intro balanced
  refine ⟨balanced, fun noted b mem => ?_⟩
  rcases Array.mem_push.mp mem with mem | rfl
  · exact noted b mem
  · exact balanced.peak

theorem releaseValue_tallies (id : Nat) (g : Graph α) : Tallies g (g.releaseValue id) := by
  unfold releaseValue
  split
  · exact .refl g
  next held _ =>
    refine Tallies.trans ?_ (.of_same rfl rfl)
    split
    · exact giveBack_tallies held.storage g
    · exact .refl g

theorem releaseGrad_tallies (id : Nat) (g : Graph α) : Tallies g (g.releaseGrad id) := by
  unfold releaseGrad
  split
  · exact .refl g
  next held _ => exact Tallies.trans (giveBack_tallies held.storage g) (.of_same rfl rfl)

theorem release_tallies (id : Nat) (g : Graph α) : Tallies g (g.release id) :=
  Tallies.trans (releaseValue_tallies id g) (releaseGrad_tallies id _)

theorem setValue_tallies (id : Nat) (held : Held α) (g : Graph α) :
    Tallies g (g.setValue id held) :=
  Tallies.trans (releaseValue_tallies id g) (.of_same rfl rfl)

theorem forget_tallies (id : Nat) (g : Graph α) : Tallies g (g.forget id) :=
  Tallies.trans (releaseValue_tallies id g) (.of_same rfl rfl)

theorem Tallies.foldl {β : Type} {f : Graph α → β → Graph α} (each : ∀ g b, Tallies g (f g b))
    (bs : List β) (g : Graph α) : Tallies g (bs.foldl f g) := by
  induction bs generalizing g with
  | nil => exact .refl g
  | cons b bs ih => exact Tallies.trans (each g b) (ih (f g b))

theorem Move.tallies {known : Node α → Prop} (move : Move known g g') : Tallies g g' := by
  cases move with
  | drop => exact releaseValue_tallies _ g
  | dropGrad => exact releaseGrad_tallies _ g
  | setGrad => exact .of_same rfl rfl
  | retain => exact .of_same rfl rfl
  | count n =>
    unfold countRecomputation
    split
    · exact .of_same rfl rfl
    · exact .refl g
  | record => exact record_tallies g
  | report => exact .of_same rfl rfl

theorem lift_tallies {β : Type} (e : Except Fault β) : Leads Tallies (lift e : GraphM α β) :=
  leads_lift .refl e

theorem allocate_tallies (s : Signature) : Leads Tallies (allocate s : GraphM α Nat) := by
  intro g
  cases run : allocate s g with
  | ok storage g' =>
    obtain ⟨_, _, rfl⟩ := answer_allocate.mp run
    exact allocated_tallies s g
  | error f g' =>
    rw [(raise_allocate.mp run).2]
    exact .refl g

theorem inputValues_tallies (inputs : List (Node α)) : Leads Tallies (inputValues inputs) :=
  Leads.bind Tallies.trans (Leads.of_get Tallies.refl) fun _ => lift_tallies _

/-! ### Passes -/

section Passes

variable [Element α]

theorem tell_tallies (op : Operator α) (values : List (Tensor α)) :
    Leads Tallies (tell op values) := by
  unfold tell
  split
  · refine Leads.bind Tallies.trans (Leads.of_get Tallies.refl) fun _ => ?_
    split
    · refine Leads.bind Tallies.trans (Leads.of_modify fun _ => .of_same rfl rfl) fun _ => ?_
      split
      · exact Leads.of_throw Tallies.refl _
      · exact Leads.of_pure Tallies.refl _
    · exact Leads.of_modify fun _ => .of_same rfl rfl
  · exact Leads.of_pure Tallies.refl _

theorem computeLeaf_tallies (s : Stamp) (init : Initializer α) :
    Leads Tallies (computeLeaf s init) := by
  refine Leads.bind Tallies.trans (allocate_tallies _) fun storage => ?_
  refine Leads.bind Tallies.trans (Leads.of_get Tallies.refl) fun _ => ?_
  dsimp only
  split
  · exact Leads.bind Tallies.trans (Leads.of_modify fun _ => .of_same rfl rfl) fun _ =>
      Leads.of_modify (setValue_tallies _ _)
  · exact Leads.bind Tallies.trans (Leads.of_modify (giveBack_tallies storage)) fun _ =>
      Leads.of_throw Tallies.refl _

theorem computeView_tallies (s : Stamp) (op : Operator α) (inputs : List (Node α)) :
    Leads Tallies (computeView s op inputs) := by
  rw [computeView_eq]
  refine Leads.bind Tallies.trans (inputValues_tallies inputs) fun values => ?_
  refine Leads.bind Tallies.trans (tell_tallies op values) fun _ => ?_
  refine Leads.bind Tallies.trans (lift_tallies _) fun _ => ?_
  refine Leads.bind Tallies.trans (Leads.of_get Tallies.refl) fun _ => ?_
  split
  · exact Leads.of_modify (setValue_tallies _ _)
  · exact Leads.of_throw Tallies.refl _

theorem computeOwned_tallies (s : Stamp) (op : Operator α) (inputs : List (Node α)) :
    Leads Tallies (computeOwned s op inputs) := by
  refine Leads.bind Tallies.trans (inputValues_tallies inputs) fun _ => ?_
  refine Leads.bind Tallies.trans (allocate_tallies _) fun _ => ?_
  exact Leads.bind Tallies.trans (lift_tallies _) fun _ => Leads.of_modify (setValue_tallies _ _)

theorem compute_tallies (n : Node α) : Leads Tallies (compute n) := by
  cases n with
  | leaf s init =>
    rw [compute_leaf]
    exact Leads.bind Tallies.trans (computeLeaf_tallies s init) fun _ =>
      Leads.of_modify fun _ => .of_same rfl rfl
  | apply s op inputs =>
    rw [compute_apply]
    refine Leads.bind Tallies.trans ?_ fun _ => Leads.of_modify fun _ => .of_same rfl rfl
    unfold computeApply
    split
    · exact computeView_tallies s op inputs
    · exact computeOwned_tallies s op inputs

theorem gradBuffer_tallies (n : Node α) : Leads Tallies (gradBuffer n) := by
  refine Leads.bind Tallies.trans (Leads.of_get Tallies.refl) fun _ => ?_
  split
  · exact Leads.of_pure Tallies.refl _
  · refine Leads.bind Tallies.trans (allocate_tallies _) fun _ => ?_
    exact Leads.bind Tallies.trans (Leads.of_modify fun _ => .of_same rfl rfl) fun _ =>
      Leads.of_pure Tallies.refl _

omit [Element α] in
theorem tallies_steps :
    Steps (fun _ : Node α => True) fun _ g x => Tallies g (after (x g)) where
  closed _ _ := trivial
  bind first second := Leads.bind_at Tallies.trans first second
  moves := by
    intro β g g' x b moves ran
    rw [ran, after_ok]
    clear ran
    induction moves with
    | refl => exact .refl g
    | tail _ move ih => exact ih.trans move.tallies

/-- Forward passes keep the accounting right, over whatever nodes and whether they end or
raise. -/
theorem tallies_climb :
    Climb (fun _ : Node α => True) fun _ g x => Tallies g (after (x g)) where
  toSteps := tallies_steps
  compute g _ := compute_tallies _ g

theorem tallies_walk :
    Walk (fun _ : Node α => True) fun _ g x => Tallies g (after (x g)) where
  toSteps := tallies_steps
  refuse := by
    intro β g x f raised
    rw [raised, after_error]
    exact .refl g
  ensure g _ := tallies_climb.ensure trivial g
  buffer g _ _ := gradBuffer_tallies _ g

end Passes

/-! ### Calls -/

theorem reset_tallies (keepParameters : Bool) (g : Graph α) :
    Tallies g (g.reset keepParameters) := by
  have dropped : ∀ (ns : List (Node α)) (g : Graph α), Tallies g (g.releaseAll ns) :=
    Tallies.foldl fun g n => release_tallies n.id g
  have cleared : Tallies g g.cleared := Tallies.trans (dropped g.tape.toList g) (.of_same rfl rfl)
  cases keepParameters with
  | true =>
    rw [reset_keep]
    exact cleared.trans (.of_same rfl rfl)
  | false =>
    rw [reset_drop]
    exact cleared.trans ((dropped _ g.cleared).trans (.of_same rfl rfl))

theorem invalidate_tallies (n : Option (Input α)) :
    Leads Tallies (invalidate n : GraphM α Unit) := by
  rw [invalidate_eq]
  refine Leads.bind Tallies.trans ?_ fun _ => Leads.of_modify fun g => ?_
  · unfold forgetLeaf
    split
    · exact Leads.of_pure Tallies.refl _
    · refine Leads.bind Tallies.trans (Leads.of_get Tallies.refl) fun _ => ?_
      refine Leads.bind Tallies.trans (lift_tallies _) fun n => ?_
      split
      · exact Leads.of_modify (forget_tallies n.id)
      · exact Leads.of_pure Tallies.refl _
  · refine Tallies.trans (Tallies.foldl (fun g n => ?_) g.tape.toList g) (.of_same rfl rfl)
    unfold forgetInner
    split
    · exact .refl g
    · exact forget_tallies n.id g

theorem add_tallies (op : Operator α) (inputs : List (Input α)) :
    Leads Tallies (add op inputs) := by
  intro g
  cases run : add op inputs g with
  | ok n g' =>
    obtain ⟨_, _, _, _, ⟨_, rfl⟩ | ⟨_, _, rfl⟩⟩ := add_answer.mp run
    · exact .refl _
    · exact .of_same rfl rfl
  | error f g' =>
    rw [add_raise run]
    exact .refl g

theorem constant_tallies (shape : Shape) (init : Initializer α)
    (type : Deferred (Option ElementType)) (name : Option Written) :
    Leads Tallies (constant shape init type name) := by
  refine Leads.bind Tallies.trans (lift_tallies _) fun _ => ?_
  refine Leads.bind Tallies.trans (Leads.of_modifyGet fun _ => .of_same rfl rfl) fun _ => ?_
  refine Leads.bind Tallies.trans (Leads.of_get Tallies.refl) fun _ => ?_
  refine Leads.bind Tallies.trans (lift_tallies _) fun _ => ?_
  exact Leads.bind Tallies.trans (Leads.of_modify fun _ => .of_same rfl rfl) fun _ =>
    Leads.of_pure Tallies.refl _

theorem parameter_tallies (name : Written) (shape : Shape) (init : Except Fault (Initializer α))
    (type : Deferred (Option ElementType)) (trainable : Written) :
    Leads Tallies (parameter name shape init type trainable) := by
  refine Leads.bind Tallies.trans (Leads.of_get Tallies.refl) fun _ => ?_
  split
  · split
    · exact Leads.of_pure Tallies.refl _
    · exact Leads.of_throw Tallies.refl _
  · refine Leads.bind Tallies.trans (lift_tallies _) fun _ => ?_
    refine Leads.bind Tallies.trans (lift_tallies _) fun _ => ?_
    refine Leads.bind Tallies.trans (Leads.of_modifyGet fun _ => .of_same rfl rfl) fun _ => ?_
    refine Leads.bind Tallies.trans (lift_tallies _) fun _ => ?_
    refine Leads.bind Tallies.trans (lift_tallies _) fun _ => ?_
    exact Leads.bind Tallies.trans (Leads.of_modify fun _ => .of_same rfl rfl) fun _ =>
      Leads.of_pure Tallies.refl _

theorem retain_tallies (n : Input α) : Leads Tallies (retain n) := by
  refine Leads.bind Tallies.trans (Leads.of_get Tallies.refl) fun _ => ?_
  refine Leads.bind Tallies.trans (lift_tallies _) fun _ => ?_
  exact Leads.bind Tallies.trans (Leads.of_modify fun _ => .of_same rfl rfl) fun _ =>
    Leads.of_pure Tallies.refl _

theorem checkpoint_tallies (n : Node α) : Leads Tallies (checkpoint n) := by
  refine Leads.bind Tallies.trans (Leads.of_get Tallies.refl) fun _ => ?_
  refine Leads.bind Tallies.trans (lift_tallies _) fun _ => ?_
  split
  · exact Leads.bind Tallies.trans (Leads.of_modify fun _ => .of_same rfl rfl) fun _ =>
      Leads.of_pure Tallies.refl _
  · exact Leads.of_pure Tallies.refl _

theorem value_tallies [Element α] (n : Input α) : Leads Tallies (value n) := by
  refine Leads.bind Tallies.trans (Leads.of_get Tallies.refl) fun _ => ?_
  refine Leads.bind Tallies.trans (lift_tallies _) fun _ => ?_
  split
  · exact Leads.of_throw Tallies.refl _
  · exact tallies_walk.ensured trivial

theorem gradOf_tallies (n : Input α) : Leads Tallies (gradOf n) := by
  refine Leads.bind Tallies.trans (Leads.of_get Tallies.refl) fun _ => ?_
  exact Leads.bind Tallies.trans (lift_tallies _) fun _ => Leads.of_pure Tallies.refl _

theorem zeroGrad_tallies [Element α] (g : Graph α) (n : Node α) : Tallies g (g.zeroGrad n) := by
  unfold zeroGrad
  split
  · exact .refl g
  · exact .of_same rfl rfl

end Graph

namespace World

open ReverseMode.Graph

variable [Element α]

/-- Every call keeps the accounting right, whether it answers or raises. -/
theorem call_tallies (r : Request α) (g : Graph α) : Tallies g (after (r.call g)) := by
  cases r with
  | add op inputs =>
    rw [Request.call, after_answer]
    exact add_tallies op inputs g
  | constant shape init type name =>
    rw [Request.call, after_answer]
    exact constant_tallies shape init type name g
  | parameter name shape init type trainable =>
    rw [Request.call, after_answer]
    exact parameter_tallies name shape init type trainable g
  | retain n =>
    rw [Request.call, after_answer]
    exact retain_tallies n g
  | checkpoint n =>
    rw [Request.call, after_answer]
    exact checkpoint_tallies n g
  | forward =>
    rw [Request.call, after_answer]
    exact tallies_walk.forward (tallies_climb.uncomputed fun _ _ => trivial)
      fun _ => .of_same rfl rfl
  | backward roots seeds =>
    rw [Request.call, after_answer]
    exact tallies_walk.backward (fun _ _ => trivial) fun _ _ _ _ => trivial
  | value n =>
    rw [Request.call, after_answer]
    exact value_tallies n g
  | gradOf n =>
    rw [Request.call, after_answer]
    exact gradOf_tallies n g
  | reset keepParameters => exact reset_tallies keepParameters g
  | invalidate n =>
    rw [Request.call, after_answer]
    exact invalidate_tallies n g
  | zeroGrad n => exact zeroGrad_tallies g n
  | zeroGrads =>
    change Tallies g (g.parameters.foldl (fun g p => g.zeroGrad p) g)
    rw [← Array.foldl_toList]
    exact Tallies.foldl zeroGrad_tallies _ g

/-- Worlds that come about from a graph without nodes by calls, by writes to storages, as an
optimizer does them, and by taking the reports or counting the peak anew. The flags say whether
a call has raised, and whether the peak has been counted anew. -/
inductive Managed : (raised anew : Bool) → World α → Prop
  | start (serial : Nat) (settings : Settings) : Managed false false (start serial settings)
  | answer {raised anew : Bool} {w : World α} {r : Request α} {a : Answer α} {g : Graph α}
      (managed : Managed raised anew w) (admissible : w.Admissible r)
      (answered : r.call w.graph = .ok a g) : Managed raised anew (w.next r a g)
  | raise {raised anew : Bool} {w : World α} {r : Request α} {f : Fault} {g : Graph α}
      (managed : Managed raised anew w) (admissible : w.Admissible r)
      (fault : r.call w.graph = .error f g) : Managed true anew ⟨g, w.known, w.fresh⟩
  | write {raised anew : Bool} {w : World α} (managed : Managed raised anew w) (storage : Nat)
      (elements : Tensor α) :
      Managed raised anew ⟨w.graph.write storage elements, w.known,
        w.fresh ∧ (w.graph.write storage elements).held? = w.graph.held? ∨ w.graph.Unread⟩
  | take {raised anew : Bool} {w : World α} (managed : Managed raised anew w) :
      Managed raised anew ⟨{ w.graph with reports := #[] }, w.known, w.fresh⟩
  | recount {raised anew : Bool} {w : World α} (managed : Managed raised anew w) :
      Managed raised true
        ⟨{ w.graph with allocator := w.graph.allocator.resetPeak }, w.known, w.fresh⟩

variable {raised anew : Bool} {w : World α}

theorem Managed.reachable (managed : Managed raised anew w) : Reachable w := by
  induction managed with
  | start serial settings => exact .start serial settings
  | answer _ admissible answered ih => exact .step ih (.answer admissible answered)
  | raise _ admissible fault ih => exact .step ih (.raise admissible fault)
  | write _ storage elements ih => exact .step ih (.write storage elements)
  | take _ ih => exact .step ih (.quiet ⟨⟨rfl, rfl, Nat.le_refl _⟩, rfl⟩)
  | recount _ ih => exact .step ih (.quiet ⟨⟨rfl, rfl, Nat.le_refl _⟩, rfl⟩)

/-- The counts of a managed graph describe its storages, and its history stays below the peak. -/
theorem Managed.tally (managed : Managed raised anew w) :
    w.graph.allocator.Balanced ∧ (anew = false → w.graph.Noted) := by
  induction managed with
  | start serial settings => exact ⟨.start, fun _ b mem => by simp [World.start, create] at mem⟩
  | @answer _ _ w r a g _ _ answered ih =>
    have tallies := call_tallies r w.graph
    rw [answered, after_ok] at tallies
    exact ⟨(tallies ih.1).1, fun kept => (tallies ih.1).2 (ih.2 kept)⟩
  | @raise _ _ w r f g _ _ fault ih =>
    have tallies := call_tallies r w.graph
    rw [fault, after_error] at tallies
    exact ⟨(tallies ih.1).1, fun kept => (tallies ih.1).2 (ih.2 kept)⟩
  | write _ storage elements ih => exact ih
  | take _ ih => exact ih
  | recount _ ih => exact ⟨ih.1.resetPeak, fun new => Bool.noConfusion new⟩

end World

end ReverseMode
