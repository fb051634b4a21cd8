import ReverseMode.Proofs.Reachable
import ReverseMode.Proofs.Recall

/-!
What every call preserves.

A call on a sound graph leaves a sound one, whether it answers or raises, and a faithful one
stays faithful. Ending an episode and forgetting what was computed make any sound graph
faithful.
-/

namespace ReverseMode

variable {α : Type} [Element α]

namespace Graph

variable {known : Node α → Prop} {g g' : Graph α}

/-- What a call that builds and ends nothing preserves. -/
structure Kept (known : Node α → Prop) (g g' : Graph α) : Prop where
  sound : Sound known g'
  stored : Stored known g → Stored known g'
  faithful : Faithful known g → Faithful known g'
  tape : g'.tape = g.tape
  computed : ∀ {id}, (g.slot id).computed = true → (g'.slot id).computed = true

def Keeps (known : Node α → Prop) (g g' : Graph α) : Prop := Sound known g → Kept known g g'

theorem Keeps.trans {g₁ g₂ g₃ : Graph α} (first : Keeps known g₁ g₂) (second : Keeps known g₂ g₃) :
    Keeps known g₁ g₃ := by
  intro sound
  have kept := first sound
  have kept' := second kept.sound
  exact ⟨kept'.sound, fun stored => kept'.stored (kept.stored stored),
    fun faithful => kept'.faithful (kept.faithful faithful), kept'.tape.trans kept.tape,
    fun done => kept'.computed (kept.computed done)⟩

theorem Through.keeps (h : Through known g g') : Keeps known g g' := fun sound =>
  ⟨(h sound).sound sound, fun stored => (h sound).stored sound.toWellFormed stored,
    fun faithful => (h sound).faithful faithful, tape_of_outline (h sound).outline,
    (h sound).computed⟩

theorem Keeps.of_quiet (quiet : Quiet g g') : Keeps known g g' := (Through.of_quiet quiet).keeps

omit [Element α] in
theorem WellFormed.marked (wf : WellFormed known g) : WellFormed known g.marked :=
  ⟨wf.home, wf.bound, wf.unique, wf.inputs, wf.tape, wf.sorted, wf.index, wf.keys, wf.past,
    wf.parameter, wf.sameEpisode, wf.parameters, wf.trainable, wf.inferred⟩

omit [Element α] in
theorem Sound.marked (sound : Sound known g) : Sound known g.marked :=
  ⟨sound.toWellFormed.marked, sound.heldComputed, sound.computedInputs, sound.leafHeld,
    sound.gradShape, sound.gradTrainable⟩

theorem marked_keeps (g : Graph α) : Keeps known g g.marked :=
  fun sound => ⟨sound.marked, fun stored => ⟨stored.valueUsed, stored.gradUsed, stored.values,
    stored.apart⟩, fun faithful => ⟨sound.marked, faithful.held, faithful.repeatable⟩,
    rfl, id⟩

theorem forward_keeps : Leads (Keeps known) (forward : GraphM α Unit) := by
  intro g sound
  suffices h : Keeps known g (after (forward g)) from h sound
  rcases forward_changes sound with changes | ⟨g₁, changes, quiet⟩
  · exact Through.keeps fun _ => changes
  · exact Keeps.trans (Through.keeps fun _ => changes)
      (Keeps.trans (marked_keeps g₁) (.of_quiet quiet))

omit [Element α] in
theorem mem_of_last? {n : Node α} (last : g.tape.last? = some n) : n ∈ g.tape.toList := by
  have := Array.mem_of_back? last
  exact Array.mem_def.mp this

omit [Element α] in
/-- The roots of a pass that is accepted were handed in or are on the tape, and may be used. -/
theorem checked_started {among : Node α → Prop} (tape : ∀ n ∈ g.tape.toList, among n)
    {roots : Roots α} {seeds : Seeds}
    (handed : ∀ n ∈ roots.nodes, g.checkNode n = .ok () → among n)
    {started : List (Node α × Option Literal)}
    (accepted : g.checkBackward roots seeds = .ok started) :
    ∀ p ∈ started, among p.1 ∧ g.checkNode p.1 = .ok () := by
  obtain ⟨_, _, _, inputs, listed, checked⟩ := checkBackward_eq_ok accepted
  rintro ⟨n, literal⟩ mem
  obtain ⟨⟨root, seed⟩, inside, accepted⟩ := mapM_eq_ok_mem checked _ mem
  obtain ⟨rfl, used, _⟩ := checkRoot_eq_ok accepted
  replace inside := (List.of_mem_zip inside).1
  refine ⟨?_, used⟩
  cases roots with
  | last =>
    rw [rootList] at listed
    cases last : g.tape.last? with
    | none => simp [last] at listed
    | some m =>
      simp only [last, Except.ok.injEq] at listed
      simp only [← listed, List.mem_singleton, Input.node.injEq] at inside
      rw [inside]
      exact tape m (mem_of_last? last)
  | one root =>
    simp only [rootList, Except.ok.injEq] at listed
    simp only [← listed, List.mem_singleton] at inside
    exact handed n (by simp [Roots.nodes, ← inside, Input.nodes]) used
  | many roots =>
    simp only [rootList, Except.ok.injEq] at listed
    rw [← listed] at inside
    refine handed n ?_ used
    exact List.mem_flatMap.mpr ⟨_, inside, by simp [Input.nodes]⟩

omit [Element α] in
/-- The roots of a pass that is accepted are known and may be used. -/
theorem known_started (sound : Sound known g) {roots : Roots α} {seeds : Seeds}
    (known' : ∀ n ∈ roots.nodes, n.graph = g.serial → known n)
    {started : List (Node α × Option Literal)}
    (accepted : g.checkBackward roots seeds = .ok started) :
    ∀ p ∈ started, known p.1 ∧ g.checkNode p.1 = .ok () :=
  checked_started (fun _ => sound.known_of_tape)
    (fun n inside used => known' n inside (serial_of_checkNode used)) accepted

theorem backward_through (sound : Sound known g) {roots : Roots α} {seeds : Seeds}
    (known' : ∀ n ∈ roots.nodes, n.graph = g.serial → known n) :
    Through known g (after (backward roots seeds g)) := by
  refine Leads.bind_at Through.trans (.refl g) fun _ _ got => ?_
  obtain ⟨rfl, rfl⟩ := answer_get.mp got
  refine Leads.bind_at Through.trans (.of_quiet (lift_leads _ _)) fun started _ checked => ?_
  obtain ⟨accepted, rfl⟩ := answer_lift.mp checked
  have mem := known_started sound known' accepted
  refine Leads.bind_at Through.trans (dropGrads_through sound.toWellFormed) fun _ g₁ dropped => ?_
  refine Leads.bind_at Through.trans (.refl g₁) fun _ _ got => ?_
  obtain ⟨rfl, rfl⟩ := answer_get.mp got
  have changes := dropGrads_through sound.toWellFormed sound
  rw [show g.dropGrads = g₁ from answer_modify.mp dropped] at changes
  have onTape : ∀ n ∈ g₁.tape.toList.reverse, known n := fun n mem =>
    (changes.sound sound).known_of_tape (List.mem_reverse.mp mem)
  refine Leads.bind_at Through.trans ?_ fun _ g₂ _ => ?_
  · exact Leads.forM Through.refl Through.trans
      (fun p inside => seedRoot_through (mem p inside).1 p.2) g₁
  refine Leads.bind_at Through.trans (.refl g₂) fun _ _ got => ?_
  obtain ⟨rfl, rfl⟩ := answer_get.mp got
  refine Leads.bind_at Through.trans (backwardFrom_through onTape _) fun _ g₃ _ => ?_
  exact .of_quiet (logBackward_leads _ g₃)

theorem retain_keeps {n : Input α} (known' : ∀ m ∈ n.nodes, m.graph = g.serial → known m) :
    Through known g (after (retain n g)) := by
  refine Leads.bind_at Through.trans (.refl g) fun _ _ got => ?_
  obtain ⟨rfl, rfl⟩ := answer_get.mp got
  refine Leads.bind_at Through.trans (.of_quiet (lift_leads _ _)) fun m _ checked => ?_
  obtain ⟨accepted, rfl⟩ := answer_lift.mp checked
  obtain ⟨rfl, used⟩ := checkInput_eq_ok.mp accepted
  exact retain_through (known' m (by simp [Input.nodes]) (serial_of_checkNode used))

theorem checkpoint_keeps {n : Node α} (known' : n.graph = g.serial → known n) :
    Through known g (after (checkpoint n g)) := by
  refine Leads.bind_at Through.trans (.refl g) fun _ _ got => ?_
  obtain ⟨rfl, rfl⟩ := answer_get.mp got
  refine Leads.bind_at Through.trans (.of_quiet (lift_leads _ _)) fun _ _ checked => ?_
  obtain ⟨used, rfl⟩ := answer_lift.mp checked
  have mem := known' (serial_of_checkNode used)
  have flagged : Through known g (g.modifySlot n.id fun s => { s with checkpoint := true }) :=
    fun sound => .single (.flag true _ mem ⟨by simp, rfl, Nat.le_refl _⟩
      (slot_modifySlot (sound.bound mem) _))
  split
  · exact flagged
  · exact .refl g

theorem value_keeps {n : Input α} (known' : ∀ m ∈ n.nodes, m.graph = g.serial → known m) :
    Through known g (after (value n g)) := by
  refine Leads.bind_at Through.trans (.refl g) fun _ _ got => ?_
  obtain ⟨rfl, rfl⟩ := answer_get.mp got
  refine Leads.bind_at Through.trans (.of_quiet (lift_leads _ _)) fun m _ checked => ?_
  obtain ⟨accepted, rfl⟩ := answer_lift.mp checked
  obtain ⟨rfl, used⟩ := checkInput_eq_ok.mp accepted
  have mem := known' m (by simp [Input.nodes]) (serial_of_checkNode used)
  split
  · exact Through.refl g
  · exact ensured_through mem g

theorem gradOf_keeps (n : Input α) : Leads (Through known) (gradOf n : GraphM α _) := by
  refine Leads.bind Through.trans (Leads.of_get Through.refl) fun g => ?_
  exact Leads.bind Through.trans (Leads.mono (fun _ _ => .of_quiet) (lift_leads _))
    fun _ => Leads.of_pure Through.refl _

theorem zeroGrad_through {n : Node α} (mem : known n) : Through known g (g.zeroGrad n) := by
  intro sound
  unfold zeroGrad
  split
  · exact .refl
  next t found =>
    exact setGrad_through mem found
      ((zeros_shape n.signature).trans (sound.gradShape mem found).symm) sound

theorem zeroGrads_through (wf : WellFormed known g) : Through known g g.zeroGrads := by
  have all : ∀ ns : List (Node α), (∀ n ∈ ns, known n) → ∀ g : Graph α,
      Through known g (ns.foldl (fun g n => g.zeroGrad n) g) := by
    intro ns
    induction ns with
    | nil => exact fun _ g => .refl g
    | cons n ns ih =>
      exact fun mem g => Through.trans (zeroGrad_through (mem n (by simp)))
        (ih (fun m inside => mem m (by simp [inside])) _)
  rw [zeroGrads, ← Array.foldl_toList]
  exact all _ (fun n mem => (wf.parameters mem).1) g

/-- An array whose storage may be written to. -/
def rewritten (storage : Nat) (elements : Tensor α) (held : Held α) : Held α :=
  if held.storage = storage then
    match elements.reshape held.array.shape with
    | .ok array => { held with array }
    | .error _ => held
  else held

omit [Element α] in
theorem rewritten_other {storage : Nat} {elements : Tensor α} {held : Held α}
    (other : held.storage ≠ storage) : rewritten storage elements held = held :=
  if_neg other

omit [Element α] in
theorem rewritten_same (storage : Nat) (elements : Tensor α) (held : Held α) :
    (rewritten storage elements held).storage = held.storage ∧
      (rewritten storage elements held).array.shape = held.array.shape := by
  unfold rewritten
  split
  · split
    next array reshaped =>
      unfold Tensor.reshape at reshaped
      split at reshaped
      · cases reshaped
        exact ⟨rfl, rfl⟩
      · cases reshaped
    · exact ⟨rfl, rfl⟩
  · exact ⟨rfl, rfl⟩

omit [Element α] in
theorem slot_written (storage : Nat) (elements : Tensor α) (id : Nat) :
    (g.write storage elements).slot id =
      { g.slot id with
        value := (g.slot id).value.map (rewritten storage elements)
        grad := (g.slot id).grad.map (rewritten storage elements) } := by
  unfold slot write
  rw [Array.getD_eq_getD_getElem?, Array.getD_eq_getD_getElem?, Array.getElem?_map]
  cases g.slots[id]? with
  | none => rfl
  | some s => rfl

omit [Element α] in
/-- A written storage changes elements only. -/
theorem slot_write (storage : Nat) (elements : Tensor α) (id : Nat) :
    ∃ update : Held α → Held α,
      (∀ h, (update h).storage = h.storage ∧ (update h).array.shape = h.array.shape) ∧
      (g.write storage elements).slot id =
        { g.slot id with
          value := (g.slot id).value.map update
          grad := (g.slot id).grad.map update } :=
  ⟨_, rewritten_same storage elements, slot_written storage elements id⟩

omit [Element α] in
theorem outline_write (storage : Nat) (elements : Tensor α) (g : Graph α) :
    (g.write storage elements).outline = g.outline := by
  simp [outline, write]

omit [Element α] in
theorem Sound.write (sound : Sound known g) (storage : Nat) (elements : Tensor α) :
    Sound known (g.write storage elements) := by
  have outline := outline_write storage elements g
  have tape := tape_of_outline outline
  have slots := slot_write (g := g) storage elements
  refine { toWellFormed := sound.toWellFormed.of_outline outline, heldComputed := ?_,
           computedInputs := ?_, leafHeld := ?_, gradShape := ?_, gradTrainable := ?_ }
  · intro n mem
    obtain ⟨update, _, slot⟩ := slots n.id
    rw [slot]
    simpa using sound.heldComputed mem
  · intro n on done m input
    obtain ⟨_, _, slot⟩ := slots n.id
    obtain ⟨_, _, slot'⟩ := slots m.id
    rw [slot] at done
    rw [slot']
    exact sound.computedInputs (tape ▸ on) done input
  · intro n on leaf done
    obtain ⟨_, _, slot⟩ := slots n.id
    rw [slot] at done ⊢
    simpa using sound.leafHeld (tape ▸ on) leaf done
  · intro n mem t found
    obtain ⟨update, shape, slot⟩ := slots n.id
    rw [grad?, slot, Option.map_map] at found
    obtain ⟨h, here, rfl⟩ := Option.map_eq_some_iff.mp found
    exact (shape h).2.trans (sound.shape_of_grad mem h here)
  · intro n mem found
    obtain ⟨update, shape, slot⟩ := slots n.id
    rw [grad?, slot] at found
    exact sound.trainable_of_grad mem (by simpa using found)

omit [Element α] in
theorem Stored.write (stored : Stored known g) (storage : Nat) (elements : Tensor α) :
    Stored known (g.write storage elements) := by
  refine stored.of_slots (Nat.le_refl _) (fun n _ _ h held => ?_) fun n _ h held => ?_
  · obtain ⟨update, same, slot⟩ := slot_write (g := g) storage elements n.id
    rw [slot] at held
    obtain ⟨before, found, rfl⟩ := Option.map_eq_some_iff.mp held
    exact ⟨before, found, (same before).1.symm⟩
  · obtain ⟨update, same, slot⟩ := slot_write (g := g) storage elements n.id
    rw [slot] at held
    obtain ⟨before, found, rfl⟩ := Option.map_eq_some_iff.mp held
    exact ⟨before, found, (same before).1.symm⟩

theorem write_faithful (faithful : Faithful known g) {storage : Nat} {elements : Tensor α}
    (same : (g.write storage elements).held? = g.held?) :
    Faithful known (g.write storage elements) := by
  have outline := outline_write storage elements g
  have tape := tape_of_outline outline
  refine { toSound := faithful.toSound.write storage elements, held := ?_, repeatable := ?_ }
  · intro n on t found
    rw [den, same]
    exact faithful.held (tape ▸ on) (same ▸ found)
  · intro s op inputs on done
    obtain ⟨_, _, slot⟩ := slot_write (g := g) storage elements s.id
    rw [slot] at done
    obtain ⟨ts, t, yields, made⟩ := faithful.repeatable (tape ▸ on) done
    refine ⟨ts, t, ?_, settings_of_outline outline ▸ made⟩
    refine yields.congr fun m _ u value => ?_
    rw [den, same]
    exact value

omit [Element α] in
theorem write_unread (unread : g.Unread) (storage : Nat) (elements : Tensor α) :
    (g.write storage elements).Unread := by
  intro n on inner
  obtain ⟨_, _, slot⟩ := slot_write (g := g) storage elements n.id
  rw [slot]
  exact unread n (tape_of_outline (outline_write storage elements g) ▸ on) inner

/-- The value of a leaf forgotten. -/
def forgetLeaf (n : Option (Input α)) : GraphM α Unit :=
  match n with
  | none => pure ()
  | some input => do
    let n ← lift ((← get).checkInput input)
    if n.isLeaf then modify (forget n.id)

/-- Everything forgotten that was computed from other values. -/
def forgotten (g : Graph α) : Graph α :=
  { g.forgetAll g.tape.toList with forwarded := false }

omit [Element α] in
theorem invalidate_eq (n : Option (Input α)) : invalidate n = (do
    forgetLeaf n
    modify forgotten) := by
  cases n with
  | none => rfl
  | some input =>
    simp only [invalidate, forgetLeaf, bind_assoc]
    refine bind_congr fun _ => bind_congr fun m => ?_
    split <;> rfl

omit [Element α] in
theorem forgetLeaf_answer {n : Option (Input α)} (answered : forgetLeaf n g = .ok () g') :
    g' = g ∨ ∃ m, n = some (.node m) ∧ g.checkNode m = .ok () ∧ g' = g.forget m.id := by
  cases n with
  | none => exact .inl (answer_pure.mp answered).2.symm
  | some input =>
    rw [forgetLeaf, answer_bind] at answered
    obtain ⟨_, _, got, answered⟩ := answered
    obtain ⟨rfl, rfl⟩ := answer_get.mp got
    rw [answer_bind] at answered
    obtain ⟨m, _, checked, answered⟩ := answered
    obtain ⟨accepted, rfl⟩ := answer_lift.mp checked
    obtain ⟨rfl, used⟩ := checkInput_eq_ok.mp accepted
    split at answered
    · exact .inr ⟨m, rfl, used, (answer_modify.mp answered).symm⟩
    · exact .inl (answer_pure.mp answered).2.symm

/-- What a call of a value that answers was about. -/
theorem value_parts {n : Input α} {t : Tensor α} (answered : value n g = .ok t g') :
    ∃ m, n = .node m ∧ g.checkNode m = .ok () ∧
      (m.isLeaf = true ∨ (g.slot m.id).computed = true) ∧ ensured m g = .ok t g' := by
  rw [value, answer_bind] at answered
  obtain ⟨_, _, got, answered⟩ := answered
  obtain ⟨rfl, rfl⟩ := answer_get.mp got
  rw [answer_bind] at answered
  obtain ⟨m, _, checked, answered⟩ := answered
  obtain ⟨accepted, rfl⟩ := answer_lift.mp checked
  obtain ⟨rfl, used⟩ := checkInput_eq_ok.mp accepted
  split at answered
  · exact absurd answered not_answer_throw
  next had =>
    refine ⟨m, rfl, used, ?_, answered⟩
    simpa [Decidable.or_iff_not_imp_left] using had

/-- The value of a node that may be used is answered where it can be had. -/
theorem value_of_ensured {n : Node α} {t : Tensor α} (used : g.checkNode n = .ok ())
    (had : n.isLeaf = true ∨ (g.slot n.id).computed = true) (answered : ensured n g = .ok t g') :
    value (.node n) g = .ok t g' := by
  have accepted := checkInput_eq_ok.mpr ⟨rfl, used⟩
  have admitted : (!n.isLeaf && !(g.slot n.id).computed) = false := by
    rcases had with leaf | computed
    · simp [leaf]
    · simp [computed]
  rw [value, answer_bind]
  refine ⟨g, g, answer_get.mpr ⟨rfl, rfl⟩, ?_⟩
  rw [answer_bind]
  refine ⟨n, g, answer_lift.mpr ⟨accepted, rfl⟩, ?_⟩
  simpa [admitted] using answered

omit [Element α] in
theorem gradOf_unchanged {n : Input α} {t : Option (Tensor α)} (answered : gradOf n g = .ok t g') :
    g' = g := by
  rw [gradOf, answer_bind] at answered
  obtain ⟨_, _, got, answered⟩ := answered
  obtain ⟨rfl, rfl⟩ := answer_get.mp got
  rw [answer_bind] at answered
  obtain ⟨_, _, checked, answered⟩ := answered
  obtain ⟨_, rfl⟩ := answer_lift.mp checked
  exact (answer_pure.mp answered).2.symm

omit [Element α] in
theorem invalidate_raise {n : Option (Input α)} {f : Fault} (raised : invalidate n g = .error f g') :
    g' = g := by
  rw [invalidate_eq, raise_bind] at raised
  rcases raised with raised | ⟨_, _, _, impossible⟩
  · cases n with
    | none => exact absurd raised not_raise_pure
    | some input =>
      rw [forgetLeaf, raise_bind] at raised
      rcases raised with impossible | ⟨_, _, got, raised⟩
      · exact absurd impossible not_raise_get
      obtain ⟨rfl, rfl⟩ := answer_get.mp got
      rw [raise_bind] at raised
      rcases raised with refused | ⟨_, _, _, raised⟩
      · exact (raise_lift.mp refused).2.symm
      · split at raised
        · exact absurd raised not_raise_modify
        · exact absurd raised not_raise_pure
  · exact absurd impossible not_raise_modify

omit [Element α] in
theorem WellFormed.unmarked (wf : WellFormed known g) :
    WellFormed known { g with forwarded := false } :=
  ⟨wf.home, wf.bound, wf.unique, wf.inputs, wf.tape, wf.sorted, wf.index, wf.keys, wf.past,
    wf.parameter, wf.sameEpisode, wf.parameters, wf.trainable, wf.inferred⟩

omit [Element α] in
theorem Sound.unmarked (sound : Sound known g) : Sound known { g with forwarded := false } :=
  ⟨sound.toWellFormed.unmarked, sound.heldComputed, sound.computedInputs, sound.leafHeld,
    sound.gradShape, sound.gradTrainable⟩

omit [Element α] in
theorem Stored.unmarked (stored : Stored known g) : Stored known { g with forwarded := false } :=
  ⟨stored.valueUsed, stored.gradUsed, stored.values, stored.apart⟩

omit [Element α] in
theorem invalidate_stored (sound : Sound known g) (stored : Stored known g) {n : Option (Input α)}
    (known' : ∀ m, n = some (.node m) → m.graph = g.serial → known m)
    (answered : invalidate n g = .ok () g') : Stored known g' := by
  have bound : ∀ m ∈ g.tape.toList, m.id < g.slots.size := fun m on =>
    sound.bound (sound.known_of_tape on)
  rw [invalidate_eq, answer_bind] at answered
  obtain ⟨_, g₁, first, answered⟩ := answered
  rw [← answer_modify.mp answered, forgotten]
  rcases forgetLeaf_answer first with rfl | ⟨m, given, used, rfl⟩
  · exact (stored.forgetAll bound).unmarked
  · have mem := known' m given (serial_of_checkNode used)
    have outline := outline_forget g m.id
    refine ((stored.forget (sound.bound mem)).forgetAll ?_).unmarked
    rwa [tape_of_outline outline, size_of_outline outline]

omit [Element α] in
theorem invalidate_sound (sound : Sound known g) {n : Option (Input α)}
    (known' : ∀ m, n = some (.node m) → m.graph = g.serial → known m)
    (answered : invalidate n g = .ok () g') : Sound known g' ∧ g'.Unread := by
  rw [invalidate_eq, answer_bind] at answered
  obtain ⟨_, g₁, first, answered⟩ := answered
  rw [← answer_modify.mp answered, forgotten]
  rcases forgetLeaf_answer first with rfl | ⟨m, given, used, rfl⟩
  · obtain ⟨sound', unread⟩ := sound.forgetAll
    exact ⟨sound'.unmarked, unread⟩
  · have mem := known' m given (serial_of_checkNode used)
    obtain ⟨sound', unread⟩ := sound.forget_forgetAll mem
    rw [tape_of_outline (outline_forget g m.id)]
    exact ⟨sound'.unmarked, unread⟩

omit [Element α] in
theorem reset_unread (keepParameters : Bool) (g : Graph α) : (g.reset keepParameters).Unread := by
  intro n on
  rw [show (g.reset keepParameters).tape = {} from
    congrArg Outline.tape (outline_reset keepParameters g)] at on
  simp [Tape.toList] at on

end Graph

/-! ### Steps of a world -/

namespace World

open ReverseMode.Graph

variable {w w' : World α} {g : Graph α}

/-- What holds of every reachable world. -/
structure Invariant (w : World α) : Prop where
  sound : Sound w.known w.graph
  stored : Stored w.known w.graph
  faithful : w.fresh → Faithful w.known w.graph

theorem Invariant.of_keeps (invariant : Invariant w) (keeps : Keeps w.known w.graph g) :
    Invariant ⟨g, w.known, w.fresh⟩ :=
  have kept := keeps invariant.sound
  ⟨kept.sound, kept.stored invariant.stored,
    fun fresh => kept.faithful (invariant.faithful fresh)⟩

omit [Element α] in
theorem knownAfter_of_none {known : Node α → Prop} {a : Answer α} (none : a.node? = none) :
    knownAfter known a = known := by
  funext n
  simp [knownAfter, none]

omit [Element α] in
theorem knownAfter_of_known {known : Node α → Prop} {n : Node α} (mem : known n) :
    knownAfter known (.node n) = known := by
  funext m
  refine propext ⟨?_, .inl⟩
  rintro (mem' | same)
  · exact mem'
  · cases same
    exact mem

omit [Element α] in
theorem knownAfter_node (known : Node α → Prop) (n : Node α) :
    knownAfter known (.node n) = With known n := by
  funext m
  refine propext ⟨?_, ?_⟩
  · rintro (mem | same)
    · exact .inr mem
    · cases same
      exact .inl rfl
  · rintro (rfl | mem)
    · exact .inr rfl
    · exact .inl mem

omit [Element α] in
theorem known_of_input {n : Input α} {r : Request α} (nodes : r.nodes = n.nodes)
    (admissible : ∀ m ∈ r.nodes, m.graph = w.graph.serial → w.known m) :
    ∀ m ∈ n.nodes, m.graph = w.graph.serial → w.known m := fun m mem =>
  admissible m (nodes ▸ mem)

omit [Element α] in
theorem after_answer {β γ : Type} {x : GraphM α β} {f : β → γ} {g : Graph α} :
    after ((do return f (← x) : GraphM α γ) g) = after (x g) := by
  change after (EStateM.bind x (fun b => pure (f b)) g) = _
  unfold EStateM.bind
  cases x g with
  | ok => rfl
  | error => rfl

/-- Calls that build nothing and end nothing are elementary changes, also when they raise; a
forward pass notes besides that it has ended. -/
theorem call_through (sound : Sound w.known w.graph) {r : Request α}
    (admissible : w.Admissible r) (old : r.builds = false) (lasting : r.renews = false)
    (other : r ≠ .forward) : Through w.known w.graph (after (r.call w.graph)) := by
  cases r with
  | add | constant | parameter => cases old
  | reset | invalidate => cases lasting
  | forward => exact absurd rfl other
  | retain n =>
    rw [Request.call, after_answer]
    exact retain_keeps (known_of_input rfl admissible)
  | checkpoint n =>
    rw [Request.call, after_answer]
    exact checkpoint_keeps fun home => admissible n (by simp [Request.nodes]) home
  | backward roots seeds =>
    rw [Request.call, after_answer]
    exact backward_through sound admissible
  | value n =>
    rw [Request.call, after_answer]
    exact value_keeps (known_of_input rfl admissible)
  | gradOf n =>
    rw [Request.call, after_answer]
    exact gradOf_keeps n w.graph
  | zeroGrad n => exact zeroGrad_through admissible
  | zeroGrads => exact zeroGrads_through sound.toWellFormed

/-- A call that builds nothing and ends nothing makes elementary changes, also when it raises, and
may note that a forward pass has ended. -/
theorem call_changes (sound : Sound w.known w.graph) {r : Request α}
    (admissible : w.Admissible r) (old : r.builds = false) (lasting : r.renews = false) :
    ∃ g, Changes w.known w.graph g ∧
      (after (r.call w.graph) = g ∨ Quiet g.marked (after (r.call w.graph))) := by
  by_cases forward : r = .forward
  · subst forward
    rw [Request.call, after_answer]
    rcases forward_changes sound with changes | ⟨g, changes, quiet⟩
    · exact ⟨_, changes, .inl rfl⟩
    · exact ⟨g, changes, .inr quiet⟩
  · exact ⟨_, call_through sound admissible old lasting forward sound, .inl rfl⟩

/-- Calls that build nothing and end nothing keep what holds, also when they raise. -/
theorem call_keeps (sound : Sound w.known w.graph) {r : Request α} (admissible : w.Admissible r)
    (old : r.builds = false) (lasting : r.renews = false) :
    Keeps w.known w.graph (after (r.call w.graph)) := by
  cases r with
  | forward =>
    rw [Request.call, after_answer]
    exact forward_keeps w.graph
  | _ => exact (call_through sound admissible old lasting nofun).keeps

omit [Element α] in
theorem answer_return {β γ : Type} {x : GraphM α β} {f : β → γ} {c : γ} {g g' : Graph α} :
    (do return f (← x) : GraphM α γ) g = .ok c g' ↔ ∃ b, x g = .ok b g' ∧ f b = c := by
  simp only [answer_bind, answer_pure]
  constructor
  · rintro ⟨b, _, answered, rfl, rfl⟩
    exact ⟨b, answered, rfl⟩
  · rintro ⟨b, answered, rfl⟩
    exact ⟨b, g', answered, rfl, rfl⟩

omit [Element α] in
theorem raise_return {β γ : Type} {x : GraphM α β} {f : β → γ} {e : Fault} {g g' : Graph α} :
    (do return f (← x) : GraphM α γ) g = .error e g' ↔ x g = .error e g' := by
  simp only [raise_bind, not_raise_pure, and_false, exists_false, or_false]

omit [Element α] in
theorem retain_answer {n : Input α} {m : Node α} {g g' : Graph α} :
    Graph.retain n g = .ok m g' ↔ n = .node m ∧ g.checkNode m = .ok () ∧
      g' = g.modifySlot m.id fun s => { s with retained := true } := by
  simp only [Graph.retain, answer_bind, answer_get, answer_lift, answer_modify, answer_pure,
    checkInput_eq_ok]
  constructor
  · rintro ⟨_, _, ⟨rfl, rfl⟩, m', _, ⟨⟨rfl, used⟩, rfl⟩, _, _, rfl, rfl, rfl⟩
    exact ⟨rfl, used, rfl⟩
  · rintro ⟨rfl, used, rfl⟩
    exact ⟨g, g, ⟨rfl, rfl⟩, m, g, ⟨⟨rfl, used⟩, rfl⟩, ⟨⟩, _, rfl, rfl, rfl⟩

omit [Element α] in
theorem checkpoint_answer {n m : Node α} {g g' : Graph α} :
    Graph.checkpoint n g = .ok m g' ↔ n = m ∧ g.checkNode n = .ok () ∧
      g' = if n.isLeaf then g else g.modifySlot n.id fun s => { s with checkpoint := true } := by
  rw [Graph.checkpoint, answer_bind]
  simp only [answer_get, answer_bind, answer_lift]
  cases leaf : n.isLeaf with
  | true =>
    simp only [Bool.not_true, Bool.false_eq_true, if_false, if_true, answer_pure]
    constructor
    · rintro ⟨_, _, ⟨rfl, rfl⟩, _, _, ⟨used, rfl⟩, same, rfl⟩
      exact ⟨same, used, rfl⟩
    · rintro ⟨same, used, rfl⟩
      exact ⟨g', g', ⟨rfl, rfl⟩, (), g', ⟨used, rfl⟩, same, rfl⟩
  | false =>
    simp only [Bool.not_false, Bool.false_eq_true, if_false, if_true, answer_bind, answer_modify,
      answer_pure]
    constructor
    · rintro ⟨_, _, ⟨rfl, rfl⟩, _, _, ⟨used, rfl⟩, _, _, rfl, same, rfl⟩
      exact ⟨same, used, rfl⟩
    · rintro ⟨same, used, rfl⟩
      exact ⟨g, g, ⟨rfl, rfl⟩, (), g, ⟨used, rfl⟩, ⟨⟩, _, rfl, same, rfl⟩

/-- Calls that build nothing hand out nothing new. -/
theorem call_known {r : Request α} {a : Answer α} (admissible : w.Admissible r)
    (answered : r.call w.graph = .ok a g)
    (old : r.builds = false) : knownAfter w.known a = w.known := by
  cases r with
  | add | constant | parameter => cases old
  | retain n =>
    obtain ⟨m, ran, rfl⟩ := answer_return.mp answered
    obtain ⟨rfl, used, _⟩ := retain_answer.mp ran
    exact knownAfter_of_known
      (admissible m (by simp [Request.nodes, Input.nodes]) (serial_of_checkNode used))
  | checkpoint n =>
    obtain ⟨m, ran, rfl⟩ := answer_return.mp answered
    obtain ⟨rfl, used, _⟩ := checkpoint_answer.mp ran
    exact knownAfter_of_known (admissible n (by simp [Request.nodes]) (serial_of_checkNode used))
  | value n =>
    obtain ⟨_, _, rfl⟩ := answer_return.mp answered
    exact knownAfter_of_none rfl
  | gradOf n =>
    obtain ⟨_, _, rfl⟩ := answer_return.mp answered
    exact knownAfter_of_none rfl
  | forward =>
    obtain ⟨_, _, rfl⟩ := answer_return.mp answered
    exact knownAfter_of_none rfl
  | backward roots seeds =>
    obtain ⟨_, _, rfl⟩ := answer_return.mp answered
    exact knownAfter_of_none rfl
  | invalidate n =>
    obtain ⟨_, _, rfl⟩ := answer_return.mp answered
    exact knownAfter_of_none rfl
  | reset keepParameters =>
    cases answered
    exact knownAfter_of_none rfl
  | zeroGrad n =>
    cases answered
    exact knownAfter_of_none rfl
  | zeroGrads =>
    cases answered
    exact knownAfter_of_none rfl

/-- A new node of the current episode. -/
theorem Invariant.recorded (invariant : Invariant w) {n : Node α}
    (admits : Admits w.known w.graph n) (now : n.episode = some w.graph.episode) :
    Invariant ⟨w.graph.recorded n, knownAfter w.known (.node n), w.fresh⟩ := by
  constructor
  · rw [knownAfter_node]
    exact invariant.sound.recorded admits now
  · rw [knownAfter_node]
    exact invariant.stored.with admits (slot_widened w.graph) rfl
  · intro fresh
    rw [knownAfter_node]
    exact (invariant.faithful fresh).recorded admits now

theorem Invariant.registered (invariant : Invariant w) {n : Node α}
    (admits : Admits w.known w.graph n) (free : n.episode = none) (leaf : n.isLeaf = true) :
    Invariant ⟨w.graph.registered n, knownAfter w.known (.node n), w.fresh⟩ := by
  constructor
  · rw [knownAfter_node]
    exact invariant.sound.registered admits free leaf
  · rw [knownAfter_node]
    exact invariant.stored.with admits (slot_widened w.graph) rfl
  · intro fresh
    rw [knownAfter_node]
    exact (invariant.faithful fresh).registered admits free leaf

theorem Invariant.same (invariant : Invariant w) {n : Node α} (mem : w.known n) :
    Invariant ⟨w.graph, knownAfter w.known (.node n), w.fresh⟩ := by
  rw [knownAfter_of_known mem]
  exact invariant

theorem Invariant.widened (invariant : Invariant w) :
    Invariant ⟨w.graph.widened, w.known, w.fresh⟩ :=
  ⟨invariant.sound.widened, invariant.stored.widened,
    fun fresh => (invariant.faithful fresh).widened⟩

omit [Element α] in
/-- A parameter that is found, or made. -/
theorem parameter_answer {name : Written} {shape : Shape} {init : Except Fault (Initializer α)}
    {type : Deferred (Option ElementType)} {trainable : Written} {n : Node α} {g g' : Graph α} :
    Graph.parameter name shape init type trainable g = .ok n g' ↔
      (g.parameter? name.value = some n ∧ n.shape = shape ∧ g' = g) ∨
      g.parameter? name.value = none ∧ ∃ t made, g.parameterType type = .ok t ∧ init = .ok made ∧
        checkHeld made shape = .ok () ∧ n = g.parameterNode name shape made t trainable ∧
        g' = g.registered n := by
  cases found : g.parameter? name.value with
  | some m =>
    rw [parameter_found found]
    split
    next same =>
      simp only [EStateM.Result.ok.injEq, Option.some.injEq, reduceCtorEq, false_and, or_false]
      constructor
      · rintro ⟨rfl, rfl⟩
        exact ⟨rfl, same, rfl⟩
      · rintro ⟨rfl, _, rfl⟩
        exact ⟨rfl, rfl⟩
    next other =>
      simp only [reduceCtorEq, Option.some.injEq, false_and, or_false, false_iff]
      rintro ⟨rfl, same, _⟩
      exact other same
  | none =>
    rw [parameter_new found, newParameter_answer]
    simp

/-- What a construction call answers: a node that was there, a new one on the tape that takes nodes
of the call, or a new parameter. -/
inductive Built (w : World α) (r : Request α) : Answer α → Graph α → Prop
  | same {n : Node α} (mem : w.known n) : Built w r (.node n) w.graph
  | recorded {n : Node α} (admits : Admits w.known w.graph n)
      (now : n.episode = some w.graph.episode)
      (inputs : ∀ i ∈ n.inputs, i ∈ r.nodes ∧ i.graph = w.graph.serial) :
      Built w r (.node n) (w.graph.recorded n)
  | registered {n : Node α} (admits : Admits w.known w.graph n) (free : n.episode = none)
      (leaf : n.isLeaf = true) : Built w r (.node n) (w.graph.registered n)

theorem built_of_answer (wf : WellFormed w.known w.graph) {r : Request α}
    (admissible : w.Admissible r) {a : Answer α} (answered : r.call w.graph = .ok a g)
    (builds : r.builds = true) : Built w r a g := by
  cases r with
  | add op inputs =>
    obtain ⟨n, ran, rfl⟩ := answer_return.mp answered
    obtain ⟨nodes, s, checked, inferred, ⟨found, rfl⟩ | ⟨unfound, rfl, rfl⟩⟩ := add_answer.mp ran
    · exact .same (wf.known_of_tape (wf.mem_of_found found))
    · refine .recorded (application_admits wf (checkInputs admissible checked) inferred unfound)
        rfl fun i input => ?_
      have given : ∀ n ∈ inputs.flatMap Input.nodes, n.graph = w.graph.serial →
          n ∈ inputs.flatMap Input.nodes ∧ n.graph = w.graph.serial := fun _ => And.intro
      exact (checkInputs given checked i input).1
  | constant shape init type name =>
    obtain ⟨n, ran, rfl⟩ := answer_return.mp answered
    obtain ⟨_, t, _, rfl, rfl⟩ := constant_answer.mp ran
    exact .recorded (leaf_admits rfl rfl (.inl rfl)) rfl fun i input => by cases input
  | parameter name shape init type trainable =>
    obtain ⟨n, ran, rfl⟩ := answer_return.mp answered
    rcases parameter_answer.mp ran with ⟨found, _, rfl⟩ | ⟨_, t, made, _, _, _, rfl, rfl⟩
    · exact .same (wf.parameters (mem_of_parameter? found)).1
    · exact .registered (leaf_admits rfl rfl (.inr rfl)) rfl rfl
  | _ => cases builds

/-- What a construction call answers keeps the invariant. -/
theorem build_answer (invariant : Invariant w) {r : Request α} (admissible : w.Admissible r)
    {a : Answer α} (answered : r.call w.graph = .ok a g)
    (builds : r.builds = true) : Invariant ⟨g, knownAfter w.known a, w.fresh⟩ := by
  cases built_of_answer invariant.sound.toWellFormed admissible answered builds with
  | same mem => exact invariant.same mem
  | recorded admits now => exact invariant.recorded admits now
  | registered admits free leaf => exact invariant.registered admits free leaf

/-- A construction call that raises changes nothing, but an id may be used up. -/
theorem build_raise_cases {r : Request α} {f : Fault} (raised : r.call w.graph = .error f g)
    (builds : r.builds = true) : g = w.graph ∨ g = w.graph.widened := by
  cases r with
  | add op inputs => exact .inl (add_raise (raise_return.mp raised))
  | constant shape init type name => exact constant_raise (raise_return.mp raised)
  | parameter name shape init type trainable =>
    have raised := raise_return.mp raised
    cases found : w.graph.parameter? name.value with
    | some m =>
      rw [parameter_found found] at raised
      split at raised
      · cases raised
      · cases raised
        exact .inl rfl
    | none =>
      rw [parameter_new found] at raised
      exact newParameter_raise raised
  | _ => cases builds

theorem build_raise (invariant : Invariant w) {r : Request α} {f : Fault}
    (raised : r.call w.graph = .error f g) (builds : r.builds = true) :
    Invariant ⟨g, w.known, w.fresh⟩ := by
  rcases build_raise_cases raised builds with rfl | rfl
  · exact invariant
  · exact invariant.widened

theorem Step.invariant {renews : Bool} (step : Step renews w w') (invariant : Invariant w) :
    Invariant w' := by
  have sound := invariant.sound
  cases step with
  | @answer _ r a g admissible answered =>
    unfold next
    cases r with
    | add | constant | parameter =>
      have built := build_answer invariant admissible answered rfl
      exact ⟨built.sound, built.stored,
        fun fresh => built.faithful (fresh.resolve_right (by simp [Request.renews]))⟩
    | reset keepParameters =>
      have known := call_known admissible answered rfl
      cases answered
      rw [known]
      have sound' := sound.reset keepParameters
      exact ⟨sound', invariant.stored.reset sound.toWellFormed keepParameters,
        fun _ => sound'.faithful (reset_unread keepParameters w.graph)⟩
    | invalidate n =>
      rw [call_known admissible answered rfl]
      obtain ⟨_, ran, rfl⟩ := answer_return.mp answered
      have known' : ∀ m, n = some (.node m) → m.graph = w.graph.serial → w.known m :=
        fun m given home => admissible m (by simp [given, Request.nodes, Input.nodes]) home
      obtain ⟨sound', unread⟩ := invalidate_sound sound known' ran
      exact ⟨sound', invalidate_stored sound invariant.stored known' ran,
        fun _ => sound'.faithful unread⟩
    | retain | checkpoint | forward | backward | value | gradOf | zeroGrad | zeroGrads =>
      rw [call_known admissible answered rfl]
      have kept := invariant.of_keeps (call_keeps sound admissible rfl rfl)
      rw [answered, after_ok] at kept
      exact ⟨kept.sound, kept.stored,
        fun fresh => kept.faithful (fresh.resolve_right (by simp [Request.renews]))⟩
  | @raise _ r f g admissible raised =>
    cases r with
    | add | constant | parameter => exact build_raise invariant raised rfl
    | reset keepParameters => cases raised
    | invalidate n =>
      rw [invalidate_raise (raise_return.mp raised)]
      exact invariant
    | retain | checkpoint | forward | backward | value | gradOf | zeroGrad | zeroGrads =>
      have kept := invariant.of_keeps (call_keeps sound admissible rfl rfl)
      rwa [raised, after_error] at kept
  | write storage elements =>
    refine ⟨sound.write storage elements, invariant.stored.write storage elements, ?_⟩
    rintro (⟨fresh, same⟩ | unread)
    · exact write_faithful (invariant.faithful fresh) same
    · exact (sound.write storage elements).faithful (write_unread unread storage elements)
  | quiet quiet => exact invariant.of_keeps (.of_quiet quiet)

omit [Element α] in
theorem start_sound (serial : Nat) (settings : Settings) :
    Sound (fun _ => False) (Graph.create serial settings : Graph α) where
  home := False.elim
  bound := False.elim
  unique := False.elim
  inputs := False.elim
  tape := by
    intro n
    simp [Graph.create, Tape.toList]
  sorted := by
    simp [Graph.create, Tape.toList]
  index := by
    simp [Graph.create, Tape.toList, Index.toList]
  keys := by
    simp [Graph.create, Index.toList]
  past := False.elim
  parameter := False.elim
  sameEpisode := False.elim
  parameters := by
    intro n mem
    simp [Graph.create] at mem
  trainable := False.elim
  inferred := False.elim
  heldComputed := False.elim
  computedInputs on := by simp [Graph.create, Tape.toList] at on
  leafHeld on := by simp [Graph.create, Tape.toList] at on
  gradShape := False.elim
  gradTrainable := False.elim

theorem Reachable.invariant (reachable : Reachable w) : Invariant w := by
  induction reachable with
  | start serial settings =>
    refine ⟨start_sound serial settings, ⟨False.elim, False.elim, False.elim, False.elim⟩,
      fun _ => (start_sound serial settings).faithful ?_⟩
    intro n on
    simp [Graph.create, Tape.toList] at on
  | step _ step ih => exact step.invariant ih

/-- A lasting step keeps the tape and what has been computed. -/
theorem Step.lasting (step : Step false w w') (sound : Sound w.known w.graph) :
    (∀ n ∈ w.graph.tape.toList, n ∈ w'.graph.tape.toList) ∧
      ∀ id, (w.graph.slot id).computed = true → (w'.graph.slot id).computed = true := by
  have of_kept : ∀ {g : Graph α}, Kept w.known w.graph g →
      (∀ n ∈ w.graph.tape.toList, n ∈ g.tape.toList) ∧
        ∀ id, (w.graph.slot id).computed = true → (g.slot id).computed = true := by
    intro g kept
    exact ⟨fun n on => by rwa [kept.tape], fun id done => kept.computed done⟩
  generalize lasting : false = renews at step
  cases step with
  | @answer _ r a g admissible answered =>
    unfold next
    cases r with
    | add | constant | parameter =>
      cases built_of_answer sound.toWellFormed admissible answered rfl with
      | same => exact ⟨fun _ on => on, fun _ done => done⟩
      | recorded =>
        exact ⟨fun m on => toList_push _ _ ▸ List.mem_append_left _ on,
          fun id done => by rwa [show (recorded _ w.graph).slot = _ from slot_widened w.graph]⟩
      | registered =>
        exact ⟨fun m on => on,
          fun id done => by rwa [show (registered _ w.graph).slot = _ from slot_widened w.graph]⟩
    | reset | invalidate => cases lasting
    | retain | checkpoint | forward | backward | value | gradOf | zeroGrad | zeroGrads =>
      have kept := call_keeps sound admissible rfl rfl sound
      rw [answered, after_ok] at kept
      exact of_kept kept
  | @raise _ r f g admissible raised =>
    have unchanged : g = w.graph ∨ g = w.graph.widened →
        (∀ n ∈ w.graph.tape.toList, n ∈ g.tape.toList) ∧
        ∀ id, (w.graph.slot id).computed = true → (g.slot id).computed = true := by
      rintro (rfl | rfl)
      · exact ⟨fun _ on => on, fun _ done => done⟩
      · exact ⟨fun _ on => on, fun _ done => by rwa [slot_widened]⟩
    cases r with
    | add | constant | parameter => exact unchanged (build_raise_cases raised rfl)
    | reset keepParameters => cases raised
    | invalidate n => exact unchanged (.inl (invalidate_raise (raise_return.mp raised)))
    | retain | checkpoint | forward | backward | value | gradOf | zeroGrad | zeroGrads =>
      have kept := call_keeps sound admissible rfl rfl sound
      rw [raised, after_error] at kept
      exact of_kept kept
  | write storage elements =>
    refine ⟨fun n on => by rwa [tape_of_outline (outline_write storage elements w.graph)],
      fun id done => ?_⟩
    obtain ⟨_, _, slot⟩ := slot_write (g := w.graph) storage elements id
    rwa [slot]
  | quiet quiet => exact of_kept (Keeps.of_quiet quiet sound)

theorem Lasting.computed (lasting : Lasting w w') (sound : Invariant w) :
    Invariant w' ∧ (∀ n ∈ w.graph.tape.toList, n ∈ w'.graph.tape.toList) ∧
      ∀ id, (w.graph.slot id).computed = true → (w'.graph.slot id).computed = true := by
  induction lasting with
  | refl => exact ⟨sound, fun _ on => on, fun _ done => done⟩
  | tail _ step ih =>
    obtain ⟨invariant, on, done⟩ := ih
    obtain ⟨on', done'⟩ := step.lasting invariant.sound
    exact ⟨step.invariant invariant, fun n h => on' n (on n h), fun id h => done' id (done id h)⟩

end World

end ReverseMode
