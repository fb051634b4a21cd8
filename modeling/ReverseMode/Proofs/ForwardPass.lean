import ReverseMode.Proofs.Compute
import ReverseMode.Proofs.Sound

/-!
Forward passes as elementary changes.

Making a value available and a whole forward pass are elementary changes, whether they end
or raise. A pass reaches a leaf only while it has no value: the inputs of a node have
smaller ids, so a node that is still to be computed has not been touched.
-/

namespace ReverseMode

namespace Graph

variable {α : Type} [Element α] {known : Node α → Prop} {g g' : Graph α}

/-- Elementary changes of slots below an id, if the graph is sound. -/
def Under (known : Node α → Prop) (k : Nat) (g g' : Graph α) : Prop :=
  Sound known g → Changes known g g' ∧ ∀ j, k ≤ j → g'.slot j = g.slot j

theorem Under.refl (k : Nat) (g : Graph α) : Under known k g g :=
  fun _ => ⟨.refl, fun _ _ => rfl⟩

theorem Under.trans {k : Nat} {g₁ g₂ g₃ : Graph α} (first : Under known k g₁ g₂)
    (second : Under known k g₂ g₃) : Under known k g₁ g₃ := by
  intro sound
  obtain ⟨changes, same⟩ := first sound
  obtain ⟨changes', same'⟩ := second (changes.sound sound)
  exact ⟨changes.trans changes', fun j above => (same' j above).trans (same j above)⟩

theorem Under.mono {k k' : Nat} (le : k ≤ k') (h : Under known k g g') : Under known k' g g' :=
  fun sound => ⟨(h sound).1, fun j above => (h sound).2 j (Nat.le_trans le above)⟩

theorem Under.of_quiet {k : Nat} (quiet : Quiet g g') : Under known k g g' :=
  fun _ => ⟨.of_quiet quiet, fun j _ => by rw [quiet.slots]⟩

theorem Under.of_update {id : Nat} {s : Slot α} (change : Change known g g')
    (slots : g'.slot = Function.update g.slot id s) : Under known (id + 1) g g' := by
  refine fun _ => ⟨.single change, fun j above => ?_⟩
  rw [slots, Function.update_of_ne]
  omega

theorem compute_under {n : Node α} (mem : known n)
    (absent : n.isLeaf = true → (g.slot n.id).value = none) :
    Under known (n.id + 1) g (after (compute n g)) := by
  intro sound
  have bound := sound.bound mem
  cases run : compute n g with
  | error f g' => exact Under.of_quiet (compute_raise run) sound
  | ok u g' =>
    cases n with
    | leaf s init =>
      obtain ⟨held, supplied, outline, new, slots⟩ := compute_leaf_answer bound run
      exact Under.of_update (.draw held mem (absent rfl) supplied outline new slots) slots sound
    | apply s op inputs =>
      obtain ⟨ts, held, reads, made, aside, slots⟩ := compute_apply_answer bound run
      exact Under.of_update (.compute held mem reads made aside slots) slots sound

theorem compute_filled {n : Node α} (bound : n.id < g.slots.size)
    (answered : compute n g = .ok () g') :
    (g'.slot n.id).value.isSome ∧ (g'.slot n.id).computed = true := by
  cases n with
  | leaf s init =>
    obtain ⟨held, _, _, _, slots⟩ := compute_leaf_answer bound answered
    simp [slots, Node.id, Node.stamp]
  | apply s op inputs =>
    obtain ⟨_, held, _, _, _, slots⟩ := compute_apply_answer bound answered
    simp [slots, Node.id, Node.stamp]

omit [Element α] in
theorem countRecomputation_quiet (n : Node α) (g : Graph α) : Quiet g (g.countRecomputation n) :=
  ⟨⟨by simp, by simp, by simp⟩, by simp⟩

theorem ensure_eq (n : Node α) : ensure n = (do
    let g ← get
    if (g.slot n.id).value.isSome then pure ()
    else
      (g.missing n).forM fun m => ensure m.val
      modify (countRecomputation n)
      compute n) := by
  rw [ensure]

/-- What is missing below a node is made available below its id. -/
theorem missing_under {n : Node α} (sound : Sound known g) (mem : known n)
    (each : ∀ m ∈ n.inputs, known m → Leads (Under known (m.id + 1)) (ensure m)) :
    Leads (Under known n.id) ((g.missing n).forM fun m => ensure m.val) := by
  refine Leads.forM (Under.refl _) Under.trans fun m _ => ?_
  obtain ⟨mem', less⟩ := sound.inputs mem m.property
  exact Leads.mono (fun _ _ => Under.mono less) (each m.val m.property mem')

theorem ensure_under {n : Node α} (mem : known n) : Leads (Under known (n.id + 1)) (ensure n) := by
  induction n using Node.rec_inputs with
  | step n ih =>
    intro g sound
    suffices h : Under known (n.id + 1) g (after (ensure n g)) from h sound
    have below := missing_under sound mem ih g
    rw [ensure_eq]
    refine Leads.bind_at Under.trans (Under.refl _ g) fun _ _ got => ?_
    obtain ⟨rfl, rfl⟩ := answer_get.mp got
    split
    · exact Under.refl _ g
    next absent =>
      refine Leads.bind_at Under.trans (Under.mono (Nat.le_succ _) below) fun _ g₁ ensured => ?_
      refine Leads.bind_at Under.trans (.of_quiet (countRecomputation_quiet n g₁))
        fun _ g₂ counted => ?_
      refine compute_under mem fun _ => ?_
      -- the slot of the node has not been touched by what was made available below it
      have same := (below sound).2 n.id (Nat.le_refl _)
      rw [ensured, after_ok] at same
      rw [← answer_modify.mp counted, slot_countRecomputation, same]
      simpa using absent

theorem ensure_changes {n : Node α} (sound : Sound known g) (mem : known n) :
    Changes known g (after (ensure n g)) :=
  (ensure_under mem g sound).1

theorem ensure_filled {n : Node α} (sound : Sound known g) (mem : known n)
    (answered : ensure n g = .ok () g') : (g'.slot n.id).value.isSome := by
  have sound' : Sound known g' := by
    simpa [answered] using (ensure_changes sound mem).sound sound
  rw [ensure_eq, answer_bind] at answered
  obtain ⟨_, _, got, answered⟩ := answered
  obtain ⟨rfl, rfl⟩ := answer_get.mp got
  split at answered
  next found =>
    rw [← (answer_pure.mp answered).2]
    exact found
  next =>
    rw [answer_bind] at answered
    obtain ⟨_, g₁, ensured, answered⟩ := answered
    rw [answer_bind] at answered
    obtain ⟨_, g₂, counted, answered⟩ := answered
    have below := (missing_under sound mem (fun m _ mem' => ensure_under mem') g sound).1
    rw [ensured, after_ok] at below
    refine (compute_filled ?_ answered).1
    rw [← answer_modify.mp counted, size_of_outline (outline_countRecomputation g₁ n)]
    exact (below.sound sound).bound mem

/-! ### Passes -/

omit [Element α] in
theorem releasable_inner {n : Node α} (h : g.releasable n = true) : n.isLeaf = false := by
  unfold releasable at h
  cases leaf : n.isLeaf with
  | false => rfl
  | true => simp [leaf] at h

theorem releaseValue_under {n : Node α} (mem : known n) (inner : n.isLeaf = false) :
    Under known (n.id + 1) g (g.releaseValue n.id) := by
  intro sound
  have slots := slot_releaseValue (sound.bound mem)
  exact Under.of_update (.drop mem inner ⟨by simp, by simp, by simp⟩ slots) slots sound

theorem passInput_under {i : Node α} (mem : known i) (p : Pending) :
    Under known (i.id + 1) g (passInput (g, p) i).1 := by
  unfold passInput
  dsimp only
  split
  next last =>
    simp only [dropsEarly, Bool.and_eq_true] at last
    exact releaseValue_under mem (releasable_inner last.2.1)
  · exact Under.refl _ g

theorem passInputs_under {k : Nat} {is : List (Node α)} (each : ∀ i ∈ is, known i ∧ i.id < k)
    (p : Pending) : Under known k g (is.foldl passInput (g, p)).1 := by
  induction is generalizing g p with
  | nil => exact Under.refl _ g
  | cons i is ih =>
    obtain ⟨mem, less⟩ := each i (by simp)
    refine Under.trans (Under.mono less (passInput_under mem p)) ?_
    exact ih (fun j mem' => each j (by simp [mem'])) _

omit [Element α] in
theorem record_quiet (g : Graph α) : Quiet g g.record :=
  ⟨⟨rfl, rfl, Nat.le_refl _⟩, rfl⟩

omit [Element α] in
theorem mem_inputs_of_distinct {m n : Node α} (mem : m ∈ n.distinctInputs) : m ∈ n.inputs :=
  Node.mem_of_mem_distinct mem

theorem afterForward_under {n : Node α} (mem : known n) (p : Pending) :
    Under known n.id g (afterForward n p g).2 := by
  intro sound
  suffices h : Under known n.id g (afterForward n p g).2 from h sound
  refine Under.trans (passInputs_under (fun i input => ?_) p) (.of_quiet (record_quiet _))
  exact sound.inputs mem (mem_inputs_of_distinct input)

/-- The computation of one node in a forward pass. -/
def forwardStep (n : Node α) (p : Pending) : GraphM α Pending := do
  n.distinctInputs.forM ensure
  compute n
  modifyGet (afterForward n p)

theorem forwardFrom_cons (n : Node α) (rest : List (Node α)) (p : Pending) :
    forwardFrom (n :: rest) p = forwardStep n p >>= forwardFrom rest := by
  simp only [forwardFrom, forwardStep, bind_assoc]

theorem inputs_under {n : Node α} (mem : known n) (sound : Sound known g) :
    Leads (Under known n.id) (n.distinctInputs.forM ensure) := by
  refine Leads.forM (Under.refl _) Under.trans fun m input => ?_
  obtain ⟨mem', less⟩ := sound.inputs mem (mem_inputs_of_distinct input)
  exact Leads.mono (fun _ _ => Under.mono less) (ensure_under mem')

theorem forwardStep_under {n : Node α} (mem : known n) (sound : Sound known g)
    (absent : n.isLeaf = true → (g.slot n.id).value = none) (p : Pending) :
    Under known (n.id + 1) g (after (forwardStep n p g)) := by
  have inputs := inputs_under mem sound g
  refine Leads.bind_at Under.trans (Under.mono (Nat.le_succ _) inputs) fun _ g₁ ready => ?_
  refine Leads.bind_at Under.trans (compute_under mem fun isLeaf => ?_) fun _ g₂ _ => ?_
  · have same := (inputs sound).2 n.id (Nat.le_refl _)
    rw [ready, after_ok] at same
    rw [same]
    exact absent isLeaf
  · exact Under.mono (Nat.le_succ _) (afterForward_under mem p)

/-- The nodes of a pass are computed in the order of their ids; the ones that are still to come
have no values. -/
theorem forwardFrom_changes {ns : List (Node α)} (mem : ∀ n ∈ ns, known n)
    (sorted : ns.Pairwise fun m n => m.id < n.id) (absent : ∀ n ∈ ns, (g.slot n.id).value = none)
    (sound : Sound known g) (p : Pending) : Changes known g (after (forwardFrom ns p g)) := by
  induction ns generalizing g p with
  | nil => exact .refl
  | cons n rest ih =>
    obtain ⟨later, sorted⟩ := List.pairwise_cons.mp sorted
    have first := forwardStep_under (mem n (by simp)) sound (fun _ => absent n (by simp)) p sound
    rw [forwardFrom_cons]
    refine Leads.bind_at Relation.ReflTransGen.trans first.1 fun p' g₁ stepped => ?_
    rw [stepped, after_ok] at first
    refine ih (fun m mem' => mem m (by simp [mem'])) sorted (fun m mem' => ?_)
      (first.1.sound sound) p'
    rw [first.2 m.id (later m mem')]
    exact absent m (by simp [mem'])

theorem forwardStep_answer {n : Node α} {p p' : Pending} :
    forwardStep n p g = .ok p' g' ↔ ∃ g₁ g₂, n.distinctInputs.forM ensure g = .ok () g₁ ∧
      compute n g₁ = .ok () g₂ ∧ afterForward n p g₂ = (p', g') := by
  simp only [forwardStep, answer_bind, answer_modifyGet]
  constructor
  · rintro ⟨_, g₁, ready, _, g₂, made, last⟩
    exact ⟨g₁, g₂, ready, made, last⟩
  · rintro ⟨g₁, g₂, ready, made, last⟩
    exact ⟨_, g₁, ready, _, g₂, made, last⟩

/-- The states between the parts of a step are reached by elementary changes, too. -/
theorem forwardStep_between {n : Node α} (mem : known n) (sound : Sound known g)
    (absent : n.isLeaf = true → (g.slot n.id).value = none) {g₁ g₂ : Graph α}
    (ready : n.distinctInputs.forM ensure g = .ok () g₁) (made : compute n g₁ = .ok () g₂) :
    Under known n.id g g₁ ∧ Under known (n.id + 1) g₁ g₂ := by
  have inputs := inputs_under mem sound g
  rw [ready, after_ok] at inputs
  have computes : Under known (n.id + 1) g₁ (after (compute n g₁)) := by
    refine compute_under mem fun isLeaf => ?_
    rw [(inputs sound).2 n.id (Nat.le_refl _)]
    exact absent isLeaf
  rw [made, after_ok] at computes
  exact ⟨inputs, computes⟩

theorem forwardStep_computed {n : Node α} (mem : known n) (sound : Sound known g)
    (absent : n.isLeaf = true → (g.slot n.id).value = none) {p p' : Pending}
    (answered : forwardStep n p g = .ok p' g') : (g'.slot n.id).computed = true := by
  obtain ⟨g₁, g₂, ready, made, last⟩ := forwardStep_answer.mp answered
  obtain ⟨first, second⟩ := forwardStep_between mem sound absent ready made
  have sound₁ := (first sound).1.sound sound
  have sound₂ := (second sound₁).1.sound sound₁
  have changes := (afterForward_under mem p sound₂).1
  rw [last] at changes
  exact changes.computed (compute_filled (sound₁.bound mem) made).2

theorem forwardFrom_computed {ns : List (Node α)} (mem : ∀ n ∈ ns, known n)
    (sorted : ns.Pairwise fun m n => m.id < n.id) (absent : ∀ n ∈ ns, (g.slot n.id).value = none)
    (sound : Sound known g) {p : Pending} (answered : forwardFrom ns p g = .ok () g') :
    ∀ n ∈ ns, (g'.slot n.id).computed = true := by
  induction ns generalizing g p with
  | nil => simp
  | cons n rest ih =>
    obtain ⟨later, sorted'⟩ := List.pairwise_cons.mp sorted
    rw [forwardFrom_cons, answer_bind] at answered
    obtain ⟨p', g₁, stepped, answered⟩ := answered
    have first := forwardStep_under (mem n (by simp)) sound (fun _ => absent n (by simp)) p sound
    rw [stepped, after_ok] at first
    have sound₁ := first.1.sound sound
    have absent₁ : ∀ m ∈ rest, (g₁.slot m.id).value = none := by
      intro m mem'
      rw [first.2 m.id (later m mem')]
      exact absent m (by simp [mem'])
    have mem₁ : ∀ m ∈ rest, known m := fun m mem' => mem m (by simp [mem'])
    intro m mem'
    rcases List.mem_cons.mp mem' with rfl | mem'
    · have done := forwardStep_computed (mem m (by simp)) sound (fun _ => absent m (by simp)) stepped
      have changes := forwardFrom_changes mem₁ sorted' absent₁ sound₁ p'
      rw [answered, after_ok] at changes
      exact changes.computed done
    · exact ih mem₁ sorted' absent₁ sound₁ answered m mem'

omit [Element α] in
theorem mem_uncomputed {n : Node α} :
    n ∈ g.uncomputed ↔ n ∈ g.tape.toList ∧ (g.slot n.id).computed = false := by
  simp [uncomputed]

omit [Element α] in
theorem uncomputed_sorted (wf : WellFormed known g) :
    g.uncomputed.Pairwise fun m n => m.id < n.id :=
  wf.sorted.filter _

omit [Element α] in
theorem uncomputed_absent (sound : Sound known g) :
    ∀ n ∈ g.uncomputed, (g.slot n.id).value = none := by
  intro n mem
  obtain ⟨on, fresh⟩ := mem_uncomputed.mp mem
  by_contra held
  have := sound.heldComputed (sound.known_of_tape on) (Option.isSome_iff_ne_none.mpr held)
  simp [fresh] at this

omit [Element α] in
theorem known_uncomputed (wf : WellFormed known g) : ∀ n ∈ g.uncomputed, known n :=
  fun _ mem => wf.known_of_tape (mem_uncomputed.mp mem).1

/-- A forward pass has ended. -/
def marked (g : Graph α) : Graph α := { g with forwarded := true }

theorem logForward_leads (ns : List (Node α)) : Leads Quiet (logForward ns : GraphM α Unit) := by
  refine Leads.bind Quiet.trans (Leads.of_get Quiet.refl) fun g => ?_
  split
  · exact writeLog_leads _ _
  · exact Leads.of_pure Quiet.refl _

theorem forward_answer :
    (forward : GraphM α Unit) g = .ok () g' ↔
      ∃ g₁, forwardFrom g.uncomputed (Pending.start g.slots.size g.uncomputed) g = .ok () g₁ ∧
        logForward g.uncomputed g₁.marked = .ok () g' := by
  simp only [forward, answer_bind, answer_get, answer_modify]
  constructor
  · rintro ⟨_, _, ⟨rfl, rfl⟩, _, g₁, passed, _, _, rfl, logged⟩
    exact ⟨g₁, passed, logged⟩
  · rintro ⟨g₁, passed, logged⟩
    exact ⟨g, g, ⟨rfl, rfl⟩, ⟨⟩, g₁, passed, ⟨⟩, _, rfl, logged⟩

/-- A forward pass that ends has computed the nodes, and then only reports. -/
theorem forward_passes (answered : (forward : GraphM α Unit) g = .ok () g') :
    ∃ g₁, forwardFrom g.uncomputed (Pending.start g.slots.size g.uncomputed) g = .ok () g₁ ∧
      Quiet g₁.marked g' := by
  obtain ⟨g₁, passed, logged⟩ := forward_answer.mp answered
  have quiet := logForward_leads g.uncomputed g₁.marked
  rw [logged, after_ok] at quiet
  exact ⟨g₁, passed, quiet⟩

/-- A forward pass that raises leaves elementary changes, or it has ended before it raises. -/
theorem forward_raise (sound : Sound known g) {f : Fault}
    (raised : (forward : GraphM α Unit) g = .error f g') :
    Changes known g g' ∨ ∃ g₁, forwardFrom g.uncomputed
      (Pending.start g.slots.size g.uncomputed) g = .ok () g₁ ∧ Quiet g₁.marked g' := by
  have passes := forwardFrom_changes (known_uncomputed sound.toWellFormed)
    (uncomputed_sorted sound.toWellFormed) (uncomputed_absent sound) sound
    (Pending.start g.slots.size g.uncomputed)
  rw [forward, raise_bind] at raised
  rcases raised with impossible | ⟨_, _, got, raised⟩
  · exact absurd impossible not_raise_get
  obtain ⟨rfl, rfl⟩ := answer_get.mp got
  rw [raise_bind] at raised
  rcases raised with raised | ⟨_, g₁, passed, raised⟩
  · rw [raised, after_error] at passes
    exact .inl passes
  rw [raise_bind] at raised
  rcases raised with impossible | ⟨_, _, ended, raised⟩
  · exact absurd impossible not_raise_modify
  refine .inr ⟨g₁, passed, ?_⟩
  cases answer_modify.mp ended
  have quiet := logForward_leads g.uncomputed g₁.marked
  change Quiet g₁.marked (after (logForward g.uncomputed _)) at quiet
  rwa [marked, raised, after_error] at quiet

/-- After a forward pass every node of the tape has been computed. -/
theorem forwardFrom_uncomputed_computed (sound : Sound known g) {p : Pending} {g₁ : Graph α}
    (passed : forwardFrom g.uncomputed p g = .ok () g₁) :
    Changes known g g₁ ∧ ∀ n ∈ g.tape.toList, (g₁.slot n.id).computed = true := by
  have wf := sound.toWellFormed
  have changes := forwardFrom_changes (known_uncomputed wf) (uncomputed_sorted wf)
    (uncomputed_absent sound) sound p
  rw [passed, after_ok] at changes
  refine ⟨changes, fun n on => ?_⟩
  by_cases done : (g.slot n.id).computed = true
  · exact changes.computed done
  · refine forwardFrom_computed (known_uncomputed wf) (uncomputed_sorted wf)
      (uncomputed_absent sound) sound passed n (mem_uncomputed.mpr ⟨on, by simpa using done⟩)

/-- Whether a forward pass ends or raises, it leaves elementary changes and perhaps the flag of the
graph. -/
theorem forward_changes (sound : Sound known g) :
    Changes known g (after ((forward : GraphM α Unit) g)) ∨
      ∃ g₁, Changes known g g₁ ∧ Quiet g₁.marked (after ((forward : GraphM α Unit) g)) := by
  cases run : (forward : GraphM α Unit) g with
  | ok _ g' =>
    obtain ⟨g₁, passed, quiet⟩ := forward_passes run
    exact .inr ⟨g₁, (forwardFrom_uncomputed_computed sound passed).1, quiet⟩
  | error f g' =>
    refine (forward_raise sound run).imp_right ?_
    rintro ⟨g₁, passed, quiet⟩
    exact ⟨g₁, (forwardFrom_uncomputed_computed sound passed).1, quiet⟩

end Graph

end ReverseMode
