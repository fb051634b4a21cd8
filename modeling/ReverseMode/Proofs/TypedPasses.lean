import ReverseMode.Proofs.Assurance
import ReverseMode.Proofs.Invariant
import ReverseMode.Proofs.TypedState

/-!
Calls keep graphs typed.

A pass is taken apart as it is written, and each part is shown to assure that the graph stays
well-typed. A backward step reads the values and the gradient that its contributions are made from;
that they conform to their nodes makes the contributions fit.
-/

namespace ReverseMode

open scoped Element Scalar

/-! ### Seeds -/

/-- Numbers only, none of which is refused, or something else than numbers. -/
def Entry.Plain : Entry → Prop
  | .number s => s.refusal? = none
  | _ => True

theorem Entry.type?_storeWhole {t : StorageType} {n : Int} {s : Scalar}
    (stored : storeWhole t n = .ok s) : s.type? = some t := by
  unfold storeWhole at stored
  split at stored
  · split at stored
    · cases stored
      rfl
    · cases stored
  · cases stored
    rfl
  · split at stored
    · cases stored
      exact Scalar.type?_store rfl
    · cases stored

theorem Entry.type?_storeText {t : StorageType} {text : String} {s : Scalar}
    (stored : storeText t text = .ok s) : s.type? = some t := by
  unfold storeText at stored
  split at stored
  · split at stored
    · exact type?_storeWhole stored
    · cases stored
  · split at stored
    · exact type?_storeWhole stored
    · cases stored
  · split at stored
    · cases stored
      exact Scalar.type?_store rfl
    · cases stored

/-- A plain entry is stored in the type that it is to be stored in. -/
theorem Entry.type?_storeIn {e : Entry} (plain : e.Plain) {t : StorageType} {s : Scalar}
    (stored : e.storeIn t = .ok s) : s.type? = some t := by
  unfold storeIn at stored
  split at stored
  · exact type?_storeWhole stored
  · unfold storeReal at stored
    split at stored
    · obtain ⟨_, _, stored⟩ := bind_eq_ok.mp stored
      exact type?_storeWhole stored
    · cases stored
      exact Scalar.type?_store rfl
  · cases stored
    exact Scalar.type?_store plain
  · exact type?_storeText stored
  · split at stored
    · cases stored
    · cases stored
      rfl
    · cases stored
      exact Scalar.type?_store rfl
  · cases stored

/-- All entries are plain. -/
def Literal.Plain (l : Literal) : Prop := ∀ e ∈ l.entries.toList, e.Plain

/-- All seeds that can be had are plain, in the form that the roots ask for. -/
def Seeds.Plain (seeds : Seeds) (many : Bool) : Prop :=
  ∀ seed, some seed ∈ seeds.listed many → ∀ l, seed = .ok l → l.Plain

theorem Seeds.ones_plain (many : Bool) : Seeds.ones.Plain many :=
  fun _ listed => nomatch listed

theorem Literal.store_typed {l : Literal} {t : ElementType} {stored : Tensor Scalar}
    (plain : l.Plain) (made : l.store t = .ok stored) : stored.Typed t.storage := by
  obtain ⟨ss, mapped, made⟩ := bind_eq_ok.mp made
  split at made
  next values shaped =>
    cases pure_eq_ok.mp made
    intro x mem
    unfold Tensor.ofArray? at shaped
    split at shaped
    · cases shaped
      obtain ⟨e, inside, kept⟩ := Graph.mapM_eq_ok_mem mapped x mem
      exact Entry.type?_storeIn (plain e inside) kept
    · cases shaped
  · cases made

namespace Graph

variable {known : Node Scalar → Prop} {g g' : Graph Scalar} {β γ : Type}

/-- The elements of a seed are stored in one type, or are ones. -/
theorem seedElements_homogeneous {s : Signature} {seed : Option Literal} {elements : Tensor Scalar}
    (plain : ∀ l ∈ seed, l.Plain) (made : seedElements s seed = .ok elements) :
    elements.Homogeneous := by
  cases seed with
  | none =>
    cases made
    intro x mem y mem'
    rw [Tensor.mem_toList_full mem, Tensor.mem_toList_full mem']
    exact .refl _
  | some l =>
    obtain ⟨stored, kept, made⟩ := bind_eq_ok.mp made
    cases pure_eq_ok.mp made
    have typed := Literal.store_typed (plain l rfl) kept
    exact (typed.map (f := Element.literal) fun same => same).homogeneous

/-! ### Well-typed graphs -/

/-- A graph of a serial number that is well-formed and typed. -/
structure WellTyped (known : Node Scalar → Prop) (serial : Nat) (g : Graph Scalar) : Prop where
  wf : WellFormed known g
  typed : Typed known g
  serial : g.serial = serial

variable {serial : Nat}

theorem WellTyped.types (ready : WellTyped known serial g) (types : Types known g g') :
    WellTyped known serial g' := by
  obtain ⟨outline, typed⟩ := types ready.wf ready.typed
  exact ⟨ready.wf.of_outline outline, typed, (serial_of_outline outline).trans ready.serial⟩

/-- A call of which it does not matter what it answers. -/
theorem assures_of_types {x : GraphM Scalar β} (types : Leads (Types known) x) :
    Assures (WellTyped known serial) (fun _ => True) x :=
  fun g ready => ⟨ready.types (types g), fun _ _ _ => trivial⟩

theorem assures_of_quiet {x : GraphM Scalar β} (quiet : Leads Quiet x) :
    Assures (WellTyped known serial) (fun _ => True) x :=
  assures_of_types (Leads.mono (fun _ _ => Types.of_quiet) quiet)

theorem assures_lift {P : β → Prop} {e : Except Fault β} (holds : ∀ b, e = .ok b → P b) :
    Assures (WellTyped known serial) P (lift e : GraphM Scalar β) := by
  cases e with
  | ok b => exact .of_pure (holds b rfl)
  | error f => exact .of_throw f

/-! ### Values -/

section Passes

variable (lawful : ∀ n, known n → n.Lawful)

include lawful

theorem ensure_assures {n : Node Scalar} (mem : known n) :
    Assures (WellTyped known serial) (fun _ => True) (ensure n) := by
  induction n using Node.rec_inputs with
  | step n ih =>
    rw [ensure_eq]
    refine .bind .of_get fun g ready => ?_
    split
    · exact .of_pure trivial
    · refine .bind (.forM fun m _ => ?_) fun _ _ => ?_
      · exact ih m.val m.property (ready.wf.known_inputs mem m.property)
      refine .bind (assures_of_quiet (Leads.of_modify (countRecomputation_quiet n))) fun _ _ => ?_
      exact assures_of_types (compute_types lawful mem)

/-- The value of a node conforms to it. -/
theorem ensured_assures {n : Node Scalar} (mem : known n) :
    Assures (WellTyped known serial) (fun t => t.Conforms n.signature) (ensured n) := by
  refine .bind (ensure_assures lawful mem) fun _ _ => .bind .of_get fun g ready => ?_
  split
  next t found =>
    obtain ⟨held, value, rfl⟩ := Option.map_eq_some_iff.mp found
    exact .of_pure (ready.typed.value mem value)
  · exact .of_throw _

/-! ### Forward passes -/

omit lawful in
theorem passInputs_types {is : List (Node Scalar)} (mem : ∀ i ∈ is, known i) (p : Pending) :
    Types known g (is.foldl passInput (g, p)).1 := by
  induction is generalizing g p with
  | nil => exact .refl g
  | cons i is ih =>
    refine Types.trans ?_ (ih (fun j mem' => mem j (by simp [mem'])) _)
    split
    · exact releaseValue_types (mem i (by simp))
    · exact .refl g

theorem forwardStep_assures {n : Node Scalar} (mem : known n)
    (below : ∀ i ∈ n.distinctInputs, known i) (p : Pending) :
    Assures (WellTyped known serial) (fun _ => True) (forwardStep n p) := by
  refine .bind (.forM fun i input => ensure_assures lawful (below i input)) fun _ _ => ?_
  refine .bind (assures_of_types (compute_types lawful mem)) fun _ _ => ?_
  refine assures_of_types (Leads.of_modifyGet fun g => ?_)
  exact Types.trans (passInputs_types below p) (.of_quiet (record_quiet _))

theorem forwardFrom_assures {ns : List (Node Scalar)}
    (mem : ∀ n ∈ ns, known n ∧ ∀ i ∈ n.distinctInputs, known i) (p : Pending) :
    Assures (WellTyped known serial) (fun _ => True) (forwardFrom ns p) := by
  induction ns generalizing p with
  | nil => exact .of_pure trivial
  | cons n rest ih =>
    rw [forwardFrom_cons]
    obtain ⟨here, below⟩ := mem n (by simp)
    exact .bind (forwardStep_assures lawful here below p) fun p' _ =>
      ih (fun m mem' => mem m (by simp [mem'])) p'

theorem forward_assures :
    Assures (WellTyped known serial) (fun _ => True) (forward : GraphM Scalar Unit) := by
  have marks : Assures (WellTyped known serial) (fun _ => True)
      (modify marked : GraphM Scalar PUnit) := .of_modify fun g ready =>
    ⟨ready.wf.marked, ready.typed.of_slots (Nat.le_refl _) rfl, ready.serial⟩
  refine .bind .of_get fun g ready => ?_
  have below : ∀ n ∈ g.uncomputed, known n ∧ ∀ i ∈ n.distinctInputs, known i := by
    intro n pending
    have mem := known_uncomputed ready.wf n pending
    exact ⟨mem, fun i input => ready.wf.known_inputs mem (mem_inputs_of_distinct input)⟩
  refine .bind (forwardFrom_assures lawful below _) fun _ _ => ?_
  exact .bind marks fun _ _ => assures_of_quiet (logForward_leads _)

/-! ### Backward passes -/

omit lawful

theorem buffer_assures {n : Node Scalar} (mem : known n) :
    Assures (WellTyped known serial) (fun t => t.Conforms n.signature) (gradBuffer n) :=
  fun g ready => ⟨ready.types (gradBuffer_types mem g),
    fun _ _ => gradBuffer_conforms mem ready.wf ready.typed⟩

theorem addToGrad_assures {n : Node Scalar} (mem : known n) {c : Contribution Scalar}
    (fits : c.Fits n.signature) :
    Assures (WellTyped known serial) (fun _ => True) (addToGrad n c) := by
  refine .bind (buffer_assures mem) fun grad conforms => ?_
  refine .bind (assures_lift fun t added => fits.addTo conforms added) fun t conforms => ?_
  exact assures_of_types (Leads.of_modify fun _ => setGrad_types mem conforms)

theorem addToSlot_assures {inputs : List (Node Scalar)} (mem : ∀ i ∈ inputs, known i) {slot : Nat}
    {c : Contribution Scalar}
    (fits : ∀ s, (inputs.map Node.signature)[slot]? = some s → c.Fits s) :
    Assures (WellTyped known serial) (fun _ => True) (addToSlot inputs slot c) := by
  unfold addToSlot
  split
  next i found =>
    split
    · exact addToGrad_assures (mem i (List.mem_of_getElem? found)) (fits _ (by simp [found]))
    · exact .of_pure trivial
  · exact .of_pure trivial

/-- Contributions that fit the inputs keep their gradients. -/
theorem addContributions_assures {inputs : List (Node Scalar)} (mem : ∀ i ∈ inputs, known i)
    {cs : Contributions Scalar} (fit : Contributions.Fit (inputs.map Node.signature) cs) :
    Assures (WellTyped known serial) (fun _ => True) (addContributions inputs cs) := by
  induction cs with
  | nil => exact .of_pure trivial
  | cons entry rest ih =>
    obtain ⟨slot, made⟩ := entry
    obtain ⟨here, later⟩ := List.forall_mem_cons.mp fit
    rw [addContributions_cons]
    refine .bind (P := fun c => made = .ok c) (assures_lift fun _ same => same) fun c same => ?_
    exact .bind (addToSlot_assures mem (here c same)) fun _ _ => ih later

theorem openGrads_assures {inputs : List (Node Scalar)} (mem : ∀ i ∈ inputs, known i) :
    Assures (WellTyped known serial) (fun _ => True) (openGrads inputs) := by
  refine .forM fun i input => ?_
  split
  · exact .of_discard (assures_of_types (gradBuffer_types (mem i input)))
  · exact .of_pure trivial

include lawful

/-- The contributions of an application are made from what conforms to it and to its inputs. -/
theorem contribute_assures {s : Stamp} {op : Operator Scalar} {inputs : List (Node Scalar)}
    (mem : known (.apply s op inputs)) (below : ∀ i ∈ inputs, known i) {out : Tensor Scalar}
    (value : out.Conforms ⟨s.shape, s.type⟩) {values : List (Tensor Scalar)}
    (conform : List.Forall₂ (fun t i => t.Conforms i.signature) values inputs) :
    Assures (WellTyped known serial) (fun _ => True)
      (contribute (.apply s op inputs) op inputs out values) := by
  refine .bind .of_get fun g ready => ?_
  split
  · exact .of_pure trivial
  next grad found =>
    obtain ⟨held, opened, rfl⟩ := Option.map_eq_some_iff.mp found
    dsimp only
    split
    · refine .bind (assures_of_quiet (tellBackward_leads op _)) fun _ _ => ?_
      refine addContributions_assures below ?_
      exact Operator.contributions_fit (lawful _ mem) (List.forall₂_map_right_iff.mpr conform)
        (ready.wf.inferred mem) value (ready.typed.grad mem opened) _
    · exact .of_pure trivial

theorem visit_assures {n : Node Scalar} (mem : known n) (below : ∀ i ∈ n.inputs, known i) :
    Assures (WellTyped known serial) (fun _ => True) (visit n) := by
  cases n with
  | leaf s init => exact .of_pure trivial
  | apply s op inputs =>
    refine .bind .of_get fun g _ => ?_
    split
    · rw [backwardStep_eq]
      refine .bind (ensured_assures lawful mem) fun out value => ?_
      refine .bind (.mapM fun i input => ensured_assures lawful (below i input))
        fun values conform => ?_
      refine .bind (openGrads_assures below) fun _ _ => ?_
      exact contribute_assures lawful mem below value conform
    · exact .of_pure trivial

omit lawful in
theorem leaveInputs_types {is : List (Node Scalar)} (mem : ∀ i ∈ is, known i) (p : Pending) :
    Types known g (is.foldl leaveInput (g, p)).1 := by
  induction is generalizing g p with
  | nil => exact .refl g
  | cons i is ih =>
    refine Types.trans ?_ (ih (fun j mem' => mem j (by simp [mem'])) _)
    split
    · exact releaseValue_types (mem i (by simp))
    · exact .refl g

omit lawful in
theorem afterBackward_types {n : Node Scalar} (mem : known n) (below : ∀ i ∈ n.inputs, known i)
    (p : Pending) : Types known g (afterBackward n p g).2 := by
  rw [afterBackward_eq]
  split
  · refine Types.trans
      (leaveInputs_types (fun i input => below i (mem_inputs_of_distinct input)) p) ?_
    refine Types.trans ?_ (.of_quiet (record_quiet _))
    unfold leave
    split
    · exact Types.trans (releaseValue_types mem) (releaseGrad_types mem)
    · exact .refl _
  · exact .of_quiet (record_quiet g)

theorem backwardFrom_assures {ns : List (Node Scalar)}
    (mem : ∀ n ∈ ns, known n ∧ ∀ i ∈ n.inputs, known i) (p : Pending) :
    Assures (WellTyped known serial) (fun _ => True) (backwardFrom ns p) := by
  induction ns generalizing p with
  | nil => exact .of_pure trivial
  | cons n rest ih =>
    obtain ⟨here, below⟩ := mem n (by simp)
    rw [backwardFrom]
    refine .bind (visit_assures lawful here below) fun _ _ => ?_
    refine .bind (assures_of_types (Leads.of_modifyGet fun g => afterBackward_types here below p))
      fun p' _ => ?_
    exact ih (fun m mem' => mem m (by simp [mem'])) p'

omit lawful in
theorem seedGrad_assures {n : Node Scalar} (mem : known n) {seed : Option Literal}
    (plain : ∀ l ∈ seed, l.Plain) :
    Assures (WellTyped known serial) (fun _ => True) (seedGrad n seed) := by
  refine .bind (buffer_assures mem) fun grad conforms => ?_
  refine .bind (assures_lift fun e made => seedElements_homogeneous plain made)
    fun e homogeneous => ?_
  have fits : (Contribution.inPlace e).Fits n.signature := homogeneous
  refine .bind (assures_lift fun t added => fits.addTo conforms added) fun t conforms => ?_
  exact assures_of_types (Leads.of_modify fun _ => setGrad_types mem conforms)

theorem seedRoot_assures {n : Node Scalar} (mem : known n) {seed : Option Literal}
    (plain : ∀ l ∈ seed, l.Plain) :
    Assures (WellTyped known serial) (fun _ => True) (seedRoot (n, seed)) := by
  rw [seedRoot_eq]
  refine .bind (assures_of_types (Leads.of_modify fun g => flag_types mem rfl rfl)) fun _ _ => ?_
  refine .bind (ensure_assures lawful mem) fun _ _ => ?_
  split
  · exact seedGrad_assures mem plain
  · exact .of_pure trivial

omit lawful in
theorem dropGrads_types (tape : ∀ n ∈ g.tape.toList, known n) : Types known g g.dropGrads := by
  have all : ∀ ns : List (Node Scalar), (∀ n ∈ ns, known n) → ∀ g : Graph Scalar,
      Types known g (ns.foldl (fun g n => if n.isLeaf then g else g.releaseGrad n.id) g) := by
    intro ns
    induction ns with
    | nil => exact fun _ g => .refl g
    | cons n ns ih =>
      intro mem g
      refine Types.trans (?_ : Types known g (if n.isLeaf then g else g.releaseGrad n.id))
        (ih (fun m mem' => mem m (by simp [mem'])) _)
      split
      · exact .refl g
      · exact releaseGrad_types (mem n (by simp))
  exact all _ tape g

omit lawful

theorem mem_of_mem_seedList {listed : List (Option Seed)} {count : Nat} {seed : Seed}
    (mem : some seed ∈ seedList listed count) : some seed ∈ listed := by
  unfold seedList at mem
  split at mem
  · simp at mem
  · exact mem

theorem WellTyped.known_input (ready : WellTyped known serial g) {input : Input Scalar}
    {n : Node Scalar} (handed : ∀ m ∈ input.nodes, m.graph = serial → known m)
    (checked : g.checkInput input = .ok n) : known n := by
  obtain ⟨rfl, used⟩ := checkInput_eq_ok.mp checked
  exact handed n (by simp [Input.nodes]) ((serial_of_checkNode used).trans ready.serial)

theorem WellTyped.started (ready : WellTyped known serial g) {roots : Roots Scalar} {seeds : Seeds}
    (handed : ∀ n ∈ roots.nodes, n.graph = serial → known n) (plain : seeds.Plain roots.isMany)
    {started : List (Node Scalar × Option Literal)}
    (accepted : g.checkBackward roots seeds = .ok started) :
    ∀ p ∈ started, known p.1 ∧ ∀ l ∈ p.2, l.Plain := by
  intro p mem
  constructor
  · refine (checked_started (fun _ => ready.wf.known_of_tape) ?_ accepted p mem).1
    exact fun n inside used => handed n inside ((serial_of_checkNode used).trans ready.serial)
  · intro l given
    obtain ⟨_, _, _, inputs, _, checked⟩ := checkBackward_eq_ok accepted
    obtain ⟨⟨root, seed⟩, inside, accepted⟩ := mapM_eq_ok_mem checked p mem
    obtain ⟨n, rfl⟩ : ∃ n, p = (n, some l) := ⟨p.1, Prod.ext rfl given⟩
    obtain ⟨_, _, rfl, _⟩ := checkRoot_eq_ok accepted
    exact plain _ (mem_of_mem_seedList (List.of_mem_zip inside).2) l rfl

include lawful in
/-- Roots and seeds that are accepted are lawful, and so is what the pass makes of them. -/
theorem backward_assures {roots : Roots Scalar} {seeds : Seeds}
    (handed : ∀ n ∈ roots.nodes, n.graph = serial → known n) (plain : seeds.Plain roots.isMany) :
    Assures (WellTyped known serial) (fun _ => True) (backward roots seeds) := by
  refine .bind .of_get fun g ready => ?_
  refine .bind (assures_lift fun _ accepted => ready.started handed plain accepted)
    fun started each => ?_
  refine .bind (assures_of_types (Leads.of_modify fun g wf =>
    dropGrads_types (fun _ => wf.known_of_tape) wf)) fun _ _ => ?_
  refine .bind .of_get fun g₁ ready₁ => ?_
  refine .bind (.forM fun p mem => seedRoot_assures lawful (each p mem).1 (each p mem).2)
    fun _ _ => ?_
  refine .bind .of_get fun g₂ _ => ?_
  refine .bind (backwardFrom_assures lawful (fun n on => ?_) _) fun _ _ => ?_
  · have mem := ready₁.wf.known_of_tape (List.mem_reverse.mp on)
    exact ⟨mem, fun i input => ready₁.wf.known_inputs mem input⟩
  · exact assures_of_quiet (logBackward_leads _)

/-! ### Other calls -/

include lawful in
theorem value_assures {n : Input Scalar} (handed : ∀ m ∈ n.nodes, m.graph = serial → known m) :
    Assures (WellTyped known serial) (fun _ => True) (value n) := by
  refine .bind .of_get fun g ready => ?_
  refine .bind (assures_lift fun _ checked => ready.known_input handed checked) fun m mem => ?_
  split
  · exact .of_throw _
  · exact (ensured_assures lawful mem).mono fun _ _ => trivial

theorem gradOf_assures (n : Input Scalar) :
    Assures (WellTyped known serial) (fun _ => True) (gradOf n) :=
  .bind .of_get fun _ _ => .bind (assures_lift fun _ _ => trivial)
    fun _ (_ : True) => .of_pure trivial

theorem retain_assures {n : Input Scalar} (handed : ∀ m ∈ n.nodes, m.graph = serial → known m) :
    Assures (WellTyped known serial) (fun _ => True) (retain n) := by
  refine .bind .of_get fun g ready => ?_
  refine .bind (assures_lift fun _ checked => ready.known_input handed checked) fun m mem => ?_
  exact .bind (assures_of_types (Leads.of_modify fun g => flag_types mem rfl rfl))
    fun _ _ => .of_pure trivial

theorem checkpoint_assures {n : Node Scalar} (handed : n.graph = serial → known n) :
    Assures (WellTyped known serial) (fun _ => True) (checkpoint n) := by
  refine .bind .of_get fun g ready => ?_
  refine .bind (assures_lift fun _ used =>
    handed ((serial_of_checkNode used).trans ready.serial)) fun _ mem => ?_
  split
  · exact .bind (assures_of_types (Leads.of_modify fun g => flag_types mem rfl rfl))
      fun _ _ => .of_pure trivial
  · exact .of_pure trivial

theorem zeroGrad_types {n : Node Scalar} (mem : known n) : Types known g (g.zeroGrad n) := by
  unfold zeroGrad
  split
  · exact .refl g
  · exact setGrad_types mem (Tensor.zeros_conforms n.signature)

theorem zeroGrads_types (parameters : ∀ n ∈ g.parameters.toList, known n) :
    Types known g g.zeroGrads := by
  have all : ∀ ns : List (Node Scalar), (∀ n ∈ ns, known n) → ∀ g : Graph Scalar,
      Types known g (ns.foldl (fun g n => g.zeroGrad n) g) := by
    intro ns
    induction ns with
    | nil => exact fun _ g => .refl g
    | cons n ns ih =>
      exact fun mem g => Types.trans (zeroGrad_types (mem n (by simp)))
        (ih (fun m inside => mem m (by simp [inside])) _)
  rw [zeroGrads, ← Array.foldl_toList]
  exact all _ parameters g

theorem WellTyped.reset (ready : WellTyped known serial g) (keepParameters : Bool) :
    WellTyped known serial (g.reset keepParameters) where
  wf := ready.wf.reset keepParameters
  typed := by
    have slots := slot_reset ready.wf keepParameters
    refine ready.typed.of_fewer (Nat.le_of_eq (fresh_reset keepParameters g).symm) ?_ ?_
    · intro n _ held found
      rw [slots] at found
      split at found
      · cases found
      · exact found
    · intro n _ held found
      rw [slots] at found
      split at found
      · cases found
      · exact found
  serial := (congrArg Outline.serial (outline_reset keepParameters g)).trans ready.serial

theorem WellTyped.forgotten (ready : WellTyped known serial g) :
    WellTyped known serial g.forgotten where
  wf := (ready.wf.of_outline (outline_forgetAll g.tape.toList g)).unmarked
  typed := by
    have slots := slot_forgetAll fun n on => ready.wf.bound (ready.wf.known_of_tape on)
    refine ready.typed.of_fewer (Nat.le_of_eq (fresh_forgetAll g.tape.toList g).symm) ?_ ?_
    · intro n _ held found
      change ((g.forgetAll g.tape.toList).slot n.id).value = some held at found
      rw [slots] at found
      split at found
      · cases found
      · exact found
    · intro n _ held found
      change ((g.forgetAll g.tape.toList).slot n.id).grad = some held at found
      rw [slots] at found
      split at found
      · exact found
      · exact found
  serial := (serial_of_outline (outline_forgetAll g.tape.toList g)).trans ready.serial

theorem forget_types {n : Node Scalar} (mem : known n) : Types known g (g.forget n.id) :=
  fun wf typed => ⟨outline_forget g n.id, typed.of_update wf mem
    (Nat.le_of_eq (fresh_forget g n.id).symm) (slot_forget (wf.bound mem))
    (fun _ found => nomatch found) fun _ found => .inl found⟩

theorem invalidate_assures {n : Option (Input Scalar)}
    (handed : ∀ m, n = some (.node m) → m.graph = serial → known m) :
    Assures (WellTyped known serial) (fun _ => True) (invalidate n) := by
  rw [invalidate_eq]
  refine .bind (P := fun _ => True) ?_ fun _ _ => .of_modify fun g ready => ready.forgotten
  unfold forgetLeaf
  split
  · exact .of_pure trivial
  next input =>
    refine .bind .of_get fun g ready => ?_
    refine .bind (assures_lift fun _ checked => ready.known_input (fun m given => ?_) checked)
      fun m mem => ?_
    · cases input with
      | node m' =>
        obtain rfl : m = m' := by simpa [Input.nodes] using given
        exact handed m rfl
      | other => simp [Input.nodes] at given
    · split
      · exact assures_of_types (Leads.of_modify fun g => forget_types mem)
      · exact .of_pure trivial

end Passes

end Graph

end ReverseMode
