import ReverseMode.Proofs.ForwardPass

/-!
What making values available fills.

Making the value of a node available fills slots that were empty: that of the node, and those
of the nodes it needs that are missing as well. Nothing that is held is lost or changed, and
gradients and the flags of the caller stay. The slots filled belong to any set of nodes that
holds the node and, with each missing node, its inputs.
-/

namespace ReverseMode

namespace Graph

variable {α : Type} {known Q R : Node α → Prop} {g g' : Graph α} {k : Nat}

/-- Empty slots of some nodes may have been filled; everything else about slots is as before. -/
structure Fills (Q : Node α → Prop) (g g' : Graph α) : Prop where
  outline : g'.outline = g.outline
  slots : ∀ id, g'.slot id = g.slot id ∨
    (∃ n, Q n ∧ n.id = id) ∧ (g.slot id).value = none ∧
      ∃ held, g'.slot id = { g.slot id with value := some held, computed := true }

namespace Fills

theorem refl (g : Graph α) : Fills Q g g := ⟨rfl, fun _ => .inl rfl⟩

theorem mono (weaker : ∀ n, Q n → R n) (fills : Fills Q g g') : Fills R g g' := by
  constructor
  · exact fills.outline
  · intro id
    rcases fills.slots id with same | ⟨⟨n, inside, here⟩, filled⟩
    · exact .inl same
    · exact .inr ⟨⟨n, weaker n inside, here⟩, filled⟩

theorem of_quiet (quiet : Quiet g g') : Fills Q g g' :=
  ⟨quiet.outline, fun id => .inl (by rw [quiet.slots])⟩

theorem value (fills : Fills Q g g') {id : Nat} {held : Held α}
    (value : (g.slot id).value = some held) : (g'.slot id).value = some held := by
  rcases fills.slots id with same | ⟨_, absent, _⟩
  · rw [same]
    exact value
  · rw [absent] at value
    cases value

theorem held (fills : Fills Q g g') {id : Nat} (held : (g.slot id).value.isSome) :
    (g'.slot id).value.isSome := by
  obtain ⟨h, value⟩ := Option.isSome_iff_exists.mp held
  rw [fills.value value]
  rfl

theorem absent (fills : Fills Q g g') {id : Nat} (absent : (g'.slot id).value = none) :
    (g.slot id).value = none := by
  cases value : (g.slot id).value with
  | none => rfl
  | some held =>
    rw [fills.value value] at absent
    cases absent

/-- Only the value and the mark that it has been computed may differ. -/
theorem slot (fills : Fills Q g g') (id : Nat) :
    ∃ value computed, g'.slot id = { g.slot id with value, computed } := by
  rcases fills.slots id with same | ⟨_, _, held, filled⟩
  · exact ⟨_, _, same⟩
  · exact ⟨_, _, filled⟩

theorem retained (fills : Fills Q g g') (id : Nat) :
    (g'.slot id).retained = (g.slot id).retained := by
  obtain ⟨_, _, slot⟩ := fills.slot id
  rw [slot]

theorem checkpoint (fills : Fills Q g g') (id : Nat) :
    (g'.slot id).checkpoint = (g.slot id).checkpoint := by
  obtain ⟨_, _, slot⟩ := fills.slot id
  rw [slot]

theorem grad (fills : Fills Q g g') (id : Nat) : (g'.slot id).grad = (g.slot id).grad := by
  obtain ⟨_, _, slot⟩ := fills.slot id
  rw [slot]

/-- The slot of a node outside the set is left alone. -/
theorem other (fills : Fills Q g g') {id : Nat} (outside : ∀ n, Q n → n.id ≠ id) :
    g'.slot id = g.slot id := by
  rcases fills.slots id with same | ⟨⟨n, inside, here⟩, _⟩
  · exact same
  · exact absurd here (outside n inside)

/-- What holds a value afterwards held it before, or belongs to the set. -/
theorem origin (fills : Fills Q g g') {id : Nat} (held : (g'.slot id).value.isSome) :
    (g.slot id).value.isSome ∨ ∃ n, Q n ∧ n.id = id := by
  rcases fills.slots id with same | ⟨inside, _⟩
  · rw [same] at held
    exact .inl held
  · exact .inr inside

theorem trans {g₁ g₂ g₃ : Graph α} (first : Fills Q g₁ g₂) (second : Fills Q g₂ g₃) :
    Fills Q g₁ g₃ := by
  constructor
  · exact second.outline.trans first.outline
  · intro id
    rcases second.slots id with same | ⟨inside, absent, held, filled⟩
    · rw [same]
      exact first.slots id
    · right
      refine ⟨inside, first.absent absent, held, ?_⟩
      obtain ⟨_, _, slot⟩ := first.slot id
      rw [filled, slot]

end Fills

/-- With each missing node its inputs are in the set. -/
def ClosedIn (Q : Node α → Prop) (g : Graph α) : Prop :=
  ∀ {n}, Q n → (g.slot n.id).value = none → ∀ m ∈ n.inputs, Q m

theorem ClosedIn.of_fills (closed : ClosedIn Q g) (fills : Fills R g g') : ClosedIn Q g' :=
  fun inside absent => closed inside (fills.absent absent)

/-- From a well-formed graph on which the set is closed, slots of the set below an id are
filled. -/
def Filling (known Q : Node α → Prop) (k : Nat) (g g' : Graph α) : Prop :=
  WellFormed known g → ClosedIn Q g → Fills (fun n => Q n ∧ n.id < k) g g'

theorem Filling.refl (g : Graph α) : Filling known Q k g g := fun _ _ => .refl g

theorem Filling.trans {g₁ g₂ g₃ : Graph α} (first : Filling known Q k g₁ g₂)
    (second : Filling known Q k g₂ g₃) : Filling known Q k g₁ g₃ := by
  intro wf closed
  have fills := first wf closed
  exact fills.trans (second (wf.of_outline fills.outline) (closed.of_fills fills))

theorem Filling.mono {l : Nat} (le : k ≤ l) (h : Filling known Q k g g') :
    Filling known Q l g g' :=
  fun wf closed => (h wf closed).mono fun _ inside => ⟨inside.1, Nat.lt_of_lt_of_le inside.2 le⟩

variable [Element α]

/-- A node that has been computed holds a value; no other slot is touched. -/
theorem compute_slot {n : Node α} (bound : n.id < g.slots.size)
    (answered : compute n g = .ok () g') : ∃ held : Held α, g'.outline = g.outline ∧
      g'.slot = Function.update g.slot n.id
        { g.slot n.id with value := some held, computed := true } := by
  cases n with
  | leaf s init =>
    obtain ⟨held, _, outline, _, slots⟩ := compute_leaf_answer bound answered
    exact ⟨held, outline, slots⟩
  | apply s op inputs =>
    obtain ⟨_, held, _, _, aside, slots⟩ := compute_apply_answer bound answered
    exact ⟨held, aside.outline, slots⟩

/-- The computation of a node that has no value fills its slot, or nothing if it raises. -/
theorem compute_fills {n : Node α} (bound : n.id < g.slots.size) (inside : Q n)
    (absent : (g.slot n.id).value = none) : Fills Q g (after (compute n g)) := by
  cases run : compute n g with
  | error f g' => exact .of_quiet (compute_raise run)
  | ok u g' =>
    rw [after_ok]
    obtain ⟨held, outline, slots⟩ := compute_slot bound run
    constructor
    · exact outline
    · intro id
      by_cases same : id = n.id
      · right
        subst same
        refine ⟨⟨n, inside, rfl⟩, absent, held, ?_⟩
        rw [slots, Function.update_self]
      · left
        rw [slots, Function.update_of_ne same]

/-- Making a node of the set available fills slots of the set, also if it raises halfway. -/
theorem ensure_filling (inner : ∀ m, Q m → known m) {n : Node α} (inside : Q n) :
    Leads (Filling known Q (n.id + 1)) (ensure n) := by
  induction n using Node.rec_inputs with
  | step n ih =>
    intro g wf closed
    suffices h : Filling known Q (n.id + 1) g (after (ensure n g)) from h wf closed
    rw [ensure_eq]
    refine Leads.bind_at Filling.trans (.refl g) fun _ _ got => ?_
    obtain ⟨rfl, rfl⟩ := answer_get.mp got
    split
    · exact .refl g
    next held =>
      have absent : (g.slot n.id).value = none := by simpa using held
      have below : Leads (Filling known Q n.id) ((g.missing n).forM fun m => ensure m.val) := by
        refine Leads.forM .refl Filling.trans fun m _ => ?_
        have less := (wf.inputs (inner n inside) m.property).2
        exact Leads.mono (fun _ _ => Filling.mono less)
          (ih m.val m.property (closed inside absent m.val m.property))
      refine Leads.bind_at Filling.trans (Filling.mono (Nat.le_succ _) (below g))
        fun _ g₁ ensured => ?_
      refine Leads.bind_at Filling.trans ?_ fun _ g₂ counted => ?_
      · exact fun _ _ => .of_quiet (countRecomputation_quiet n g₁)
      -- the slot of the node has not been touched by what was made available below it
      have filled := below g wf closed
      rw [ensured, after_ok] at filled
      rw [← answer_modify.mp counted]
      intro wf₂ _
      refine compute_fills (wf₂.bound (inner n inside)) ⟨inside, Nat.lt_succ_self _⟩ ?_
      rw [slot_countRecomputation, filled.other fun m other => Nat.ne_of_lt other.2]
      exact absent

/-- Of the nodes of a set that is closed only such with smaller ids are filled, and the node. -/
theorem ensure_fills (inner : ∀ m, Q m → known m) {n : Node α} (inside : Q n)
    (wf : WellFormed known g) (closed : ClosedIn Q g) :
    Fills (fun m => Q m ∧ m.id ≤ n.id) g (after (ensure n g)) :=
  (ensure_filling inner inside g wf closed).mono fun _ m => ⟨m.1, Nat.le_of_lt_succ m.2⟩

/-- Whatever is made available, only slots of known nodes up to the node are filled. -/
theorem ensure_fills_known {n : Node α} (mem : known n) (wf : WellFormed known g) :
    Fills (fun m => known m ∧ m.id ≤ n.id) g (after (ensure n g)) :=
  ensure_fills (fun _ => id) mem wf fun mem _ _ input => wf.known_inputs mem input

/-- Nodes of a set made available in a row. -/
theorem ensureEach_filling {ι : Type} {v : ι → Node α} {is : List ι}
    (inner : ∀ m, Q m → known m) (inside : ∀ i ∈ is, Q (v i) ∧ (v i).id < k) :
    Leads (Filling known Q k) (is.forM fun i => ensure (v i)) :=
  Leads.forM .refl Filling.trans fun i mem => Leads.mono
    (fun _ _ => Filling.mono (inside i mem).2) (ensure_filling inner (inside i mem).1)

theorem ensureEach_fills {ι : Type} {v : ι → Node α} {is : List ι}
    (mem : ∀ i ∈ is, known (v i) ∧ (v i).id < k) (wf : WellFormed known g) :
    Fills (fun n => known n ∧ n.id < k) g (after ((is.forM fun i => ensure (v i)) g)) :=
  ensureEach_filling (fun _ => id) mem g wf fun mem _ _ input => wf.known_inputs mem input

/-- What is held is made available by doing nothing. -/
theorem ensure_held {n : Node α} (held : (g.slot n.id).value.isSome) :
    ensure n g = .ok () g := by
  rw [ensure_eq, run_bind (answer_get.mpr ⟨rfl, rfl⟩), if_pos held]
  rfl

end Graph

end ReverseMode
