import ReverseMode.Proofs.Construction
import ReverseMode.Session.Basic

/-!
What calls on a session add to its graphs.

`Grown k` says that at most `k` nodes have been added at the end of a tape, with what the index
holds for them, and that nothing else has changed that passes start from. A call on a session
`Leaves k m` if it adds at most `k` nodes to a graph where it raises, and at most `m` where it
answers. What is left behind by calls that follow each other adds up.
-/

namespace ReverseMode

variable {α β γ : Type}

namespace Graph

variable {g g' g₁ g₂ g₃ : Graph α} {k m : Nat}

/-- At most `k` nodes have been added. -/
structure Grown (k : Nat) (g g' : Graph α) : Prop where
  nodes : ∃ ns, ns.length ≤ k ∧ g'.tape.toList = g.tape.toList ++ ns ∧
    g'.index.toList = g.index.toList ++ ns.filterMap Node.entry?
  computed : ∀ id, (g'.slot id).computed = (g.slot id).computed
  parameters : g'.parameters = g.parameters
  forwarded : g'.forwarded = g.forwarded

theorem Grown.of_same (tape : g'.tape = g.tape) (index : g'.index = g.index)
    (computed : ∀ id, (g'.slot id).computed = (g.slot id).computed)
    (parameters : g'.parameters = g.parameters) (forwarded : g'.forwarded = g.forwarded) :
    Grown k g g' :=
  ⟨⟨[], Nat.zero_le k, by simp [tape], by simp [index]⟩, computed, parameters, forwarded⟩

theorem Grown.refl (g : Graph α) : Grown k g g := .of_same rfl rfl (fun _ => rfl) rfl rfl

theorem Grown.mono (grown : Grown k g g') (le : k ≤ m) : Grown m g g' := by
  obtain ⟨ns, few, tape, index⟩ := grown.nodes
  exact ⟨⟨ns, Nat.le_trans few le, tape, index⟩, grown.computed, grown.parameters, grown.forwarded⟩

theorem Grown.trans (first : Grown k g₁ g₂) (second : Grown m g₂ g₃) : Grown (k + m) g₁ g₃ := by
  obtain ⟨ns, few, tape, index⟩ := first.nodes
  obtain ⟨ms, few', tape', index'⟩ := second.nodes
  refine ⟨⟨ns ++ ms, ?_, ?_, ?_⟩, fun id => (second.computed id).trans (first.computed id),
    second.parameters.trans first.parameters, second.forwarded.trans first.forwarded⟩
  · rw [List.length_append]
    omega
  · rw [tape', tape, List.append_assoc]
  · rw [index', index, List.filterMap_append, List.append_assoc]

theorem Grown.widened (g : Graph α) : Grown k g g.widened :=
  .of_same rfl rfl (fun id => by rw [slot_widened]) rfl rfl

theorem Grown.recorded (n : Node α) (g : Graph α) : Grown 1 g (g.recorded n) where
  nodes := by
    refine ⟨[n], Nat.le_refl 1, by simp [Graph.recorded, Tape.toList, Tape.push], ?_⟩
    refine (Index.toList_enter g.index n).trans ?_
    cases entry : n.entry? <;> simp [entry]
  computed id := congrArg Slot.computed (congrFun (slot_widened g) id)
  parameters := rfl
  forwarded := rfl

theorem Grown.modifySlot (g : Graph α) (id : Nat) {f : Slot α → Slot α}
    (same : ∀ s, (f s).computed = s.computed) : Grown k g (g.modifySlot id f) := by
  refine .of_same rfl rfl (fun j => ?_) rfl rfl
  simp only [slot, Graph.modifySlot, Array.getD_eq_getD_getElem?, Array.getElem?_modify]
  split
  · cases g.slots[j]? with
    | none => rfl
    | some s => exact same s
  · rfl

/-- Where nothing has been added, tape and index are the same, and so are the nodes that still
have to be computed. -/
theorem Grown.same (grown : Grown 0 g g') :
    g'.tape = g.tape ∧ g'.index = g.index ∧ g'.uncomputed = g.uncomputed := by
  obtain ⟨ns, few, tape, index⟩ := grown.nodes
  obtain rfl : ns = [] := List.length_eq_zero_iff.mp (Nat.le_zero.mp few)
  rw [List.append_nil] at tape
  rw [List.filterMap_nil, List.append_nil] at index
  refine ⟨congrArg Tape.mk (Array.toList_inj.mp tape),
    congrArg Index.mk (Array.toList_inj.mp index), ?_⟩
  rw [uncomputed, uncomputed, tape]
  exact List.filter_congr fun n _ => by rw [grown.computed]

end Graph

namespace Session

open ReverseMode.Graph

variable {k m : Nat} {s s' : Session α}

theorem graphs_writes (rs : List Report) (s : Session α) :
    (rs.foldl write s).graphs = s.graphs := by
  induction rs generalizing s with
  | nil => rfl
  | cons r rs ih =>
    refine (ih _).trans ?_
    cases r with
    | log => rfl
    | line => rfl

/-- The graph of a serial number. -/
def graphAt (s : Session α) (serial : Nat) : Graph α := s.graphs.getD serial default

/-- At most `k` nodes have been added to a graph. -/
def Grows (k : Nat) (s s' : Session α) : Prop :=
  ∀ serial, Grown k (s.graphAt serial) (s'.graphAt serial)

/-- A call adds at most `k` nodes where it raises and at most `m` where it answers. -/
structure Leaves (k m : Nat) (x : SessionM α β) : Prop where
  raise : ∀ s f s', x s = .error f s' → Grows k s s'
  answer : ∀ s b s', x s = .ok b s' → Grows m s s'

/-- Whatever a call answers has a property. -/
def Gives (p : β → Prop) (x : SessionM α β) : Prop := ∀ s b s', x s = .ok b s' → p b

theorem Gives.after {x : SessionM α β} {f : β → SessionM α γ} {p : γ → Prop}
    (gives : ∀ b, Gives p (f b)) : Gives p (x >>= f) := by
  intro s c s' ran
  obtain ⟨b, s₁, _, later⟩ := answer_bind.mp ran
  exact gives b s₁ c s' later

namespace Leaves

variable {x : SessionM α β} {f : β → SessionM α γ}

theorem mono {k' m' : Nat} (leaves : Leaves k m x) (le : k ≤ k') (le' : m ≤ m') : Leaves k' m' x :=
  ⟨fun s f s' raised serial => (leaves.raise s f s' raised serial).mono le,
    fun s b s' ran serial => (leaves.answer s b s' ran serial).mono le'⟩

theorem of_pure (b : β) : Leaves k m (pure b : SessionM α β) where
  raise _ _ _ raised := absurd raised not_raise_pure
  answer _ _ _ ran serial := by
    obtain ⟨_, rfl⟩ := answer_pure.mp ran
    exact .refl _

theorem of_throw (fault : Fault) : Leaves k m (throw fault : SessionM α β) where
  raise _ _ _ raised serial := by
    obtain ⟨_, rfl⟩ := raise_throw.mp raised
    exact .refl _
  answer _ _ _ ran := absurd ran not_answer_throw

theorem of_lift (e : Except Fault β) : Leaves k m (lift e : SessionM α β) := by
  cases e with
  | ok b => exact of_pure b
  | error fault => exact of_throw fault

/-- Calls that follow each other, the second one made with what the first one can answer. -/
theorem bind_of {k' m' : Nat} {p : β → Prop} (first : Leaves k m x) (gives : Gives p x)
    (second : ∀ b, p b → Leaves k' m' (f b)) : Leaves (max k (m + k')) (m + m') (x >>= f) where
  raise s fault s' raised serial := by
    rcases raise_bind.mp raised with here | ⟨b, s₁, ran, later⟩
    · exact (first.raise s fault s' here serial).mono (Nat.le_max_left _ _)
    · have grown := (first.answer s b s₁ ran serial).trans
        ((second b (gives s b s₁ ran)).raise s₁ fault s' later serial)
      exact grown.mono (Nat.le_max_right _ _)
  answer s c s' ran serial := by
    obtain ⟨b, s₁, ran, later⟩ := answer_bind.mp ran
    exact (first.answer s b s₁ ran serial).trans
      ((second b (gives s b s₁ ran)).answer s₁ c s' later serial)

/-- Calls that follow each other. -/
theorem bind {k' m' : Nat} (first : Leaves k m x) (second : ∀ b, Leaves k' m' (f b)) :
    Leaves (max k (m + k')) (m + m') (x >>= f) :=
  first.bind_of (p := fun _ => True) (fun _ _ _ _ => trivial) fun b _ => second b

/-- What follows a call that adds nothing. -/
theorem after_of {p : β → Prop} (first : Leaves 0 0 x) (gives : Gives p x)
    (second : ∀ b, p b → Leaves k m (f b)) : Leaves k m (x >>= f) :=
  (first.bind_of gives second).mono (by simp) (by simp)

theorem after (first : Leaves 0 0 x) (second : ∀ b, Leaves k m (f b)) : Leaves k m (x >>= f) :=
  (first.bind second).mono (by simp) (by simp)

/-- What adds nothing after a call that adds no more where it raises than where it answers. -/
theorem before (first : Leaves m m x) (second : ∀ b, Leaves 0 0 (f b)) : Leaves m m (x >>= f) :=
  (first.bind second).mono (by simp) (by simp)

/-- A result is only put into another form. -/
theorem map (leaves : Leaves k m x) (h : β → γ) :
    Leaves k m (do return h (← x) : SessionM α γ) where
  raise s f s' raised := by
    rcases raise_bind.mp raised with here | ⟨b, s₁, ran, later⟩
    · exact leaves.raise s f s' here
    · exact absurd later not_raise_pure
  answer s c s' ran := by
    obtain ⟨b, s₁, inner, later⟩ := answer_bind.mp ran
    obtain ⟨_, rfl⟩ := answer_pure.mp later
    exact leaves.answer s b _ inner

/-- A call for each item of a list, which adds no more where it raises than where it answers. -/
theorem mapM {f : β → SessionM α γ} (each : ∀ b, Leaves k k (f b)) (bs : List β) :
    Leaves (bs.length * k) (bs.length * k) (bs.mapM f) := by
  induction bs with
  | nil => exact of_pure []
  | cons b bs ih =>
    rw [List.mapM_cons, List.length_cons, Nat.succ_mul, Nat.add_comm]
    exact ((each b).bind fun c => ih.map (c :: ·)).mono (by simp) (Nat.le_refl _)

end Leaves

theorem graphAt_onGraph (serial : Nat) (s : Session α) (g : Graph α) (j : Nat) :
    ((s.takeGraph serial).2.putGraph serial g).graphAt j =
      if j = serial ∧ serial < s.graphs.size then { g with reports := #[] } else s.graphAt j := by
  unfold graphAt putGraph takeGraph
  dsimp only
  rw [← Array.foldl_toList, graphs_writes]
  simp only [Array.getD_eq_getD_getElem?, Array.getElem?_setIfInBounds, Array.size_setIfInBounds]
  by_cases same : serial = j
  · subst same
    by_cases inside : serial < s.graphs.size
    · simp [inside]
    · simp [inside]
  · have other : ¬ j = serial := fun h => same h.symm
    simp [same, other]

/-- A call on one graph is the call with everything else put back around it. -/
theorem onGraph_run (serial : Nat) (call : GraphM α β) (s : Session α) :
    onGraph serial call s =
      match call (s.graphAt serial) with
      | .ok b g => .ok b ((s.takeGraph serial).2.putGraph serial g)
      | .error f g => .error f ((s.takeGraph serial).2.putGraph serial g) := rfl

/-- A call on one graph adds to that graph only. -/
theorem onGraph_leaves {call : GraphM α β} (serial : Nat)
    (raise : ∀ g f g', call g = .error f g' → Grown k g g')
    (answer : ∀ g b g', call g = .ok b g' → Grown m g g') : Leaves k m (onGraph serial call) := by
  have put : ∀ (l : Nat) (s : Session α) (g : Graph α), Grown l (s.graphAt serial) g →
      Grows l s ((s.takeGraph serial).2.putGraph serial g) := by
    intro l s g grown j
    rw [graphAt_onGraph]
    split
    next here =>
      obtain ⟨rfl, _⟩ := here
      exact ⟨grown.nodes, grown.computed, grown.parameters, grown.forwarded⟩
    · exact .refl _
  constructor
  · intro s f s' raised
    rw [onGraph_run] at raised
    cases run : call (s.graphAt serial) with
    | ok b g =>
      rw [run] at raised
      cases raised
    | error e g =>
      rw [run] at raised
      cases raised
      exact put k s g (raise _ _ _ run)
  · intro s b s' ran
    rw [onGraph_run] at ran
    cases run : call (s.graphAt serial) with
    | ok c g =>
      rw [run] at ran
      cases ran
      exact put m s g (answer _ _ _ run)
    | error e g =>
      rw [run] at ran
      cases ran

theorem add_leaves (serial : Nat) (op : Operator α) (inputs : List (Input α)) :
    Leaves 0 1 (onGraph serial (Graph.add op inputs)) := by
  refine onGraph_leaves serial (fun g f g' raised => ?_) fun g n g' ran => ?_
  · rw [add_raise raised]
    exact .refl g
  · obtain ⟨_, _, _, _, ⟨_, rfl⟩ | ⟨_, _, rfl⟩⟩ := add_answer.mp ran
    · exact .refl g'
    · exact .recorded n g

theorem checkpoint_leaves (serial : Nat) (n : Node α) :
    Leaves 0 0 (onGraph serial (Graph.checkpoint n)) := by
  have trans {g₁ g₂ g₃ : Graph α} (first : Grown 0 g₁ g₂) (second : Grown 0 g₂ g₃) :
      Grown 0 g₁ g₃ := first.trans second
  have leads : Leads (Grown 0) (Graph.checkpoint n) := by
    refine Leads.bind trans (Leads.of_get .refl) fun g => ?_
    refine Leads.bind trans (leads_lift .refl _) fun _ => ?_
    split
    · refine Leads.bind trans (Leads.of_modify fun g => ?_) fun _ => Leads.of_pure .refl n
      exact .modifySlot g n.id fun _ => rfl
    · exact Leads.of_pure .refl n
  exact onGraph_leaves serial (fun g f g' raised => by simpa [raised] using leads g)
    fun g m g' ran => by simpa [ran] using leads g

theorem constant_leaves (serial : Nat) (shape : Shape) (init : Initializer α)
    (type : Deferred (Option ElementType)) (name : Option Written) :
    Leaves 0 1 (onGraph serial (Graph.constant shape init type name)) := by
  refine onGraph_leaves serial (fun g f g' raised => ?_) fun g n g' ran => ?_
  · rcases constant_raise raised with rfl | rfl
    · exact .refl g'
    · exact .widened g
  · obtain ⟨_, _, _, _, rfl⟩ := constant_answer.mp ran
    exact .recorded n g

end Session

end ReverseMode
