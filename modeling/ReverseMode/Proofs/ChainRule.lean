import ReverseMode.Proofs.BackwardSweep
import ReverseMode.Proofs.Values

/-!
The chain rule.

The adjoint of a node is the sum of the seeds it has as a root and of what the applications
that it is an input of add to it, each from its own adjoint. With exact addition a sweep leaves
every node with the gradient it had plus its adjoint, whatever the order of the tape and
however often a node is used.
-/

namespace ReverseMode

variable {α : Type} [Element α]

namespace Node

/-- What one entry of a backward step adds to the gradient of a node. -/
def amount (n : Node α) (inputs : List (Node α)) (entry : Nat × Except Fault (Contribution α)) :
    List (Tensor α) :=
  match inputs[entry.1]? with
  | some i =>
    if i.id = n.id then
      (entry.2 >>= fun c => c.addTo (Graph.zeros n.signature)).toOption.toList
    else []
  | none => []

/-- What an application with a gradient adds to the gradient of a node, slot by slot. -/
def amounts (value : Node α → Option (Tensor α)) (n : Node α) (grad : Tensor α) :
    Node α → List (Tensor α)
  | .leaf _ _ => []
  | .apply s op inputs =>
    match value (.apply s op inputs) with
    | some out => (op.contributions (inputs.filterMap value) out grad
        (inputs.map Node.trainable)).flatMap (n.amount inputs)
    | none => []

/-- What an application gives a node, if a gradient has reached it. -/
def gained (value : Node α → Option (Tensor α)) (n : Node α) (adj : Option (Tensor α))
    (c : Node α) : List (Tensor α) :=
  match adj with
  | some grad => n.amounts value grad c
  | none => []

/-- The seeds of a node, one for every time it is a root. -/
def seeds (started : List (Node α × Option Literal)) (n : Node α) : List (Tensor α) :=
  started.flatMap fun root =>
    if root.1.id = n.id then (Graph.seedElements n.signature root.2).toOption.toList else []

end Node

theorem Literal.store_shape (l : Literal) {type : ElementType} {values : Tensor Scalar}
    (stored : l.store type = .ok values) : values.shape = l.shape := by
  obtain ⟨scalars, _, stored⟩ := bind_eq_ok.mp stored
  split at stored
  next made =>
    cases pure_eq_ok.mp stored
    unfold Tensor.ofArray? at made
    split at made
    · cases made
      rfl
    · cases made
  · cases stored

/-- Whether an entry of a backward step can be had and added. -/
def Had (inputs : List (Node α)) (entry : Nat × Except Fault (Contribution α)) : Prop :=
  ∃ c, entry.2 = .ok c ∧ ∀ i, inputs[entry.1]? = some i → i.trainable = true →
    ∃ t, c.addTo (Graph.zeros i.signature) = .ok t

namespace Graph

/-- The adjoints of nodes, where a backward pass reaches them. -/
structure Adjoint (known : Node α → Prop) (g : Graph α) (started : List (Node α × Option Literal))
    (adj : Node α → Option (Tensor α)) : Prop where
  /-- A pass reaches its trainable roots and the trainable inputs of what it reaches. -/
  reached : ∀ n, known n → ((adj n).isSome ↔ n.trainable = true ∧
    (n ∈ started.map Prod.fst ∨ ∃ c ∈ g.tape.toList, (adj c).isSome ∧ n ∈ c.inputs))
  /-- What a node that is reached contributes can be had. -/
  had : ∀ s op inputs, .apply s op inputs ∈ g.tape.toList → ∀ grad,
    adj (.apply s op inputs) = some grad → ∃ out ts, g.den (.apply s op inputs) = some out ∧
      Yields g.den inputs ts ∧
      ∀ entry ∈ op.contributions ts out grad (inputs.map Node.trainable), Had inputs entry
  /-- Seeds and contributions add up. -/
  sum : ∀ n, known n → ∀ t, adj n = some t → t = Tensor.total n.shape.extents
    (n.seeds started ++ g.tape.toList.flatMap fun c => n.gained g.den (adj c) c)

end Graph

namespace Gradients

variable {value : Node α → Option (Tensor α)} {γ γ' : Gradients α} {known : Node α → Prop}

/-- Gradients have the extents of their nodes and belong to trainable ones. -/
def Proper (known : Node α → Prop) (γ : Gradients α) : Prop :=
  ∀ n, known n → ∀ t, γ n.id = some t → t.shape = n.shape.extents ∧ n.trainable = true

theorem Proper.buffer (proper : Proper known γ) {n : Node α} (mem : known n) :
    (γ.buffer n).shape = n.shape.extents := by
  rw [Gradients.buffer]
  cases found : γ n.id with
  | none => rfl
  | some t => exact (proper n mem t found).1

theorem buffer_of_some {n : Node α} {t : Tensor α} (found : γ n.id = some t) :
    γ.buffer n = t := by
  rw [buffer, found, Option.getD_some]

section Step

variable {inputs : List (Node α)} {n : Node α} (unique : ∀ i ∈ inputs, i.id = n.id → i = n)

include unique

theorem buffer_openAll : (openAll inputs γ).buffer n = γ.buffer n := by
  induction inputs generalizing γ with
  | nil => rfl
  | cons i rest ih =>
    rw [openAll, ih fun j input => unique j (by simp [input])]
    split
    · by_cases same : i.id = n.id
      · obtain rfl := unique i (by simp) same
        exact buffer_of_some (put_self _)
      · rw [Gradients.buffer, put_of_ne fun h => same h.symm, Gradients.buffer]
    · rfl

/-- The trainable inputs have a gradient once they have been opened. -/
theorem openAll_input (input : n ∈ inputs) (trainable : n.trainable = true) :
    openAll inputs γ n.id = some (γ.buffer n) := by
  induction inputs generalizing γ with
  | nil => cases input
  | cons i rest ih =>
    have unique' : ∀ j ∈ rest, j.id = n.id → j = n := fun j input => unique j (by simp [input])
    rw [openAll]
    by_cases later : n ∈ rest
    · rw [ih unique' later]
      have opened : (openAll [i] γ).buffer n = γ.buffer n :=
        buffer_openAll fun j input => unique j (by simp at input; simp [input])
      exact congrArg some opened
    · rcases List.mem_cons.mp input with rfl | later'
      · rw [openAll_other, if_pos trainable, put_self]
        rintro j input _ same
        exact later (unique' j input same ▸ input)
      · exact absurd later' later

theorem addToSlot_other {slot : Nat} {c : Contribution α}
    (idle : n.trainable = false ∨ n ∉ inputs) (added : addToSlot inputs slot c γ = .ok γ') :
    γ' n.id = γ n.id := by
  unfold addToSlot at added
  split at added
  next i found =>
    split at added
    next trainable =>
      obtain ⟨t, _, rfl⟩ := add_eq_ok.mp added
      refine put_of_ne fun same => ?_
      have input := List.mem_of_getElem? found
      obtain rfl := unique i input same.symm
      rcases idle with fixed | absent
      · simp [trainable] at fixed
      · exact absent input
    · cases added
      rfl
  · cases added
    rfl

theorem addAll_other {cs : Contributions α} (idle : n.trainable = false ∨ n ∉ inputs)
    (added : addAll inputs cs γ = .ok γ') : γ' n.id = γ n.id := by
  induction cs generalizing γ with
  | nil =>
    cases added
    rfl
  | cons entry rest ih =>
    obtain ⟨slot, made⟩ := entry
    obtain ⟨c, γ₁, _, first, others⟩ := addAll_cons_eq_ok.mp added
    exact (ih others).trans (addToSlot_other unique idle first)

variable [Element.Exact α] (trainable : n.trainable = true)

include trainable

/-- One entry of a backward step. -/
theorem addToSlot_receives {slot : Nat} {c : Contribution α} {b : Tensor α}
    (opened : γ n.id = some b) (shape : b.shape = n.shape.extents)
    (added : addToSlot inputs slot c γ = .ok γ') :
    γ' n.id = some (b.plus (Tensor.total n.shape.extents (n.amount inputs (slot, .ok c)))) := by
  unfold addToSlot at added
  rw [Node.amount]
  split at added
  next i found =>
    simp only [found]
    by_cases same : i.id = n.id
    · obtain rfl := unique i (List.mem_of_getElem? found) same
      rw [if_pos trainable] at added
      obtain ⟨t, sum, rfl⟩ := add_eq_ok.mp added
      rw [buffer_of_some opened] at sum
      obtain ⟨amount, alone, rfl⟩ := Contribution.addTo_plus (s := i.signature) shape sum
      have alone : (Except.ok c >>= fun c => c.addTo (Graph.zeros i.signature)) = .ok amount := alone
      rw [put_self, if_pos rfl, alone]
      exact congrArg some (Tensor.plus_total_single shape).symm
    · rw [if_neg same, Tensor.plus_total_nil shape]
      split at added
      · obtain ⟨t, _, rfl⟩ := add_eq_ok.mp added
        rw [put_of_ne fun h => same h.symm, opened]
      · cases added
        exact opened
  next absent =>
    cases added
    simp only [absent]
    rw [Tensor.plus_total_nil shape, opened]

/-- The entries of a backward step, one after the other. -/
theorem addAll_receives {cs : Contributions α} {b : Tensor α} (opened : γ n.id = some b)
    (shape : b.shape = n.shape.extents) (added : addAll inputs cs γ = .ok γ') :
    γ' n.id = some (b.plus (Tensor.total n.shape.extents (cs.flatMap (n.amount inputs)))) := by
  induction cs generalizing γ b with
  | nil =>
    cases added
    rw [List.flatMap_nil, Tensor.plus_total_nil shape, opened]
  | cons entry rest ih =>
    obtain ⟨slot, made⟩ := entry
    obtain ⟨c, γ₁, rfl, first, others⟩ := addAll_cons_eq_ok.mp added
    have received := addToSlot_receives unique trainable opened shape first
    rw [ih received shape others, Tensor.plus_total_append shape, List.flatMap_cons]

end Step

/-! ### Steps and sweeps -/

/-- Whether the step of `c` adds to the gradient of `n`. -/
def Reaches (γ : Gradients α) (c n : Node α) : Prop :=
  (γ c.id).isSome ∧ n ∈ c.inputs ∧ n.trainable = true

/-- What the step of `c` adds to the gradient of `n`. -/
def gained (value : Node α → Option (Tensor α)) (γ : Gradients α) (n c : Node α) :
    List (Tensor α) := n.gained value (γ c.id) c

theorem amount_other {inputs : List (Node α)} {n : Node α} (other : ∀ i ∈ inputs, i.id ≠ n.id)
    (entry : Nat × Except Fault (Contribution α)) : n.amount inputs entry = [] := by
  rw [Node.amount]
  split
  next i found => rw [if_neg (other i (List.mem_of_getElem? found))]
  · rfl

theorem amounts_other {c n : Node α} (other : ∀ i ∈ c.inputs, i.id ≠ n.id) (grad : Tensor α) :
    n.amounts value grad c = [] := by
  cases c with
  | leaf => rfl
  | apply s op inputs =>
    rw [Node.amounts]
    split
    · exact List.flatMap_eq_nil_iff.mpr fun entry _ => amount_other other entry
    · rfl

theorem amounts_eq {s : Stamp} {op : Operator α} {inputs : List (Node α)} {n : Node α}
    {grad out : Tensor α} {ts : List (Tensor α)} (output : value (.apply s op inputs) = some out)
    (yields : Yields value inputs ts) :
    n.amounts value grad (.apply s op inputs) = (op.contributions ts out grad
      (inputs.map Node.trainable)).flatMap (n.amount inputs) := by
  have values : inputs.filterMap value = ts := by
    simpa [List.filterMap_map] using congrArg (List.filterMap id) yields
  rw [Node.amounts, output]
  simp only [values]

variable {g : Graph α}

theorem gained_of_not_reaches (wf : Graph.WellFormed known g) {c n : Node α} (mem : known c)
    (memN : known n) (trainable : n.trainable = true) (idle : ¬ Reaches γ c n) :
    gained value γ n c = [] := by
  unfold gained Node.gained
  split
  next grad found =>
    refine amounts_other (fun i input same => idle ⟨by simp [found], ?_, trainable⟩) grad
    exact wf.unique (wf.known_inputs mem input) memN same ▸ input
  · rfl

/-- A step leaves the gradients of nodes alone that are no trainable inputs. -/
theorem Visit.other (wf : Graph.WellFormed known g) {c : Node α} (mem : known c)
    (visit : Visit value c γ γ') {n : Node α} (memN : known n)
    (idle : n.trainable = false ∨ n ∉ c.inputs) : γ' n.id = γ n.id := by
  cases visit with
  | leaf => rfl
  | pass => rfl
  | @step s op inputs _ _ _ _ _ _ _ _ _ added =>
    have unique : ∀ i ∈ inputs, i.id = n.id → i = n := fun i input same =>
      wf.unique (wf.known_inputs mem input) memN same
    rw [addAll_other unique idle added]
    refine openAll_other fun i input trainable same => ?_
    obtain rfl := unique i input same
    rcases idle with fixed | absent
    · simp [trainable] at fixed
    · exact absent input

theorem Sweep.other (wf : Graph.WellFormed known g) {cs : List (Node α)} (mem : ∀ c ∈ cs, known c)
    (sweep : Sweep value cs γ γ') {n : Node α} (memN : known n) (idle : ∀ c ∈ cs, n ∉ c.inputs) :
    γ' n.id = γ n.id := by
  induction sweep with
  | nil => rfl
  | @cons c rest _ _ _ visit _ ih =>
    rw [ih (fun d inside => mem d (by simp [inside])) fun d inside => idle d (by simp [inside])]
    exact visit.other wf (mem c (by simp)) memN (.inr (idle c (by simp)))

/-- A node that is visited before its inputs keeps the gradient it is visited with. -/
theorem Sweep.final (wf : Graph.WellFormed known g) {c : Node α} {cs : List (Node α)}
    (mem : ∀ d ∈ c :: cs, known d) (older : ∀ d ∈ cs, d.id < c.id) {γ₁ : Gradients α}
    (visit : Visit value c γ γ₁) (sweep : Sweep value cs γ₁ γ') : γ' c.id = γ c.id := by
  have memC := mem c (by simp)
  have mem' : ∀ d ∈ cs, known d := fun d inside => mem d (by simp [inside])
  refine (sweep.other wf mem' memC fun d inside input => ?_).trans
    (visit.other wf memC memC (.inr fun input => ?_))
  · exact Nat.lt_asymm (older d inside) (wf.inputs (mem' d inside) input).2
  · exact Nat.lt_irrefl _ (wf.inputs memC input).2

theorem Visit.idle (wf : Graph.WellFormed known g) {c : Node α} (mem : known c)
    (visit : Visit value c γ γ') {n : Node α} (memN : known n) (idle : ¬ Reaches γ c n) :
    γ' n.id = γ n.id := by
  by_cases input : n.trainable = false ∨ n ∉ c.inputs
  · exact visit.other wf mem memN input
  · simp only [not_or, Bool.not_eq_false, not_not] at input
    cases visit with
    | leaf => rfl
    | pass => rfl
    | step _ reached =>
      exact absurd ⟨by simp [Node.id, Node.stamp, reached], input.2, input.1⟩ idle

/-! ### Proper gradients -/

omit [Element α] in
theorem Proper.put (wf : Graph.WellFormed known g) (proper : Proper known γ) {n : Node α}
    (mem : known n) (trainable : n.trainable = true) {t : Tensor α}
    (shape : t.shape = n.shape.extents) : Proper known (γ.put n t) := by
  intro m mem' u found
  by_cases same : m.id = n.id
  · obtain rfl := wf.unique mem' mem same
    rw [put_self, Option.some.injEq] at found
    exact ⟨found ▸ shape, trainable⟩
  · rw [put_of_ne same] at found
    exact proper m mem' u found

theorem Proper.openAll (wf : Graph.WellFormed known g) (proper : Proper known γ)
    {inputs : List (Node α)} (mem : ∀ i ∈ inputs, known i) : Proper known (openAll inputs γ) := by
  induction inputs generalizing γ with
  | nil => exact proper
  | cons i rest ih =>
    refine ih ?_ fun j input => mem j (by simp [input])
    split
    next trainable =>
      exact proper.put wf (mem i (by simp)) trainable (proper.buffer (mem i (by simp)))
    · exact proper

theorem Proper.add (wf : Graph.WellFormed known g) (proper : Proper known γ) {n : Node α}
    (mem : known n) (trainable : n.trainable = true) {c : Contribution α}
    (added : γ.add n c = .ok γ') : Proper known γ' := by
  obtain ⟨t, sum, rfl⟩ := add_eq_ok.mp added
  exact proper.put wf mem trainable ((Contribution.addTo_shape sum).trans (proper.buffer mem))

theorem Proper.addToSlot (wf : Graph.WellFormed known g) (proper : Proper known γ)
    {inputs : List (Node α)} (mem : ∀ i ∈ inputs, known i) {slot : Nat} {c : Contribution α}
    (added : addToSlot inputs slot c γ = .ok γ') : Proper known γ' := by
  unfold Gradients.addToSlot at added
  split at added
  next i found =>
    split at added
    next trainable =>
      exact proper.add wf (mem i (List.mem_of_getElem? found)) trainable added
    · cases added
      exact proper
  · cases added
    exact proper

/-! ### With exact addition -/

section Exact

variable [Element.Exact α]

theorem addToSlot_had {inputs : List (Node α)} (mem : ∀ i ∈ inputs, known i)
    (proper : Proper known γ) {slot : Nat} {c : Contribution α}
    (added : addToSlot inputs slot c γ = .ok γ') : Had inputs (slot, .ok c) := by
  refine ⟨c, rfl, fun i found trainable => ?_⟩
  have found : inputs[slot]? = some i := found
  simp only [Gradients.addToSlot, found, trainable, if_true] at added
  obtain ⟨t, sum, _⟩ := add_eq_ok.mp added
  obtain ⟨amount, alone, _⟩ := Contribution.addTo_plus (s := i.signature)
    (proper.buffer (mem i (List.mem_of_getElem? found))) sum
  exact ⟨amount, alone⟩

theorem addAll_had (wf : Graph.WellFormed known g) {inputs : List (Node α)}
    (mem : ∀ i ∈ inputs, known i) (proper : Proper known γ) {cs : Contributions α}
    (added : addAll inputs cs γ = .ok γ') : ∀ entry ∈ cs, Had inputs entry := by
  induction cs generalizing γ with
  | nil =>
    intro entry inside
    cases inside
  | cons entry rest ih =>
    obtain ⟨slot, made⟩ := entry
    obtain ⟨c, γ₁, rfl, first, others⟩ := addAll_cons_eq_ok.mp added
    intro entry inside
    rcases List.mem_cons.mp inside with rfl | inside
    · exact addToSlot_had mem proper first
    · exact ih (proper.addToSlot wf mem first) others entry inside

/-- The step of a node adds what is gained from it, and reaches its trainable inputs. -/
theorem Visit.gains (wf : Graph.WellFormed known g) (proper : Proper known γ) {c : Node α}
    (mem : known c) (visit : Visit value c γ γ') {n : Node α} (memN : known n)
    (trainable : n.trainable = true) :
    γ'.buffer n = (γ.buffer n).plus (Tensor.total n.shape.extents (gained value γ n c)) ∧
      ((γ' n.id).isSome ↔ (γ n.id).isSome ∨ Reaches γ c n) := by
  have shape := proper.buffer memN
  by_cases reaches : Reaches γ c n
  · obtain ⟨found, input, _⟩ := reaches
    have received : γ' n.id =
        some ((γ.buffer n).plus (Tensor.total n.shape.extents (gained value γ n c))) := by
      cases visit with
      | leaf => simp [Node.inputs] at input
      | pass idle =>
        obtain ⟨t, here⟩ := Option.isSome_iff_exists.mp found
        have := (proper _ mem t here).2
        rcases idle with fixed | none
        · simp [Node.trainable, Node.stamp, fixed] at this
        · cases none.symm.trans here
      | @step s op inputs _ _ grad out ts _ reached output yields added =>
        have unique : ∀ i ∈ inputs, i.id = n.id → i = n := fun i input same =>
          wf.unique (wf.known_inputs mem input) memN same
        have opened := openAll_input (γ := γ) unique input trainable
        rw [addAll_receives unique trainable opened shape added, gained,
          show γ (Node.apply s op inputs).id = some grad from reached, Node.gained,
          amounts_eq output yields]
    exact ⟨buffer_of_some received, by simp [received, found, input, trainable, Reaches]⟩
  · have same := visit.idle wf mem memN reaches
    rw [gained_of_not_reaches wf mem memN trainable reaches, Tensor.plus_total_nil shape, buffer,
      same, buffer]
    exact ⟨rfl, by simp [reaches]⟩

theorem Proper.visit (wf : Graph.WellFormed known g) (proper : Proper known γ) {c : Node α}
    (mem : known c) (visit : Visit value c γ γ') : Proper known γ' := by
  intro n memN t found
  by_cases reaches : Reaches γ c n
  · have gains := (visit.gains wf proper mem memN reaches.2.2).1
    rw [buffer_of_some found] at gains
    subst gains
    exact ⟨proper.buffer memN, reaches.2.2⟩
  · exact proper n memN t ((visit.idle wf mem memN reaches).symm.trans found)

/-- A sweep adds what is gained from its nodes, each with the gradient that it has in the end: a
node is visited after its consumers, so its gradient is complete by then. -/
theorem Sweep.gains (wf : Graph.WellFormed known g) (proper : Proper known γ) {cs : List (Node α)}
    (mem : ∀ c ∈ cs, known c) (sorted : cs.Pairwise fun c n => n.id < c.id)
    (sweep : Sweep value cs γ γ') {n : Node α} (memN : known n) (trainable : n.trainable = true) :
    γ'.buffer n = (γ.buffer n).plus
        (Tensor.total n.shape.extents (cs.flatMap (gained value γ' n))) ∧
      ((γ' n.id).isSome ↔ (γ n.id).isSome ∨ ∃ c ∈ cs, Reaches γ' c n) := by
  induction sweep with
  | nil =>
    rw [List.flatMap_nil, Tensor.plus_total_nil (proper.buffer memN)]
    simp
  | @cons c rest γ γ₁ γ' visit sweep ih =>
    obtain ⟨older, sorted'⟩ := List.pairwise_cons.mp sorted
    have memC := mem c (by simp)
    have final := Sweep.final wf mem older visit sweep
    obtain ⟨now, reachesNow⟩ := visit.gains wf proper memC memN trainable
    obtain ⟨later, reachesLater⟩ := ih (proper.visit wf memC visit)
      (fun d inside => mem d (by simp [inside])) sorted'
    have sameReaches : Reaches γ' c n ↔ Reaches γ c n := by
      rw [Reaches, final, Reaches]
    have sameGained : gained value γ' n c = gained value γ n c := by
      rw [gained, final, gained]
    rw [later, now, Tensor.plus_total_append (proper.buffer memN), List.flatMap_cons, sameGained,
      reachesLater, reachesNow]
    exact ⟨rfl, by simp [sameReaches, or_assoc]⟩

theorem Proper.sweep (wf : Graph.WellFormed known g) (proper : Proper known γ) {cs : List (Node α)}
    (mem : ∀ c ∈ cs, known c) (sweep : Sweep value cs γ γ') : Proper known γ' := by
  induction sweep with
  | nil => exact proper
  | @cons c _ _ _ _ visit _ ih =>
    exact ih (proper.visit wf (mem c (by simp)) visit) fun d inside => mem d (by simp [inside])

/-- What the nodes with gradients contribute in a sweep can be had. -/
theorem Sweep.had (wf : Graph.WellFormed known g) (proper : Proper known γ) {cs : List (Node α)}
    (mem : ∀ c ∈ cs, known c) (sorted : cs.Pairwise fun c n => n.id < c.id)
    (sweep : Sweep value cs γ γ') {s : Stamp} {op : Operator α} {inputs : List (Node α)}
    (inside : .apply s op inputs ∈ cs) {grad : Tensor α} (found : γ' s.id = some grad) :
    ∃ out ts, value (.apply s op inputs) = some out ∧ Yields value inputs ts ∧
      ∀ entry ∈ op.contributions ts out grad (inputs.map Node.trainable), Had inputs entry := by
  induction sweep with
  | nil => cases inside
  | @cons c rest γ γ₁ γ' visit sweep ih =>
    obtain ⟨older, sorted'⟩ := List.pairwise_cons.mp sorted
    have memC := mem c (by simp)
    rcases List.mem_cons.mp inside with rfl | inside
    · have here : γ s.id = some grad := (Sweep.final wf mem older visit sweep).symm.trans found
      cases visit with
      | pass idle =>
        have := (proper _ memC grad here).2
        rcases idle with fixed | none
        · simp [Node.trainable, Node.stamp, fixed] at this
        · cases none.symm.trans here
      | step _ reached output yields added =>
        cases here.symm.trans reached
        have memInputs : ∀ i ∈ inputs, known i := fun i input => wf.known_inputs memC input
        exact ⟨_, _, output, yields, addAll_had wf memInputs (proper.openAll wf memInputs) added⟩
    · exact ih (proper.visit wf memC visit) (fun d inside => mem d (by simp [inside])) sorted'
        inside found

/-! ### Seeds -/

/-- A seed has the extents of its root. -/
def Fits (root : Node α × Option Literal) : Prop :=
  ∀ e : Tensor α, Graph.seedElements root.1.signature root.2 = .ok e → e.shape = root.1.shape.extents

theorem seed_gains (wf : Graph.WellFormed known g) (proper : Proper known γ)
    {root : Node α × Option Literal} (mem : known root.1) (fits : Fits root)
    (seeded : γ.seed root = .ok γ') {n : Node α} (memN : known n) (trainable : n.trainable = true) :
    γ'.buffer n = (γ.buffer n).plus (Tensor.total n.shape.extents (n.seeds [root])) ∧
      ((γ' n.id).isSome ↔ (γ n.id).isSome ∨ n = root.1) := by
  have shape := proper.buffer memN
  rw [Node.seeds, List.flatMap_singleton]
  unfold Gradients.seed at seeded
  by_cases same : root.1.id = n.id
  · obtain rfl := wf.unique mem memN same
    rw [if_pos trainable, bind_eq_ok] at seeded
    obtain ⟨e, elements, added⟩ := seeded
    obtain ⟨t, sum, rfl⟩ := add_eq_ok.mp added
    have sum := Contribution.addTo_inPlace ((fits e elements).trans shape.symm) sum
    rw [if_pos rfl, elements, buffer_of_some (put_self t), sum, put_self]
    exact ⟨(Tensor.plus_total_single shape).symm, by simp⟩
  · have other : n ≠ root.1 := fun h => same (h ▸ rfl)
    rw [if_neg same, Tensor.plus_total_nil shape]
    split at seeded
    · obtain ⟨e, _, added⟩ := bind_eq_ok.mp seeded
      obtain ⟨t, _, rfl⟩ := add_eq_ok.mp added
      have stays : γ.put root.1 t n.id = γ n.id := put_of_ne fun h => same h.symm
      rw [buffer, stays, buffer]
      exact ⟨rfl, by simp [other]⟩
    · cases seeded
      exact ⟨rfl, by simp [other]⟩

omit [Element.Exact α] in
theorem Proper.seed (wf : Graph.WellFormed known g) (proper : Proper known γ)
    {root : Node α × Option Literal} (mem : known root.1) (seeded : γ.seed root = .ok γ') :
    Proper known γ' := by
  unfold Gradients.seed at seeded
  split at seeded
  next trainable =>
    obtain ⟨e, _, added⟩ := bind_eq_ok.mp seeded
    exact proper.add wf mem trainable added
  · cases seeded
    exact proper

theorem seedAll_gains (wf : Graph.WellFormed known g) (proper : Proper known γ)
    {started : List (Node α × Option Literal)} (mem : ∀ root ∈ started, known root.1)
    (fits : ∀ root ∈ started, Fits root) (seeded : seedAll started γ = .ok γ') {n : Node α}
    (memN : known n) (trainable : n.trainable = true) :
    γ'.buffer n = (γ.buffer n).plus (Tensor.total n.shape.extents (n.seeds started)) ∧
      ((γ' n.id).isSome ↔ (γ n.id).isSome ∨ n ∈ started.map Prod.fst) := by
  induction started generalizing γ with
  | nil =>
    cases seeded
    rw [Node.seeds, List.flatMap_nil, Tensor.plus_total_nil (proper.buffer memN)]
    simp
  | cons root rest ih =>
    obtain ⟨γ₁, first, others⟩ := seedAll_cons_eq_ok.mp seeded
    obtain ⟨now, reachesNow⟩ := seed_gains wf proper (mem root (by simp)) (fits root (by simp)) first
      memN trainable
    obtain ⟨later, reachesLater⟩ := ih (proper.seed wf (mem root (by simp)) first)
      (fun r inside => mem r (by simp [inside])) (fun r inside => fits r (by simp [inside])) others
    rw [later, now, Tensor.plus_total_append (proper.buffer memN), reachesLater, reachesNow,
      Node.seeds, Node.seeds, Node.seeds, List.flatMap_singleton, List.flatMap_cons]
    exact ⟨rfl, by simp [or_assoc]⟩

omit [Element.Exact α] in
theorem Proper.seedAll (wf : Graph.WellFormed known g) (proper : Proper known γ)
    {started : List (Node α × Option Literal)} (mem : ∀ root ∈ started, known root.1)
    (seeded : Gradients.seedAll started γ = .ok γ') : Proper known γ' := by
  induction started generalizing γ with
  | nil =>
    cases seeded
    exact proper
  | cons root rest ih =>
    obtain ⟨γ₁, first, others⟩ := seedAll_cons_eq_ok.mp seeded
    exact ih (proper.seed wf (mem root (by simp)) first) (fun r inside => mem r (by simp [inside]))
      others

omit [Element.Exact α] in
theorem eq_of_buffer {n : Node α} (same : γ'.buffer n = γ.buffer n)
    (found : (γ' n.id).isSome ↔ (γ n.id).isSome) : γ' n.id = γ n.id := by
  rw [buffer, buffer] at same
  cases here : γ' n.id <;> cases there : γ n.id <;> simp_all

omit [Element.Exact α] in
theorem eq_some_buffer {n : Node α} (found : (γ n.id).isSome) : γ n.id = some (γ.buffer n) := by
  obtain ⟨t, here⟩ := Option.isSome_iff_exists.mp found
  rw [buffer_of_some here, here]

end Exact

end Gradients

/-! ### Adjoints -/

namespace Graph

variable {known : Node α → Prop} {g : Graph α} {started : List (Node α × Option Literal)}

/-- The equations have one solution: the adjoint of a node depends on those of its consumers,
which are younger. -/
theorem Adjoint.unique (wf : WellFormed known g) {adj adj' : Node α → Option (Tensor α)}
    (h : Adjoint known g started adj) (h' : Adjoint known g started adj') {n : Node α}
    (mem : known n) : adj n = adj' n := by
  induction measure : g.slots.size - n.id using Nat.strongRecOn generalizing n with
  | ind k ih =>
    have consumers : ∀ c ∈ g.tape.toList, n ∈ c.inputs → adj c = adj' c := by
      intro c on input
      have memC := wf.known_of_tape on
      have less := (wf.inputs memC input).2
      have bound := wf.bound memC
      exact ih (g.slots.size - c.id) (by omega) memC rfl
    have gained : ∀ c ∈ g.tape.toList, n.gained g.den (adj c) c = n.gained g.den (adj' c) c := by
      intro c on
      by_cases input : n ∈ c.inputs
      · rw [consumers c on input]
      · have other : ∀ i ∈ c.inputs, i.id ≠ n.id := fun i inside same =>
          input (wf.unique (wf.known_inputs (wf.known_of_tape on) inside) mem same ▸ inside)
        unfold Node.gained
        cases adj c <;> cases adj' c <;> simp [Gradients.amounts_other other]
    have reached : (adj n).isSome ↔ (adj' n).isSome := by
      rw [h.reached n mem, h'.reached n mem]
      refine and_congr_right fun _ => or_congr_right (exists_congr fun c => ?_)
      refine and_congr_right fun on => ⟨?_, ?_⟩
      · rintro ⟨found, input⟩
        exact ⟨consumers c on input ▸ found, input⟩
      · rintro ⟨found, input⟩
        exact ⟨consumers c on input ▸ found, input⟩
    cases found : adj n with
    | none =>
      rw [found] at reached
      exact (Option.not_isSome_iff_eq_none.mp fun h => by simpa using reached.mpr h).symm
    | some t =>
      obtain ⟨t', found'⟩ := Option.isSome_iff_exists.mp (reached.mp (by simp [found]))
      rw [found', h.sum n mem t found, h'.sum n mem t' found', List.flatMap_congr gained]

/-- Whether a pass with these gradients in the end has reached a node. -/
def Reached (g : Graph α) (started : List (Node α × Option Literal)) (γ : Gradients α)
    (n : Node α) : Prop :=
  n.trainable = true ∧
    (n ∈ started.map Prod.fst ∨ ∃ c ∈ g.tape.toList, (γ c.id).isSome ∧ n ∈ c.inputs)

open Classical in
/-- The adjoints of a pass, from its gradients in the end. -/
noncomputable def adjoint (g : Graph α) (started : List (Node α × Option Literal))
    (γ : Gradients α) (n : Node α) : Option (Tensor α) :=
  if g.Reached started γ n then
    some (Tensor.total n.shape.extents
      (n.seeds started ++ g.tape.toList.flatMap (Gradients.gained g.den γ n)))
  else none

theorem isSome_adjoint {γ : Gradients α} {n : Node α} :
    (g.adjoint started γ n).isSome ↔ g.Reached started γ n := by
  unfold adjoint
  split <;> simp_all

section Exact

variable [Element.Exact α] {γ₀ γ₁ γ' : Gradients α}

/-- Where the seeds and a sweep over the tape take some gradients, in terms of adjoints. -/
theorem sweep_adjoint (wf : WellFormed known g) (proper : Gradients.Proper known γ₀)
    (mem : ∀ root ∈ started, known root.1) (fits : ∀ root ∈ started, Gradients.Fits root)
    (seeded : Gradients.seedAll started γ₀ = .ok γ₁)
    (sweep : Gradients.Sweep g.den g.tape.toList.reverse γ₁ γ') {n : Node α} (memN : known n) :
    γ' n.id = match g.adjoint started γ' n with
      | some t => some ((γ₀.buffer n).plus t)
      | none => γ₀ n.id := by
  have onTape : ∀ c ∈ g.tape.toList.reverse, known c := fun c inside =>
    wf.known_of_tape (List.mem_reverse.mp inside)
  have proper₁ := proper.seedAll wf mem seeded
  cases trainable : n.trainable with
  | false =>
    have untouched : ∀ γ : Gradients α, Gradients.Proper known γ → γ n.id = none := by
      intro γ proper
      refine Option.eq_none_iff_forall_ne_some.mpr fun t found => ?_
      simp [(proper n memN t found).2] at trainable
    have unreached : ¬ g.Reached started γ' n := fun reached => by
      simp [reached.1] at trainable
    rw [adjoint, if_neg unreached, untouched γ' (proper₁.sweep wf onTape sweep), untouched γ₀ proper]
  | true =>
    obtain ⟨seeds, seedReaches⟩ := Gradients.seedAll_gains wf proper mem fits seeded memN trainable
    obtain ⟨gains, reaches⟩ := sweep.gains wf proper₁ onTape
      (List.pairwise_reverse.mpr wf.sorted) memN trainable
    have shape := proper.buffer memN
    rw [seeds, Tensor.plus_total_append shape] at gains
    have reached : g.Reached started γ' n ↔ n ∈ started.map Prod.fst ∨
        ∃ c ∈ g.tape.toList.reverse, Gradients.Reaches γ' c n := by
      simp [Reached, Gradients.Reaches, trainable]
    rw [seedReaches, or_assoc, ← reached] at reaches
    by_cases now : g.Reached started γ' n
    · rw [adjoint, if_pos now, Gradients.eq_some_buffer (reaches.mpr (.inr now)), gains]
      refine congrArg (fun t => some ((γ₀.buffer n).plus t)) (Tensor.total_perm ?_)
      exact ((List.reverse_perm _).flatMap_right _).append_left _
    · rw [adjoint, if_neg now]
      have noSeeds : n.seeds started = [] := by
        refine List.flatMap_eq_nil_iff.mpr fun root inside => if_neg fun same => now ?_
        obtain rfl := wf.unique (mem root inside) memN same
        exact ⟨trainable, .inl (List.mem_map_of_mem inside)⟩
      have noGains : g.tape.toList.reverse.flatMap (Gradients.gained g.den γ' n) = [] :=
        List.flatMap_eq_nil_iff.mpr fun c inside =>
          Gradients.gained_of_not_reaches wf (onTape c inside) memN trainable fun reaches =>
            now (reached.mpr (.inr ⟨c, inside, reaches⟩))
      rw [noSeeds, noGains, List.append_nil, Tensor.plus_total_nil shape] at gains
      exact Gradients.eq_of_buffer gains (reaches.trans (or_iff_left now))

/-- An application that had no gradient is left with its adjoint. -/
theorem sweep_application (wf : WellFormed known g) (proper : Gradients.Proper known γ₀)
    (mem : ∀ root ∈ started, known root.1) (fits : ∀ root ∈ started, Gradients.Fits root)
    (seeded : Gradients.seedAll started γ₀ = .ok γ₁)
    (sweep : Gradients.Sweep g.den g.tape.toList.reverse γ₁ γ') {n : Node α} (memN : known n)
    (clean : γ₀ n.id = none) : γ' n.id = g.adjoint started γ' n := by
  rw [sweep_adjoint wf proper mem fits seeded sweep memN, Gradients.buffer, clean]
  by_cases reached : g.Reached started γ' n
  · rw [adjoint, if_pos reached]
    exact congrArg some Tensor.zeros_plus_total
  · rw [adjoint, if_neg reached]

theorem adjoint_adjoint (wf : WellFormed known g) (proper : Gradients.Proper known γ₀)
    (mem : ∀ root ∈ started, known root.1) (fits : ∀ root ∈ started, Gradients.Fits root)
    (clean : ∀ n ∈ g.tape.toList, n.isLeaf = false → γ₀ n.id = none)
    (seeded : Gradients.seedAll started γ₀ = .ok γ₁)
    (sweep : Gradients.Sweep g.den g.tape.toList.reverse γ₁ γ') :
    Adjoint known g started (g.adjoint started γ') := by
  have same : ∀ c ∈ g.tape.toList, c.isLeaf = false → γ' c.id = g.adjoint started γ' c :=
    fun c on inner => sweep_application wf proper mem fits seeded sweep (wf.known_of_tape on)
      (clean c on inner)
  have inner : ∀ {c n : Node α}, n ∈ c.inputs → c.isLeaf = false := by
    intro c n input
    cases c with
    | leaf => simp [Node.inputs] at input
    | apply => rfl
  constructor
  · intro n _
    rw [isSome_adjoint, Reached]
    refine and_congr_right fun _ => or_congr_right (exists_congr fun c => ?_)
    refine and_congr_right fun on => and_congr_left fun input => ?_
    rw [same c on (inner input)]
  · intro s op inputs on grad found
    have found : γ' s.id = some grad := (same _ on rfl).trans found
    exact sweep.had wf (proper.seedAll wf mem seeded)
      (fun c inside => wf.known_of_tape (List.mem_reverse.mp inside))
      (List.pairwise_reverse.mpr wf.sorted) (List.mem_reverse.mpr on) found
  · intro n _ t found
    have reached : g.Reached started γ' n := isSome_adjoint.mp (by simp [found])
    rw [adjoint, if_pos reached, Option.some.injEq] at found
    rw [← found]
    refine congrArg (fun ts => Tensor.total _ (_ ++ ts)) (List.flatMap_congr fun c on => ?_)
    cases c with
    | leaf =>
      unfold Gradients.gained Node.gained
      cases γ' _ <;> cases g.adjoint started γ' _ <;> rfl
    | apply s op inputs => rw [Gradients.gained, same _ on rfl]

end Exact

/-- The seeds of an accepted pass have the extents of their roots. -/
theorem fits_started {roots : Roots α} {seeds : Seeds}
    (accepted : g.checkBackward roots seeds = .ok started) :
    ∀ root ∈ started, Gradients.Fits root := by
  obtain ⟨_, _, _, inputs, _, checked⟩ := checkBackward_eq_ok accepted
  rintro ⟨n, literal⟩ inside e elements
  cases literal with
  | none =>
    cases elements
    rfl
  | some literal =>
    obtain ⟨⟨root, seed⟩, _, accepted⟩ := mapM_eq_ok_mem checked _ inside
    obtain ⟨values, stores, elements⟩ := bind_eq_ok.mp elements
    rw [← pure_eq_ok.mp elements]
    obtain ⟨_, _, _, fits⟩ := checkRoot_eq_ok accepted
    exact (literal.store_shape stores).trans (fits literal rfl)

end Graph

namespace World

open ReverseMode.Graph

/-- Backward passes compute the chain rule. A pass that ends adds to every leaf its adjoint and
leaves one that it does not reach alone; applications of the tape whose gradients are kept hold
their adjoints, and nothing where they are not reached. -/
theorem backward_chain_rule [Element.Exact α] {w : World α} (reachable : Reachable w)
    (fresh : w.fresh) {roots : Roots α} {seeds : Seeds}
    (admissible : w.Admissible (.backward roots seeds))
    {started : List (Node α × Option Literal)}
    (accepted : w.graph.checkBackward roots seeds = .ok started) {g : Graph α}
    (answered : backward roots seeds w.graph = .ok () g) :
    ∃ adj, Adjoint w.known w.graph started adj ∧
      (∀ adj', Adjoint w.known w.graph started adj' → ∀ n, w.known n → adj' n = adj n) ∧
      (∀ n, w.known n → n.isLeaf = true →
        g.grad? n.id = match adj n with
          | some t => some ((w.graph.buffer n).plus t)
          | none => w.graph.grad? n.id) ∧
      ∀ n ∈ w.graph.tape.toList, n.isLeaf = false →
        ((g.slot n.id).retained = true ∨ w.graph.settings.releaseMemory = false) →
        g.grad? n.id = adj n := by
  have faithful := reachable.invariant.faithful fresh
  have wf := faithful.toWellFormed
  have drops := dropGrads_through wf faithful.toSound
  have clean : ∀ n ∈ w.graph.tape.toList, n.isLeaf = false → w.graph.dropGrads.grad? n.id = none :=
    fun n on inner => (dropGrads_grad? wf (wf.known_of_tape on)).2 inner on
  have leaves : ∀ n, w.known n → n.isLeaf = true →
      w.graph.dropGrads.grad? n.id = w.graph.grad? n.id :=
    fun n mem leaf => (dropGrads_grad? wf mem).1 leaf
  have proper : Gradients.Proper w.known w.graph.dropGrads.grad? := fun n mem t found =>
    have sound := drops.sound faithful.toSound
    ⟨sound.gradShape mem found, sound.gradTrainable mem (by simp [found])⟩
  have usable := known_started faithful.toSound admissible accepted
  have mem : ∀ root ∈ started, w.known root.1 := fun root inside => (usable root inside).1
  have fits := fits_started accepted
  obtain ⟨γ₁, γ', seeded, sweep, kept⟩ :=
    backward_sweep faithful admissible accepted answered leaves clean
  have adjoint := adjoint_adjoint wf proper mem fits clean seeded sweep
  have through : Changes w.known w.graph (after (backward roots seeds w.graph)) :=
    backward_through faithful.toSound admissible faithful.toSound
  rw [answered, after_ok] at through
  have outline := Changes.outline through
  refine ⟨_, adjoint, fun adj' other n memN => other.unique wf adjoint memN, ?_, ?_⟩
  · intro n memN leaf
    rw [kept n ⟨memN, .inl leaf⟩, sweep_adjoint wf proper mem fits seeded sweep memN,
      Gradients.buffer, leaves n memN leaf]
    rfl
  · intro n on inner keeps
    have memN := wf.known_of_tape on
    have keeps : g.KeepsGrad n := .inr ⟨(tape_of_outline outline).symm ▸ on, by
      rwa [settings_of_outline outline]⟩
    rw [kept n ⟨memN, keeps⟩]
    exact sweep_application wf proper mem fits seeded sweep memN (clean n on inner)

end World

namespace Sample

open ReverseMode.Graph World

/-- The sum twice, and the square, which it is computed from. -/
def roots : Roots Int := .many [.node sum, .node sum, .node square]

theorem passed_chain_rule : ∃ started g adj, passed.graph.checkBackward roots .ones = .ok started ∧
    backward roots .ones passed.graph = .ok () g ∧ Adjoint passed.known passed.graph started adj ∧
    (g.grad? x.id).map Tensor.toList = some [20, 20] ∧
    ∃ t, adj x = some t ∧ g.grad? x.id = some ((passed.graph.buffer x).plus t) := by
  have admissible : passed.Admissible (.backward roots .ones) := by
    intro n inside _
    simp [Request.nodes, Roots.nodes, roots, Input.nodes] at inside
    rcases inside with rfl | rfl
    · exact .inl (.inl (.inr rfl))
    · exact .inl (.inl (.inl (.inr rfl)))
  obtain ⟨_, ran⟩ := answer_of_answers (r := backward roots .ones passed.graph) (by decide +kernel)
  obtain ⟨started, accepted⟩ : ∃ started, passed.graph.checkBackward roots .ones = .ok started := by
    have : (passed.graph.checkBackward roots .ones).isOk = true := by decide +kernel
    cases checked : passed.graph.checkBackward roots .ones with
    | ok started => exact ⟨started, rfl⟩
    | error => simp [checked, Except.isOk, Except.toBool] at this
  obtain ⟨adj, adjoint, _, leaves, _⟩ :=
    backward_chain_rule passed_reachable passed_fresh admissible accepted ran
  have grad : ((after (backward roots .ones passed.graph)).grad? x.id).map Tensor.toList =
      some [20, 20] := by decide +kernel
  refine ⟨started, _, adj, accepted, ran, adjoint, grad, ?_⟩
  have leaf := leaves x (.inl (.inl (.inl (.inl (.inr rfl))))) rfl
  cases reached : adj x with
  | some t => exact ⟨t, rfl, by rw [leaf, reached]⟩
  | none =>
    have before : (passed.graph.grad? x.id).isNone = true := by decide +kernel
    rw [leaf, reached, Option.isNone_iff_eq_none.mp before] at grad
    cases grad

end Sample

end ReverseMode
