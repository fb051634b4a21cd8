import ReverseMode.Proofs.Recall

/-!
Sweeps: backward passes over gradients alone.

A sweep visits nodes in order and adds the contributions of every node that has a gradient to
the gradients of its inputs. It sees the values of nodes but not how a graph comes by them,
and it keeps every gradient. `Visit` is the step of one node and `Sweep` a run of steps; both
read and change the gradients of the nodes at hand only.
-/

namespace ReverseMode

/-- The gradients of nodes by their ids. -/
abbrev Gradients (α : Type) := Nat → Option (Tensor α)

namespace Gradients

variable {α : Type}

/-- A gradient in place of the one of a node. -/
def put (γ : Gradients α) (n : Node α) (t : Tensor α) : Gradients α :=
  Function.update γ n.id (some t)

/-- The same gradients for some nodes. -/
def Agree (P : Node α → Prop) (γ δ : Gradients α) : Prop := ∀ n, P n → γ n.id = δ n.id

section Put

variable {P : Node α → Prop} {γ δ : Gradients α}

theorem put_self {n : Node α} (t : Tensor α) : γ.put n t n.id = some t := by
  simp [put]

theorem put_of_ne {n : Node α} {t : Tensor α} {id : Nat} (other : id ≠ n.id) :
    γ.put n t id = γ id := by
  simp [put, Function.update_of_ne other]

theorem Agree.mono (agree : Agree P γ δ) {Q : Node α → Prop} (weaker : ∀ n, Q n → P n) :
    Agree Q γ δ := fun n inside => agree n (weaker n inside)

theorem Agree.put (agree : Agree P γ δ) (n : Node α) (t : Tensor α) :
    Agree P (γ.put n t) (δ.put n t) := by
  intro m inside
  by_cases same : m.id = n.id
  · rw [same, put_self, put_self]
  · rw [put_of_ne same, put_of_ne same]
    exact agree m inside

end Put

variable [Element α]

/-- The gradient that a node has or would get on first use. -/
def buffer (γ : Gradients α) (n : Node α) : Tensor α :=
  (γ n.id).getD (Graph.zeros n.signature)

/-- Gradients for the trainable ones among some nodes. -/
def openAll : List (Node α) → Gradients α → Gradients α
  | [], γ => γ
  | i :: rest, γ => openAll rest (if i.trainable then γ.put i (γ.buffer i) else γ)

/-- A contribution added to the gradient of a node. -/
def add (n : Node α) (c : Contribution α) (γ : Gradients α) : Except Fault (Gradients α) := do
  pure (γ.put n (← c.addTo (γ.buffer n)))

/-- A contribution added to the gradient of the input in a slot, if that is trainable. -/
def addToSlot (inputs : List (Node α)) (slot : Nat) (c : Contribution α) (γ : Gradients α) :
    Except Fault (Gradients α) :=
  match inputs[slot]? with
  | some i => if i.trainable then γ.add i c else .ok γ
  | none => .ok γ

def addAll (inputs : List (Node α)) : Contributions α → Gradients α → Except Fault (Gradients α)
  | [], γ => .ok γ
  | (slot, made) :: rest, γ => do
    let c ← made
    addAll inputs rest (← addToSlot inputs slot c γ)

/-- A seed added to the gradient of a root, if that is trainable. -/
def seed (root : Node α × Option Literal) (γ : Gradients α) : Except Fault (Gradients α) :=
  if root.1.trainable then do
    γ.add root.1 (.inPlace (← Graph.seedElements root.1.signature root.2))
  else .ok γ

def seedAll : List (Node α × Option Literal) → Gradients α → Except Fault (Gradients α)
  | [], γ => .ok γ
  | root :: rest, γ => do seedAll rest (← γ.seed root)

/-- The step of one node: nothing where no gradient has reached it, else its contributions. -/
inductive Visit (value : Node α → Option (Tensor α)) :
    Node α → Gradients α → Gradients α → Prop
  | leaf {s : Stamp} {init : Initializer α} {γ : Gradients α} : Visit value (.leaf s init) γ γ
  | pass {s : Stamp} {op : Operator α} {inputs : List (Node α)} {γ : Gradients α}
      (idle : s.trainable.holds = false ∨ γ s.id = none) : Visit value (.apply s op inputs) γ γ
  | step {s : Stamp} {op : Operator α} {inputs : List (Node α)} {γ γ' : Gradients α}
      {grad out : Tensor α} {ts : List (Tensor α)} (trainable : s.trainable.holds = true)
      (reached : γ s.id = some grad) (output : value (.apply s op inputs) = some out)
      (yields : Yields value inputs ts)
      (added : addAll inputs (op.contributions ts out grad (inputs.map Node.trainable))
        (openAll inputs γ) = .ok γ') : Visit value (.apply s op inputs) γ γ'

/-- The steps of some nodes, one after the other. -/
inductive Sweep (value : Node α → Option (Tensor α)) :
    List (Node α) → Gradients α → Gradients α → Prop
  | nil {γ : Gradients α} : Sweep value [] γ γ
  | cons {n : Node α} {rest : List (Node α)} {γ γ₁ γ' : Gradients α} (visit : Visit value n γ γ₁)
      (sweep : Sweep value rest γ₁ γ') : Sweep value (n :: rest) γ γ'

variable {value value' : Node α → Option (Tensor α)} {γ γ' δ δ' : Gradients α}

theorem add_eq_ok {n : Node α} {c : Contribution α} :
    γ.add n c = .ok γ' ↔ ∃ t, c.addTo (γ.buffer n) = .ok t ∧ γ.put n t = γ' := by
  rw [add, bind_eq_ok]
  simp only [pure_eq_ok]

theorem addAll_cons_eq_ok {inputs : List (Node α)} {slot : Nat}
    {made : Except Fault (Contribution α)} {rest : Contributions α} :
    addAll inputs ((slot, made) :: rest) γ = .ok γ' ↔
      ∃ c γ₁, made = .ok c ∧ addToSlot inputs slot c γ = .ok γ₁ ∧ addAll inputs rest γ₁ = .ok γ' := by
  simp only [addAll, bind_eq_ok]
  constructor
  · rintro ⟨c, made, γ₁, added, rest⟩
    exact ⟨c, γ₁, made, added, rest⟩
  · rintro ⟨c, γ₁, made, added, rest⟩
    exact ⟨c, made, γ₁, added, rest⟩

theorem seedAll_cons_eq_ok {root : Node α × Option Literal}
    {rest : List (Node α × Option Literal)} :
    seedAll (root :: rest) γ = .ok γ' ↔ ∃ γ₁, γ.seed root = .ok γ₁ ∧ seedAll rest γ₁ = .ok γ' := by
  rw [seedAll, bind_eq_ok]

/-- The gradient of a node is left alone when those of other nodes are opened. -/
theorem openAll_other {inputs : List (Node α)} {id : Nat}
    (other : ∀ i ∈ inputs, i.trainable = true → i.id ≠ id) : openAll inputs γ id = γ id := by
  induction inputs generalizing γ with
  | nil => rfl
  | cons i rest ih =>
    rw [openAll, ih fun j input => other j (by simp [input])]
    split
    next trainable => exact put_of_ne (other i (by simp) trainable).symm
    · rfl

/-! ### Sweeps are functions of the gradients -/

theorem Visit.unique {n : Node α} (h : Visit value n γ γ') (h' : Visit value n γ δ') : γ' = δ' := by
  cases h with
  | leaf =>
    cases h'
    rfl
  | pass idle =>
    cases h' with
    | pass => rfl
    | step trainable reached => simp [trainable, reached] at idle
  | step trainable reached output yields added =>
    cases h' with
    | pass idle => simp [trainable, reached] at idle
    | step _ reached' output' yields' added' =>
      cases reached.symm.trans reached'
      cases output.symm.trans output'
      cases yields.unique yields'
      exact Except.ok.inj (added.symm.trans added')

theorem Sweep.unique {ns : List (Node α)} (h : Sweep value ns γ γ') (h' : Sweep value ns γ δ') :
    γ' = δ' := by
  induction h with
  | nil =>
    cases h'
    rfl
  | cons visit _ ih =>
    cases h' with
    | cons visit' rest' =>
      obtain rfl := visit.unique visit'
      exact ih rest'

/-- A step reads the values of a node and its inputs only. -/
theorem Visit.of_values {n : Node α} (h : Visit value n γ γ') (self : value' n = value n)
    (inputs : ∀ m ∈ n.inputs, value' m = value m) : Visit value' n γ γ' := by
  cases h with
  | leaf => exact .leaf
  | pass idle => exact .pass idle
  | step trainable reached output yields added =>
    refine .step trainable reached (self.trans output) (yields.congr fun m input t found => ?_) added
    exact (inputs m input).trans found

theorem Sweep.of_values {ns : List (Node α)} (h : Sweep value ns γ γ')
    (same : ∀ n ∈ ns, value' n = value n ∧ ∀ m ∈ n.inputs, value' m = value m) :
    Sweep value' ns γ γ' := by
  induction h with
  | nil => exact .nil
  | @cons n _ _ _ _ visit _ ih =>
    obtain ⟨self, inputs⟩ := same n (by simp)
    exact .cons (visit.of_values self inputs) (ih fun m mem => same m (by simp [mem]))

/-! ### Steps where gradients agree -/

variable {P : Node α → Prop}

theorem Agree.buffer (agree : Agree P γ δ) {n : Node α} (inside : P n) : γ.buffer n = δ.buffer n := by
  rw [Gradients.buffer, agree n inside, Gradients.buffer]

theorem Agree.add (agree : Agree P γ δ) {n : Node α} (inside : P n) {c : Contribution α}
    (added : γ.add n c = .ok γ') : ∃ δ', δ.add n c = .ok δ' ∧ Agree P γ' δ' := by
  obtain ⟨t, sum, rfl⟩ := add_eq_ok.mp added
  rw [agree.buffer inside] at sum
  exact ⟨δ.put n t, add_eq_ok.mpr ⟨t, sum, rfl⟩, agree.put n t⟩

theorem Agree.openAll (agree : Agree P γ δ) {inputs : List (Node α)} (inside : ∀ i ∈ inputs, P i) :
    Agree P (openAll inputs γ) (openAll inputs δ) := by
  induction inputs generalizing γ δ with
  | nil => exact agree
  | cons i rest ih =>
    refine ih ?_ fun j mem => inside j (by simp [mem])
    split
    · rw [agree.buffer (inside i (by simp))]
      exact agree.put i _
    · exact agree

theorem Agree.addToSlot (agree : Agree P γ δ) {inputs : List (Node α)}
    (inside : ∀ i ∈ inputs, P i) {slot : Nat} {c : Contribution α}
    (added : addToSlot inputs slot c γ = .ok γ') :
    ∃ δ', addToSlot inputs slot c δ = .ok δ' ∧ Agree P γ' δ' := by
  unfold Gradients.addToSlot at added ⊢
  split at added
  next i found =>
    split at added
    next trainable =>
      simp only [trainable, if_true]
      exact agree.add (inside i (List.mem_of_getElem? found)) added
    next idle =>
      cases added
      simp only [idle]
      exact ⟨δ, rfl, agree⟩
  next =>
    cases added
    exact ⟨δ, rfl, agree⟩

theorem Agree.addAll (agree : Agree P γ δ) {inputs : List (Node α)} (inside : ∀ i ∈ inputs, P i)
    {cs : Contributions α} (added : addAll inputs cs γ = .ok γ') :
    ∃ δ', addAll inputs cs δ = .ok δ' ∧ Agree P γ' δ' := by
  induction cs generalizing γ δ with
  | nil =>
    cases added
    exact ⟨δ, rfl, agree⟩
  | cons entry rest ih =>
    obtain ⟨slot, made⟩ := entry
    obtain ⟨c, γ₁, had, first, others⟩ := addAll_cons_eq_ok.mp added
    obtain ⟨δ₁, first', agree₁⟩ := agree.addToSlot inside first
    obtain ⟨δ', others', agree'⟩ := ih agree₁ others
    exact ⟨δ', addAll_cons_eq_ok.mpr ⟨c, δ₁, had, first', others'⟩, agree'⟩

theorem Agree.seed (agree : Agree P γ δ) {root : Node α × Option Literal} (inside : P root.1)
    (seeded : γ.seed root = .ok γ') : ∃ δ', δ.seed root = .ok δ' ∧ Agree P γ' δ' := by
  unfold Gradients.seed at seeded ⊢
  split at seeded
  next trainable =>
    obtain ⟨e, elements, added⟩ := bind_eq_ok.mp seeded
    obtain ⟨δ', added', agree'⟩ := agree.add inside added
    exact ⟨δ', by rw [if_pos trainable]; exact bind_eq_ok.mpr ⟨e, elements, added'⟩, agree'⟩
  next idle =>
    cases seeded
    exact ⟨δ, by rw [if_neg idle], agree⟩

theorem Agree.seedAll (agree : Agree P γ δ) {roots : List (Node α × Option Literal)}
    (inside : ∀ root ∈ roots, P root.1) (seeded : seedAll roots γ = .ok γ') :
    ∃ δ', seedAll roots δ = .ok δ' ∧ Agree P γ' δ' := by
  induction roots generalizing γ δ with
  | nil =>
    cases seeded
    exact ⟨δ, rfl, agree⟩
  | cons root rest ih =>
    obtain ⟨γ₁, first, others⟩ := seedAll_cons_eq_ok.mp seeded
    obtain ⟨δ₁, first', agree₁⟩ := agree.seed (inside root (by simp)) first
    obtain ⟨δ', others', agree'⟩ := ih agree₁ (fun r mem => inside r (by simp [mem])) others
    exact ⟨δ', seedAll_cons_eq_ok.mpr ⟨δ₁, first', others'⟩, agree'⟩

theorem Agree.visit (agree : Agree P γ δ) {n : Node α} (self : P n) (inside : ∀ m ∈ n.inputs, P m)
    (visit : Visit value n γ γ') : ∃ δ', Visit value n δ δ' ∧ Agree P γ' δ' := by
  have same := agree n self
  cases visit with
  | leaf => exact ⟨δ, .leaf, agree⟩
  | pass idle => exact ⟨δ, .pass (idle.imp_right fun none => same.symm.trans none), agree⟩
  | step trainable reached output yields added =>
    obtain ⟨δ', added', agree'⟩ := (agree.openAll inside).addAll inside added
    exact ⟨δ', .step trainable (same.symm.trans reached) output yields added', agree'⟩

end Gradients

end ReverseMode
