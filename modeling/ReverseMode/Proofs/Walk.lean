import ReverseMode.Proofs.BackwardPass

/-!
What passes are made of.

A pass computes nodes, opens gradients, and makes moves that cannot fail: something is dropped,
added up, flagged or noted. A property of calls that is kept when calls follow each other and
that calls have which only move is had by whole passes, once it has been shown of their parts:
forward passes are made of computations (`Climb`), backward passes of nodes made available and
of gradients that are opened (`Walk`).
-/

namespace ReverseMode

variable {α : Type}

namespace Graph

/-- A change that passes make of a graph and that cannot fail. -/
inductive Move (known : Node α → Prop) (g : Graph α) : Graph α → Prop
  | drop {n : Node α} (mem : known n) (inner : n.isLeaf = false) :
      Move known g (g.releaseValue n.id)
  | dropGrad {n : Node α} (mem : known n) (inner : n.isLeaf = false) :
      Move known g (g.releaseGrad n.id)
  | setGrad {n : Node α} (mem : known n) {t : Tensor α}
      (shaped : ∀ t', g.grad? n.id = some t' → t.shape = t'.shape) :
      Move known g (g.setGrad n.id t)
  | retain {n : Node α} (mem : known n) :
      Move known g (g.modifySlot n.id fun s => { s with retained := true })
  | count (n : Node α) : Move known g (g.countRecomputation n)
  | record : Move known g g.record
  | report (r : Report) : Move known g (g.report r)

/-- Moves one after the other. -/
abbrev Moves (known : Node α → Prop) : Graph α → Graph α → Prop :=
  Relation.ReflTransGen (Move known)

/-- A property of calls, each in the state it starts from, that is kept when calls follow each
other and that calls have which only move. -/
structure Steps (known : Node α → Prop) (P : (β : Type) → Graph α → GraphM α β → Prop) :
    Prop where
  closed : ∀ {n m : Node α}, known n → m ∈ n.inputs → known m
  bind : ∀ {β γ : Type} {g : Graph α} {x : GraphM α β} {f : β → GraphM α γ}, P β g x →
    (∀ b g', x g = .ok b g' → P γ g' (f b)) → P γ g (x >>= f)
  moves : ∀ {β : Type} {g g' : Graph α} {x : GraphM α β} {b : β}, Moves known g g' →
    x g = .ok b g' → P β g x

/-- What forward passes over known nodes inherit from the computations of nodes. -/
structure Climb [Element α] (known : Node α → Prop)
    (P : (β : Type) → Graph α → GraphM α β → Prop) : Prop extends Steps known P where
  compute : ∀ {n : Node α} (g : Graph α), known n → P Unit g (compute n)

/-- What other passes inherit from calls that refuse, from nodes made available, and from
gradients that are opened. -/
structure Walk [Element α] (known : Node α → Prop)
    (P : (β : Type) → Graph α → GraphM α β → Prop) : Prop extends Steps known P where
  refuse : ∀ {β : Type} {g : Graph α} {x : GraphM α β} {f : Fault}, x g = .error f g → P β g x
  ensure : ∀ {n : Node α} (g : Graph α), known n → P Unit g (ensure n)
  buffer : ∀ {n : Node α} (g : Graph α), known n → n.trainable = true →
    P (Tensor α) g (gradBuffer n)

variable {known : Node α → Prop}

theorem Move.tape {g g' : Graph α} (move : Move known g g') : g'.tape = g.tape := by
  cases move with
  | drop => exact tape_of_outline (outline_releaseValue g _)
  | dropGrad => exact tape_of_outline (outline_releaseGrad g _)
  | setGrad => exact tape_of_outline (outline_modifySlot g _ _)
  | retain => exact tape_of_outline (outline_modifySlot g _ _)
  | count n => exact tape_of_outline (outline_countRecomputation g n)
  | record => rfl
  | report => rfl

theorem Moves.tape {g g' : Graph α} (moves : Moves known g g') : g'.tape = g.tape := by
  induction moves with
  | refl => rfl
  | tail _ move ih => exact move.tape.trans ih

theorem Moves.foldl {β : Type} {f : Graph α → β → Graph α} {bs : List β}
    (each : ∀ b ∈ bs, ∀ g, Moves known g (f g b)) (g : Graph α) :
    Moves known g (bs.foldl f g) := by
  induction bs generalizing g with
  | nil => exact .refl
  | cons b bs ih =>
    exact (each b (by simp) g).trans (ih (fun c mem => each c (by simp [mem])) (f g b))

theorem passInputs_moves {is : List (Node α)} (mem : ∀ i ∈ is, known i) (p : Pending)
    (g : Graph α) : Moves known g (is.foldl passInput (g, p)).1 := by
  induction is generalizing g p with
  | nil => exact .refl
  | cons i is ih =>
    refine Relation.ReflTransGen.trans ?_ (ih (fun j mem' => mem j (by simp [mem'])) _ _)
    split
    next last =>
      simp only [dropsEarly, Bool.and_eq_true] at last
      exact .single (.drop (mem i (by simp)) (releasable_inner last.2.1))
    · exact .refl

theorem leaveInputs_moves {is : List (Node α)} (mem : ∀ i ∈ is, known i) (p : Pending)
    (g : Graph α) : Moves known g (is.foldl leaveInput (g, p)).1 := by
  induction is generalizing g p with
  | nil => exact .refl
  | cons i is ih =>
    refine Relation.ReflTransGen.trans ?_ (ih (fun j mem' => mem j (by simp [mem'])) _ _)
    split
    next last =>
      simp only [Bool.and_eq_true] at last
      exact .single (.drop (mem i (by simp)) (releasable_inner last.2))
    · exact .refl

theorem dropGrads_moves {g : Graph α} (tape : ∀ n ∈ g.tape.toList, known n) :
    Moves known g g.dropGrads := by
  refine Moves.foldl (fun n on g => ?_) g
  split
  · exact .refl
  next inner => exact .single (.dropGrad (tape n on) (by simpa using inner))

/-- The gradient opened is the one that is held. -/
theorem gradBuffer_only [Element α] {g g' : Graph α} {n : Node α} {t t' : Tensor α}
    (opened : gradBuffer n g = .ok t g') (held : g'.grad? n.id = some t') : t' = t := by
  by_cases bound : n.id < g.slots.size
  · exact Option.some_inj.mp (held.symm.trans (gradBuffer_grad bound opened))
  · -- without a slot there is nothing to hold a gradient
    have size : g'.slots.size = g.slots.size := by
      rw [gradBuffer, answer_bind] at opened
      obtain ⟨_, _, got, opened⟩ := opened
      obtain ⟨rfl, rfl⟩ := answer_get.mp got
      cases grad : g.grad? n.id with
      | some t =>
        simp only [grad] at opened
        rw [← (answer_pure.mp opened).2]
      | none =>
        simp only [grad, answer_bind, answer_allocate, answer_modify, answer_pure] at opened
        obtain ⟨_, _, ⟨_, rfl, rfl⟩, _, _, rfl, rfl, rfl⟩ := opened
        exact size_of_outline (outline_modifySlot _ _ _)
    have empty : g'.slot n.id = {} := by
      rw [slot, Array.getD, dif_neg (by omega)]
    simp [grad?, empty] at held

namespace Steps

variable {P : (β : Type) → Graph α → GraphM α β → Prop} (steps : Steps known P)

include steps

theorem same {β : Type} {g : Graph α} {x : GraphM α β} {b : β} (ran : x g = .ok b g) : P β g x :=
  steps.moves .refl ran

theorem move {β : Type} {g g' : Graph α} {x : GraphM α β} {b : β} (move : Move known g g')
    (ran : x g = .ok b g') : P β g x :=
  steps.moves (.single move) ran

/-- A call that starts by reading the state. -/
theorem read {β : Type} {g : Graph α} {f : Graph α → GraphM α β} (rest : P β g (f g)) :
    P β g (get >>= f) :=
  steps.bind (steps.same rfl) fun _ _ got => by
    obtain ⟨rfl, rfl⟩ := answer_get.mp got
    exact rest

theorem forM {γ : Type} {f : γ → GraphM α PUnit} {as : List γ}
    (each : ∀ a ∈ as, ∀ g, P PUnit g (f a)) (g : Graph α) : P PUnit g (as.forM f) := by
  induction as generalizing g with
  | nil => exact steps.same rfl
  | cons a as ih =>
    exact steps.bind (each a (by simp) g) fun _ g' _ => ih (fun b mem => each b (by simp [mem])) g'

theorem mapM {γ δ : Type} {f : γ → GraphM α δ} {as : List γ}
    (each : ∀ a ∈ as, ∀ g, P δ g (f a)) (g : Graph α) : P (List δ) g (as.mapM f) := by
  induction as generalizing g with
  | nil =>
    rw [List.mapM_nil]
    exact steps.same rfl
  | cons a as ih =>
    rw [List.mapM_cons]
    refine steps.bind (each a (by simp) g) fun _ g' _ => ?_
    exact steps.bind (ih (fun b mem => each b (by simp [mem])) g') fun _ _ _ => steps.same rfl

theorem distinctInputs {n : Node α} (mem : known n) : ∀ i ∈ n.distinctInputs, known i :=
  fun _ input => steps.closed mem (mem_inputs_of_distinct input)

end Steps

/-! ### Forward passes -/

namespace Climb

variable [Element α] {P : (β : Type) → Graph α → GraphM α β → Prop} (climb : Climb known P)

include climb

theorem ensure {n : Node α} (mem : known n) (g : Graph α) : P Unit g (ensure n) := by
  induction n using Node.rec_inputs generalizing g with
  | step n ih =>
    rw [ensure_eq]
    refine climb.read ?_
    split
    · exact climb.same rfl
    · have below := fun (m : { m : Node α // m ∈ n.inputs }) =>
        ih m.val m.property (climb.closed mem m.property)
      refine climb.bind (climb.forM (fun m _ => below m) g) fun _ g₁ _ => ?_
      exact climb.bind (climb.move (.count n) rfl) fun _ g₂ _ => climb.compute g₂ mem

theorem forwardStep {n : Node α} (mem : known n) (p : Pending) (g : Graph α) :
    P Pending g (forwardStep n p) := by
  have below := climb.distinctInputs mem
  refine climb.bind (climb.forM (fun i input => climb.ensure (below i input)) g) fun _ g₁ _ => ?_
  refine climb.bind (climb.compute g₁ mem) fun _ g₂ _ => ?_
  have passed : Moves known g₂ (afterForward n p g₂).2 :=
    (passInputs_moves below p g₂).tail .record
  exact climb.moves passed rfl

theorem forwardFrom {ns : List (Node α)} (mem : ∀ n ∈ ns, known n) (p : Pending) (g : Graph α) :
    P Unit g (forwardFrom ns p) := by
  induction ns generalizing g p with
  | nil => exact climb.same rfl
  | cons n rest ih =>
    rw [forwardFrom_cons]
    exact climb.bind (climb.forwardStep (mem n (by simp)) p g) fun p' g₁ _ =>
      ih (fun m mem' => mem m (by simp [mem'])) p' g₁

theorem uncomputed {g : Graph α} (tape : ∀ n ∈ g.tape.toList, known n) (p : Pending) :
    P Unit g (Graph.forwardFrom g.uncomputed p) :=
  climb.forwardFrom (fun n mem => tape n (mem_uncomputed.mp mem).1) p g

end Climb

namespace Walk

variable [Element α] {P : (β : Type) → Graph α → GraphM α β → Prop} (walk : Walk known P)

include walk

theorem lift {β : Type} (e : Except Fault β) (g : Graph α) : P β g (lift e) := by
  cases e with
  | ok b => exact walk.same rfl
  | error f => exact walk.refuse rfl

theorem writeLog (log : LogSettings) (pieces : Report.Pieces) (g : Graph α) :
    P Unit g (writeLog log pieces) := by
  unfold Graph.writeLog
  dsimp only
  refine walk.bind (walk.move (.report _) rfl) fun _ _ _ => ?_
  split
  · exact walk.refuse rfl
  · exact walk.same rfl

theorem reportDebug (message : Message) (phase title : String) (seen : Tensor α) (g : Graph α) :
    P Unit g (reportDebug message phase title seen) := by
  refine walk.read ?_
  split
  · exact walk.writeLog _ _ g
  · exact walk.move (.report _) rfl

theorem ensured {n : Node α} (mem : known n) (g : Graph α) : P (Tensor α) g (ensured n) := by
  refine walk.bind (walk.ensure g mem) fun _ g₁ _ => walk.read ?_
  split
  · exact walk.same rfl
  · exact walk.refuse rfl

theorem logForward (ns : List (Node α)) (g : Graph α) : P Unit g (logForward ns) := by
  refine walk.read ?_
  split
  · exact walk.writeLog _ _ g
  · exact walk.same rfl

/-- A forward pass notes that it has ended after its nodes have been computed. -/
theorem forward {g : Graph α}
    (pass : ∀ p, P Unit g (forwardFrom g.uncomputed p))
    (marks : ∀ g', P PUnit g' (modify marked)) : P Unit g forward := by
  refine walk.read ?_
  refine walk.bind (pass _) fun _ g₁ _ => ?_
  exact walk.bind (marks g₁) fun _ g₂ _ => walk.logForward _ g₂

/-! ### Backward passes -/

theorem addToSlot {inputs : List (Node α)} (mem : ∀ i ∈ inputs, known i) (slot : Nat)
    (c : Contribution α) (g : Graph α) : P Unit g (addToSlot inputs slot c) := by
  unfold Graph.addToSlot
  split
  next i found =>
    have here := mem i (List.mem_of_getElem? found)
    split
    next trainable =>
      refine walk.bind (walk.buffer g here trainable) fun t g₁ opened => ?_
      refine walk.bind (walk.lift _ g₁) fun t' g₂ added => ?_
      obtain ⟨sum, rfl⟩ := answer_lift.mp added
      refine walk.move (.setGrad here fun t₀ held => ?_) rfl
      rw [Contribution.addTo_shape sum, gradBuffer_only opened held]
    · exact walk.same rfl
  · exact walk.same rfl

theorem addContributions {inputs : List (Node α)} (mem : ∀ i ∈ inputs, known i)
    (cs : Contributions α) (g : Graph α) : P Unit g (addContributions inputs cs) := by
  induction cs generalizing g with
  | nil => exact walk.same rfl
  | cons entry rest ih =>
    obtain ⟨slot, made⟩ := entry
    rw [addContributions_cons]
    refine walk.bind (walk.lift made g) fun c g₁ _ => ?_
    exact walk.bind (walk.addToSlot mem slot c g₁) fun _ g₂ _ => ih g₂

theorem openGrads {inputs : List (Node α)} (mem : ∀ i ∈ inputs, known i) (g : Graph α) :
    P Unit g (openGrads inputs) := by
  refine walk.forM (fun i input g => ?_) g
  split
  next trainable =>
    exact walk.bind (walk.buffer g (mem i input) trainable) fun _ _ _ => walk.same rfl
  · exact walk.same rfl

theorem contribute {n : Node α} {op : Operator α} {inputs : List (Node α)}
    (mem : ∀ i ∈ inputs, known i) (out : Tensor α) (values : List (Tensor α)) (g : Graph α) :
    P Unit g (contribute n op inputs out values) := by
  refine walk.read ?_
  split
  · exact walk.same rfl
  · dsimp only
    split
    · refine walk.bind ?_ fun _ g₁ _ => walk.addContributions mem _ g₁
      unfold tellBackward
      split
      · exact walk.reportDebug _ _ _ _ g
      · exact walk.same rfl
    · exact walk.same rfl

theorem visit {n : Node α} (mem : known n) (g : Graph α) : P Unit g (visit n) := by
  cases n with
  | leaf s init => exact walk.same rfl
  | apply s op inputs =>
    have below : ∀ i ∈ inputs, known i := fun i input => walk.closed mem (m := i) input
    refine walk.read ?_
    split
    · rw [backwardStep_eq]
      refine walk.bind (walk.ensured mem g) fun out g₁ _ => ?_
      refine walk.bind (walk.mapM (fun i input => walk.ensured (below i input)) g₁)
        fun values g₂ _ => ?_
      exact walk.bind (walk.openGrads below g₂) fun _ g₃ _ => walk.contribute below out values g₃
    · exact walk.same rfl

theorem afterBackward {n : Node α} (mem : known n) (p : Pending) (g : Graph α) :
    Moves known g (afterBackward n p g).2 := by
  rw [afterBackward_eq]
  split
  · refine Relation.ReflTransGen.tail ?_ .record
    refine (leaveInputs_moves (walk.distinctInputs mem) p g).trans ?_
    unfold leave
    split
    next may =>
      have inner := releasable_inner may
      exact (Relation.ReflTransGen.single (.drop mem inner)).tail (.dropGrad mem inner)
    · exact .refl
  · exact .single .record

theorem backwardFrom {ns : List (Node α)} (mem : ∀ n ∈ ns, known n) (p : Pending) (g : Graph α) :
    P Unit g (backwardFrom ns p) := by
  induction ns generalizing g p with
  | nil => exact walk.same rfl
  | cons n rest ih =>
    have here := mem n (by simp)
    rw [Graph.backwardFrom]
    refine walk.bind (walk.visit here g) fun _ g₁ _ => ?_
    exact walk.bind (walk.moves (walk.afterBackward here p g₁) rfl) fun _ g₂ _ =>
      ih (fun m mem' => mem m (by simp [mem'])) _ g₂

theorem seedGrad {n : Node α} (mem : known n) (trainable : n.trainable = true)
    (seed : Option Literal) (g : Graph α) : P Unit g (seedGrad n seed) := by
  refine walk.bind (walk.buffer g mem trainable) fun t g₁ opened => ?_
  refine walk.bind (walk.lift _ g₁) fun e g₂ elements => ?_
  obtain ⟨_, rfl⟩ := answer_lift.mp elements
  refine walk.bind (walk.lift _ g₁) fun t' g₃ seeded => ?_
  obtain ⟨sum, rfl⟩ := answer_lift.mp seeded
  have shape : t'.shape = t.shape := Contribution.addTo_shape (c := .inPlace e) sum
  refine walk.move (.setGrad mem fun t₀ held => ?_) rfl
  rw [shape, gradBuffer_only opened held]

theorem seedRoot {n : Node α} (mem : known n) (seed : Option Literal) (g : Graph α) :
    P Unit g (seedRoot (n, seed)) := by
  rw [seedRoot_eq]
  refine walk.bind (walk.move (.retain mem) rfl) fun _ g₁ _ => ?_
  refine walk.bind (walk.ensure g₁ mem) fun _ g₂ _ => ?_
  split
  next trainable => exact walk.seedGrad mem trainable seed g₂
  · exact walk.same rfl

theorem logBackward (ns : List (Node α)) (g : Graph α) : P Unit g (logBackward ns) := by
  refine walk.read ?_
  split
  · exact walk.bind (walk.writeLog _ _ g) fun _ g₁ _ => walk.writeLog _ _ g₁
  · exact walk.same rfl

theorem backward {g : Graph α} {roots : Roots α} {seeds : Seeds}
    (tape : ∀ n ∈ g.tape.toList, known n)
    (started : ∀ ps, g.checkBackward roots seeds = .ok ps → ∀ p ∈ ps, known p.1) :
    P Unit g (backward roots seeds) := by
  refine walk.read ?_
  refine walk.bind (walk.lift _ g) fun ps _ checked => ?_
  obtain ⟨accepted, rfl⟩ := answer_lift.mp checked
  have drops := dropGrads_moves tape
  refine walk.bind (walk.moves drops rfl) fun _ g₁ dropped => walk.read ?_
  have tape₁ : g₁.tape = g.tape := by
    rw [← answer_modify.mp dropped]
    exact drops.tape
  refine walk.bind (walk.forM (fun p mem => walk.seedRoot (started ps accepted p mem) p.2) g₁)
    fun _ g₂ _ => walk.read ?_
  refine walk.bind (walk.backwardFrom (fun n on => ?_) _ g₂) fun _ g₃ _ => walk.logBackward _ g₃
  rw [tape₁, List.mem_reverse] at on
  exact tape n on

end Walk

end Graph

end ReverseMode
