import ReverseMode.Proofs.BackwardPass

/-!
Traces of passes: which operators a pass runs.

`Traced` is a call together with the applications that it computes when it is made in a state, in
the order in which it computes them. The traced passes are the passes with every computation of a
node noted, and dropping the notes gives the passes themselves.
-/

namespace ReverseMode

open ReverseMode.Graph

/-- The applications among some nodes. -/
def applications {α : Type} (ns : List (Node α)) : List (Node α) := ns.filter fun n => !n.isLeaf

/-- A call with the applications that it computes, also where a computation raises. -/
structure Traced (α β : Type) where
  call : GraphM α β
  ran : Graph α → List (Node α)

namespace Traced

variable {α β γ : Type}

/-- A call that computes no node. -/
def silent (x : GraphM α β) : Traced α β := ⟨x, fun _ => []⟩

instance : Monad (Traced α) where
  pure b := silent (pure b)
  bind x f :=
    ⟨x.call >>= fun b => (f b).call, fun g => x.ran g ++
      match x.call g with
      | .ok b g' => (f b).ran g'
      | .error _ _ => []⟩

theorem ext {x y : Traced α β} (call : x.call = y.call) (ran : ∀ g, x.ran g = y.ran g) : x = y := by
  cases x
  cases y
  simp_all [funext_iff]

theorem ran_bind (x : Traced α β) (f : β → Traced α γ) (g : Graph α) :
    (x >>= f).ran g = x.ran g ++
      match x.call g with
      | .ok b g' => (f b).ran g'
      | .error _ _ => [] := rfl

theorem ran_bind_answer {x : Traced α β} {g g' : Graph α} {b : β} (run : x.call g = .ok b g')
    (f : β → Traced α γ) : (x >>= f).ran g = x.ran g ++ (f b).ran g' := by
  rw [ran_bind, run]

theorem ran_bind_raise {x : Traced α β} {g g' : Graph α} {e : Fault}
    (run : x.call g = .error e g') (f : β → Traced α γ) : (x >>= f).ran g = x.ran g := by
  rw [ran_bind, run]
  exact List.append_nil _

theorem ran_bind_silent (x : Traced α β) (f : β → GraphM α γ) (g : Graph α) :
    (x >>= fun b => silent (f b)).ran g = x.ran g := by
  cases run : x.call g with
  | ok b g' =>
    rw [ran_bind_answer run]
    exact List.append_nil _
  | error e g' => exact ran_bind_raise run _

instance : LawfulMonad (Traced α) := by
  refine .mk' (Traced α) (fun x => ?_) (fun b f => ?_) fun x f k => ?_
  · refine ext (id_map x.call) fun g => ?_
    change x.ran g ++ (match x.call g with
      | .ok _ _ => []
      | .error _ _ => []) = _
    cases x.call g <;> simp
  · exact ext (pure_bind b fun b => (f b).call) fun g => rfl
  · refine ext (bind_assoc x.call (fun b => (f b).call) fun c => (k c).call) fun g => ?_
    simp only [ran_bind]
    change _ ++ (match EStateM.bind x.call (fun b => (f b).call) g with
      | .ok b g' => _
      | .error _ _ => _) = _
    unfold EStateM.bind
    cases x.call g <;> simp

/-! ### Dropping the notes -/

@[simp] theorem call_silent (x : GraphM α β) : (silent x).call = x := rfl

@[simp] theorem call_bind (x : Traced α β) (f : β → Traced α γ) :
    (x >>= f).call = x.call >>= fun b => (f b).call := rfl

@[simp] theorem call_ite (c : Prop) [Decidable c] (x y : Traced α β) :
    (if c then x else y).call = if c then x.call else y.call := by
  split <;> rfl

theorem call_forM (as : List γ) (f : γ → Traced α PUnit) :
    (as.forM f).call = as.forM fun a => (f a).call := by
  induction as with
  | nil => rfl
  | cons a as ih =>
    change ((f a).call >>= fun _ => (as.forM f).call) = _
    rw [ih]
    rfl

theorem call_mapM (as : List γ) (f : γ → Traced α β) :
    (as.mapM f).call = as.mapM fun a => (f a).call := by
  induction as with
  | nil => rfl
  | cons a as ih =>
    rw [List.mapM_cons, List.mapM_cons, call_bind]
    refine bind_congr fun b => ?_
    rw [call_bind, ih]
    rfl

/-! ### Traced passes -/

variable [Element α]

/-- The computation of one node, noted for an application. -/
def compute (n : Node α) : Traced α Unit :=
  ⟨Graph.compute n, fun _ => applications [n]⟩

def ensure (n : Node α) : Traced α Unit := do
  let g ← silent get
  if (g.slot n.id).value.isSome then pure ()
  else
    (g.missing n).forM fun m => ensure m.val
    silent (modify (countRecomputation n))
    compute n
termination_by sizeOf n
decreasing_by exact Node.sizeOf_lt_of_mem_inputs m.property

def ensured (n : Node α) : Traced α (Tensor α) := do
  ensure n
  match (← silent get).held? n.id with
  | some t => pure t
  | none => silent (throw .type)

def forwardStep (n : Node α) (p : Pending) : Traced α Pending := do
  n.distinctInputs.forM ensure
  compute n
  silent (modifyGet (afterForward n p))

def forwardFrom : List (Node α) → Pending → Traced α Unit
  | [], _ => pure ()
  | n :: rest, p => do forwardFrom rest (← forwardStep n p)

/-- A forward pass. -/
def forward : Traced α Unit := do
  let g ← silent get
  let pending := g.uncomputed
  forwardFrom pending (Pending.start g.slots.size pending)
  silent (modify fun g => { g with forwarded := true })
  silent (logForward pending)

def seedRoot (root : Node α × Option Literal) : Traced α Unit := do
  let (n, seed) := root
  silent (modify (modifySlot n.id fun s => { s with retained := true }))
  ensure n
  if n.trainable then silent (seedGrad n seed) else pure ()

def backwardStep (n : Node α) (op : Operator α) (inputs : List (Node α)) : Traced α Unit := do
  let out ← ensured n
  let values ← inputs.mapM ensured
  silent (openGrads inputs)
  silent (contribute n op inputs out values)

def visit (n : Node α) : Traced α Unit := do
  match n with
  | .leaf _ _ => pure ()
  | .apply _ op inputs =>
    let g ← silent get
    if n.trainable && (g.grad? n.id).isSome then backwardStep n op inputs else pure ()

def backwardFrom : List (Node α) → Pending → Traced α Unit
  | [], _ => pure ()
  | n :: rest, p => do
    visit n
    backwardFrom rest (← silent (modifyGet (afterBackward n p)))

/-- A backward pass. -/
def backward (roots : Roots α) (seeds : Seeds) : Traced α Unit := do
  let started ← silent (do lift ((← get).checkBackward roots seeds))
  silent (modify dropGrads)
  let nodes := (← silent get).tape.toList
  started.forM seedRoot
  backwardFrom nodes.reverse (Pending.start (← silent get).slots.size nodes)
  silent (logBackward (started.map Prod.fst))

theorem ensure_eq (n : Node α) : ensure n = (do
    let g ← silent get
    if (g.slot n.id).value.isSome then pure ()
    else
      (g.missing n).forM fun m => ensure m.val
      silent (modify (countRecomputation n))
      compute n) := by
  rw [ensure]

theorem call_ensure (n : Node α) : (ensure n).call = Graph.ensure n := by
  induction n using Node.rec_inputs with
  | step n ih =>
    rw [ensure_eq, Graph.ensure_eq, call_bind]
    refine bind_congr fun g => ?_
    rw [call_ite, call_bind, call_forM]
    have below : (fun m : { m // m ∈ n.inputs } => (ensure m.val).call) =
        fun m => Graph.ensure m.val := funext fun m => ih m.val m.property
    rw [below]
    rfl

theorem call_ensured (n : Node α) : (ensured n).call = Graph.ensured n := by
  rw [ensured, call_bind, call_ensure]
  refine bind_congr fun _ => bind_congr fun g => ?_
  dsimp only
  cases g.held? n.id with
  | some t => rfl
  | none => rfl

theorem call_forwardStep (n : Node α) (p : Pending) :
    (forwardStep n p).call = Graph.forwardStep n p := by
  rw [forwardStep, call_bind, call_forM, funext (call_ensure (α := α))]
  rfl

theorem call_forwardFrom (ns : List (Node α)) (p : Pending) :
    (forwardFrom ns p).call = Graph.forwardFrom ns p := by
  induction ns generalizing p with
  | nil => rfl
  | cons n rest ih =>
    rw [forwardFrom, call_bind, call_forwardStep, forwardFrom_cons]
    exact bind_congr fun p' => ih p'

theorem call_forward : (forward : Traced α Unit).call = Graph.forward := by
  refine bind_congr fun g => ?_
  rw [call_bind, call_forwardFrom]
  rfl

theorem call_seedRoot (root : Node α × Option Literal) :
    (seedRoot root).call = Graph.seedRoot root := by
  obtain ⟨n, seed⟩ := root
  rw [seedRoot_eq]
  refine bind_congr fun _ => ?_
  rw [call_bind, call_ensure]
  refine bind_congr fun _ => ?_
  rw [call_ite]
  rfl

theorem call_backwardStep (n : Node α) (op : Operator α) (inputs : List (Node α)) :
    (backwardStep n op inputs).call = Graph.backwardStep n op inputs := by
  rw [backwardStep_eq, backwardStep, call_bind, call_ensured]
  refine bind_congr fun out => ?_
  rw [call_bind, call_mapM, funext (call_ensured (α := α))]
  rfl

theorem call_visit (n : Node α) : (visit n).call = Graph.visit n := by
  cases n with
  | leaf s init => rfl
  | apply s op inputs =>
    refine bind_congr fun g => ?_
    rw [call_ite, call_backwardStep]
    rfl

theorem call_backwardFrom (ns : List (Node α)) (p : Pending) :
    (backwardFrom ns p).call = Graph.backwardFrom ns p := by
  induction ns generalizing p with
  | nil => rfl
  | cons n rest ih =>
    rw [backwardFrom, call_bind, call_visit]
    exact bind_congr fun _ => bind_congr fun p' => ih p'

theorem call_backward (roots : Roots α) (seeds : Seeds) :
    (backward roots seeds).call = Graph.backward roots seeds := by
  unfold backward Graph.backward
  simp only [call_bind, call_silent, bind_assoc, call_forM, funext (call_seedRoot (α := α)),
    call_backwardFrom]

end Traced

end ReverseMode
