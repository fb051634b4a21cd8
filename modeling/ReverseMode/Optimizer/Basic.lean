import ReverseMode.Graph.Build
import ReverseMode.Tensor.Sum

/-!
Optimizers: how parameters move against their gradients.

An optimizer has a rule and, for every parameter label it has met, the running averages
that the rule keeps. The averages have the extents and the element type of the first
parameter of their label; a later parameter of that label has to fit them.

A rule changes the averages and the value of a parameter in place, one after the other. What
has been changed when a change fails stays changed.
-/

namespace ReverseMode

/-- A number or an array that a rule computes with; why it is none is told when it is
needed. -/
abbrev Quantity (α : Type) := Deferred (Tensor α)

/-- The weight of the past in a velocity. -/
structure Momentum (α : Type) where
  /-- Whether no velocity is kept. -/
  none : Deferred Bool
  factor : Quantity α

/-- The weight of the past in a running average. -/
structure Decay (α : Type) where
  factor : Quantity α
  /-- The weight of the present, `1 - factor`. -/
  complement : Quantity α
  /-- The total weight after some steps, `1 - factor ^ steps`. -/
  weight : Nat → Quantity α

/-- How a parameter is moved. -/
inductive UpdateRule (α : Type) where
  /-- No rule; a step is refused. -/
  | undefined
  /-- Gradient descent, with a velocity unless there is no momentum. -/
  | descent (rate : Quantity α) (momentum : Momentum α)
  /-- Running averages of the gradient and of its square, corrected for their start at zero. -/
  | moments (rate : Quantity α) (first second : Decay α) (eps : Quantity α)

/-- An optimizer. -/
structure Optimizer (α : Type) where
  rule : UpdateRule α
  parameters : List (Input α)
  /-- How many steps were made. -/
  steps : Nat := 0
  /-- The running averages by the label of the parameter, the oldest first. -/
  state : List (String × List (Tensor α)) := []
  text : String

/-- What a rule changes: the value of a parameter, and its averages once there are any. -/
structure Moving (α : Type) where
  value : Tensor α
  averages : Option (List (Tensor α))

/-- Changes in place; after a fault the arrays are what the changes before it left. -/
abbrev MovingM (α : Type) := EStateM Fault (Moving α)

namespace Decay

open scoped Element
open Element (whole)

variable {α : Type} [Element α]

end Decay

namespace UpdateRule

open scoped Element
open Element (whole)

variable {α : Type} [Element α]

/-- An array of zeros with the extents and the type of another one. -/
def zerosLike (t : Tensor α) : Tensor α :=
  t.map fun x => Element.like x (whole 0)

/-- Run a computation that changes nothing. -/
def given {β : Type} (e : Except Fault β) : MovingM α β :=
  match e with
  | .ok b => pure b
  | .error f => throw f

/-- The averages; zeros like the value where there are none yet. -/
def averages (count : Nat) : MovingM α (List (Tensor α)) :=
  modifyGet fun m =>
    let held := m.averages.getD (List.replicate count (zerosLike m.value))
    (held, { m with averages := some held })

/-- The average of a number changed. -/
def setAverage (i : Nat) (t : Tensor α) : MovingM α Unit :=
  modify fun m => { m with averages := m.averages.map fun ts => ts.set i t }

/-- The value changed in place. -/
def moveValue (f : α → α → α) (operand : Tensor α) : MovingM α Unit := do
  let moved ← given ((← get).value.updateInPlace f operand)
  modify fun m => { m with value := moved }

/-- A value moved by `-rate · gradient`. -/
def descend (rate : Quantity α) (grad : Tensor α) : MovingM α Unit := do
  moveValue (· - ·) (← given ((← given rate).combine (· * ·) grad))

/-- A velocity multiplied by its momentum, moved by `-rate · gradient`, and added to the
value. -/
def descendWith (rate factor : Quantity α) (grad : Tensor α) : MovingM α Unit := do
  match ← averages 1 with
  | [velocity] =>
    let slowed ← given (velocity.updateInPlace (· * ·) (← given factor))
    setAverage 0 slowed
    let pulled ← given (slowed.updateInPlace (· - ·)
      (← given ((← given rate).combine (· * ·) grad)))
    setAverage 0 pulled
    moveValue (· + ·) pulled
  | _ => throw .value

/-- The average of a number moved on, `decay · average + (1 - decay) · x`. -/
def nextAverage (i : Nat) (decay : Decay α) (average x : Tensor α) : MovingM α (Tensor α) := do
  let faded ← given (average.updateInPlace (· * ·) (← given decay.factor))
  setAverage i faded
  let next ← given (faded.updateInPlace (· + ·)
    (← given ((← given decay.complement).combine (· * ·) x)))
  setAverage i next
  pure next

/-- A running average corrected for its start at zero. -/
def corrected (decay : Decay α) (steps : Nat) (average : Tensor α) : Except Fault (Tensor α) := do
  (← average.combine (· / ·) (← decay.weight steps)).sound

/-- A value moved by `-rate · m / (sqrt v + eps)`. -/
def moveByMoments (rate eps : Quantity α) (m v : Tensor α) : MovingM α Unit := do
  let pull ← given ((← given rate).combine (· * ·) m)
  let spread ← given ((v.map Element.sqrt).combine (· + ·) (← given eps))
  let move ← given (pull.combine (· / ·) spread)
  moveValue (fun x d => x - Element.like x d) move

/-- One step with a gradient. -/
def step (rule : UpdateRule α) (steps : Nat) (grad : Tensor α) : MovingM α Unit := do
  match rule with
  | undefined => throw .noStep
  | descent rate momentum =>
    if ← given momentum.none then descend rate grad else descendWith rate momentum.factor grad
  | moments rate first second eps =>
    match ← averages 2 with
    | [m, v] =>
      let m ← nextAverage 0 first m grad
      let v ← nextAverage 1 second v (grad.map fun g => g * g)
      moveByMoments rate eps (← given (corrected first steps m)) (← given (corrected second steps v))
    | _ => throw .value

end UpdateRule

namespace Optimizer

variable {α : Type}

/-- The averages kept for a label. -/
def state? (o : Optimizer α) (label : String) : Option (List (Tensor α)) :=
  o.state.lookup label

/-- The averages kept for a label replaced. -/
def setState (o : Optimizer α) (label : String) (averages : List (Tensor α)) : Optimizer α :=
  if (o.state? label).isSome then
    { o with state := o.state.map fun e => if e.1 == label then (label, averages) else e }
  else { o with state := o.state ++ [(label, averages)] }

end Optimizer

end ReverseMode
