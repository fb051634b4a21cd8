import ReverseMode.Tensor.Fibre

/-!
Sums over several axes, and the adjoint of broadcasting.

`unbroadcast` sums a gradient back to the extents of the input it belongs to: first
over the axes that broadcasting put in front, then over the axes of extent one.
-/

namespace ReverseMode

namespace Tensor

open scoped Element

variable {α : Type} [Element α]

/-- Whether an axis is summed and every later one is summed or has extent one. -/
def trailing (shape : List Nat) (axes : List Nat) (axis : Nat) : Bool :=
  (List.range shape.length).all fun i => i < axis || axes.contains i || shape.getD i 1 == 1

/-- The positions that agree with `pos` outside the given axes. -/
def slab (shape : List Nat) (axes : List Nat) (pos : List Nat) : List (List Nat) :=
  let running := (List.range shape.length).map fun i =>
    if axes.contains i then shape.getD i 1 else 1
  (positions running).map fun q =>
    (List.range shape.length).map fun i => if axes.contains i then q.getD i 0 else pos.getD i 0

/-- The sum over some axes, which stay with extent one. Elements that lie side by side
form runs. -/
def sumAxes (axes : List Nat) (t : Tensor α) : Tensor α :=
  let inner := axes.filter (trailing t.shape axes)
  let outer := axes.filter fun i => !trailing t.shape axes i
  let kept := (List.range t.rank).map fun i => if axes.contains i then 1 else t.extent i
  ofFn kept fun pos =>
    Element.sum ((slab t.shape outer pos).map fun start => (slab t.shape inner start).map t.get)

/-- The axes of extent one whose gradient has another extent. -/
def widened (gradient shape : List Nat) : List Nat :=
  (List.range (min gradient.length shape.length)).filter fun i =>
    shape.getD i 1 == 1 && gradient.getD i 1 != 1

/-- A gradient summed over the axes that broadcasting put in front. -/
def sumLeading (gradient : Tensor α) (rank : Nat) : Except Fault (Tensor α) :=
  let added := gradient.rank - rank
  if added = 0 then .ok gradient
  else (gradient.sumAxes (List.range added)).reshape (gradient.shape.drop added)

/-- A gradient summed back to the extents of the input it belongs to. -/
def unbroadcast (gradient : Tensor α) (shape : List Nat) : Except Fault (Tensor α) := do
  let g ← gradient.sumLeading shape.length
  let axes := widened g.shape shape
  (if axes.isEmpty then g else g.sumAxes axes).reshape shape

/-- A gradient added into a buffer, broadcast axes summed away. -/
def accumulate (target gradient : Tensor α) : Except Fault (Tensor α) := do
  let g ← gradient.unbroadcast target.shape
  pure (target.zipWith (fun x y => x + Element.like x y) g)

/-- A buffer changed in place by an operand, which may be broadcast; the buffer may not. A
result that the buffer cannot hold is refused whatever the extents. -/
def updateInPlace (f : α → α → α) (target operand : Tensor α) : Except Fault (Tensor α) := do
  let update (x y : α) : α := Element.replace x (f x y)
  let sample := List.zipWith update (target.toList.take 1) (operand.toList.take 1)
  match sample.findSome? Element.refusal? with
  | some k => throw (.plain k)
  | none =>
    let result ← target.combine update operand
    if result.shape = target.shape then pure result else throw .value

/-- A tensor added into a buffer in place. -/
def addInPlace (target addend : Tensor α) : Except Fault (Tensor α) :=
  target.updateInPlace (· + ·) addend

/-- A tensor written into a buffer of the given type and extents. -/
def assign (type : StorageType) (shape : List Nat) (t : Tensor α) : Except Fault (Tensor α) := do
  pure ((← (← t.sound).spread shape).map (Element.store type))

end Tensor

end ReverseMode
