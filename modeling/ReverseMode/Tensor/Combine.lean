import ReverseMode.Tensor.Fibre

/-!
Several tensors combined element by element, and tensors laid out anew.

`combineAll` reads any number of tensors in their common extents. `permute`,
`selectAxis` and `join` move elements without changing them.
-/

namespace ReverseMode

namespace Tensor

variable {α β : Type} [Inhabited α]

/-- Tensors combined element by element in their common extents. -/
def combineAll (f : List α → β) (ts : List (Tensor α)) : Except Fault (Tensor β) :=
  match broadcast? (ts.map shape) with
  | some shape => .ok (ofFn shape fun pos => f (ts.map fun t => t.read pos))
  | none => .error .value

/-- Axis `i` of the result is axis `axes[i]` of the tensor. -/
def permute (axes : List Nat) (t : Tensor α) : Tensor α :=
  ofFn (axes.map t.extent) fun pos =>
    t.get ((List.range t.rank).map fun a => pos.getD (axes.idxOf a) 0)

/-- The permutation that undoes another one. -/
def inversePermutation (axes : List Nat) : List Nat :=
  (List.range axes.length).map fun a => axes.idxOf a

/-- The last two axes exchanged. -/
def swapLast (t : Tensor α) : Tensor α :=
  let front := List.range (t.rank - 2)
  t.permute (front ++ [t.rank - 1, t.rank - 2])

/-- The given places of an axis, in that order. -/
def selectAxis (axis : Nat) (places : List Nat) (t : Tensor α) : Tensor α :=
  ofFn (t.shape.set axis places.length) fun pos =>
    t.get (pos.set axis (places.getD (pos.getD axis 0) 0))

/-- The tensor with the given places of an axis taken from another one. -/
def putAxis (axis : Nat) (places : List Nat) (t window : Tensor α) : Tensor α :=
  ofFn t.shape fun pos =>
    match places.idxOf? (pos.getD axis 0) with
    | some k => window.get (pos.set axis k)
    | none => t.get pos

/-- An axis moved to the front. -/
def axisFirst (axis : Nat) (t : Tensor α) : Tensor α :=
  t.permute (axis :: (List.range t.rank).filter (· != axis))

/-- The tensor and the place in it at which place `k` of joined tensors is found. -/
def locate (axis : Nat) : List (Tensor α) → Nat → Option (Tensor α × Nat)
  | [], _ => none
  | t :: rest, k => if k < t.extent axis then some (t, k) else locate axis rest (k - t.extent axis)

/-- Tensors laid end to end along an axis. -/
def join (axis : Nat) (ts : List (Tensor α)) : Except Fault (Tensor α) :=
  match ts with
  | [] => .error .value
  | first :: _ =>
    let agree := ts.all fun t => t.rank == first.rank && t.shape.set axis 1 == first.shape.set axis 1
    if agree then
      let total : Nat := (ts.map fun t => t.extent axis).foldr (· + ·) 0
      .ok (ofFn (first.shape.set axis total) fun pos =>
        match locate axis ts (pos.getD axis 0) with
        | some (t, k) => t.get (pos.set axis k)
        | none => default)
    else .error .value

end Tensor

end ReverseMode
