import ReverseMode.Tensor.Basic

/-!
Fibres: the elements along one axis through a position.

Reductions and normalizations act on each fibre of an axis by itself. `reduceAxis`
leaves one element of every fibre, `mapAxis` and `mapAxisAt` replace
every fibre by another list.
-/

namespace ReverseMode

namespace Tensor

variable {α β : Type} [Inhabited α] [Inhabited β]

/-- The elements along an axis through a position. -/
def fibre (t : Tensor α) (axis : Nat) (pos : List Nat) : List α :=
  (List.range (t.extent axis)).map fun k => t.get (pos.set axis k)

/-- One element for every fibre; the axis stays, with extent one. -/
def reduceAxis (axis : Nat) (f : List α → β) (t : Tensor α) : Tensor β :=
  ofFn (t.shape.set axis 1) fun pos => f (t.fibre axis pos)

/-- Every fibre replaced by a list of `extent` elements, which may depend on where the
fibre starts. -/
def mapAxisAt (axis extent : Nat) (f : List Nat → List α → List β) (t : Tensor α) : Tensor β :=
  let fibres : Tensor (Array β) :=
    ofFn (t.shape.set axis 1) fun pos => (f pos (t.fibre axis pos)).toArray
  ofFn (t.shape.set axis extent) fun pos =>
    (fibres.get (pos.set axis 0)).getD (pos.getD axis 0) default

/-- Every fibre replaced by a list of `extent` elements. -/
def mapAxis (axis extent : Nat) (f : List α → List β) (t : Tensor α) : Tensor β :=
  t.mapAxisAt axis extent fun _ => f

/-- Every fibre replaced by one of the same extent. -/
def mapFibres (axis : Nat) (f : List α → List β) (t : Tensor α) : Tensor β :=
  t.mapAxis axis (t.extent axis) f

/-- Every fibre replaced by one of the same extent, which may depend on where the fibre
starts. -/
def mapFibresAt (axis : Nat) (f : List Nat → List α → List β) (t : Tensor α) : Tensor β :=
  t.mapAxisAt axis (t.extent axis) f

/-- Whether the elements along an axis lie side by side: all later extents are one. -/
def dense (shape : List Nat) (axis : Nat) : Bool :=
  (shape.drop (axis + 1)).all (· == 1)

end Tensor

end ReverseMode
