import ReverseMode.Tensor.Combine

/-!
Matrix products over the last two axes. The axes in front are batch axes and
broadcast against each other. A list takes part as a row or as a column.
-/

namespace ReverseMode

namespace Tensor

open scoped Element

variable {α : Type} [Element α]

/-- The batch axes of an array of matrices. -/
def batch (t : Tensor α) : List Nat := t.shape.take (t.rank - 2)

/-- The element of row `i` and column `j` of the matrix read for a batch position. -/
def entry (t : Tensor α) (pos : List Nat) (i j : Nat) : α :=
  t.get (clamp t.batch pos ++ [i, j])

/-- Row `i` of the matrix read for a batch position. -/
def row (t : Tensor α) (pos : List Nat) (i : Nat) : List α :=
  (List.range (t.extent (t.rank - 1))).map fun k => t.entry pos i k

/-- Column `j` of the matrix read for a batch position. -/
def col (t : Tensor α) (pos : List Nat) (j : Nat) : List α :=
  (List.range (t.extent (t.rank - 2))).map fun k => t.entry pos k j

/-- The product of two arrays of matrices. -/
def matrixProduct (a b : Tensor α) : Except Fault (Tensor α) :=
  if a.extent (a.rank - 1) ≠ b.extent (b.rank - 2) then .error .value
  else match broadcast? [a.batch, b.batch] with
    | none => .error .value
    | some front =>
      let n := front.length
      .ok (ofFn (front ++ [a.extent (a.rank - 2), b.extent (b.rank - 1)]) fun pos =>
        Element.dot (a.row (pos.take n) (pos.getD n 0)) (b.col (pos.take n) (pos.getD (n + 1) 0)))

/-- The product of two arrays. A list counts as a row on the left and as a column on the
right, and its axis of extent one is left out of the product. -/
def product (a b : Tensor α) : Except Fault (Tensor α) := do
  if a.rank = 0 ∨ b.rank = 0 then throw .value
  let rows ← if a.rank = 1 then a.reshape (1 :: a.shape) else pure a
  let cols ← if b.rank = 1 then b.reshape (b.shape ++ [1]) else pure b
  let p ← matrixProduct rows cols
  let kept (listed : Bool) (axis : Nat) : List Nat := if listed then [] else [p.extent axis]
  p.reshape (p.shape.take (p.rank - 2) ++ kept (a.rank == 1) (p.rank - 2) ++
    kept (b.rank == 1) (p.rank - 1))

end Tensor

end ReverseMode
