import ReverseMode.Tensor.Combine

/-!
Reading and adding at positions that are themselves array elements.

A position counts from the front or from the end of an axis; one outside the axis is
a fault. `order` ranks a fibre: equal elements keep their order and NaN comes last.
-/

namespace ReverseMode

namespace Tensor

open scoped Element

variable {α : Type} [Element α]

/-- A position as a place on an axis of the given extent. -/
def placeOf (extent : Nat) (position : Int) : Except Fault Nat :=
  match Axis.wrap? position extent with
  | some i => .ok i
  | none => .error .index

/-- A tensor of places, from the position that every element stands for. -/
def placesBy (extent : Nat) (position : α → Except Fault Int) (indices : Tensor α) :
    Except Fault (Tensor Nat) := do
  let found ← indices.toList.mapM position
  let places ← found.mapM (placeOf extent)
  match ofArray? indices.shape places.toArray with
  | some t => pure t
  | none => throw .index

/-- The tensor of places that a tensor of numbers stands for. -/
def placeTensor (extent : Nat) (indices : Tensor α) : Except Fault (Tensor Nat) :=
  placesBy extent (fun x => .ok (Element.position x)) indices

/-- The tensor of places that a tensor of positions stands for; other numbers are refused. -/
def exactPlaces (extent : Nat) (indices : Tensor α) : Except Fault (Tensor Nat) :=
  placesBy extent (fun x =>
    match Element.position? x with
    | some n => .ok n
    | none => .error .type) indices

/-- The elements at the given places of an axis, which is replaced by the axes of the
places. -/
def take (axis : Nat) (indices t : Tensor α) : Except Fault (Tensor α) := do
  let places ← exactPlaces (t.extent axis) indices
  let rank := places.rank
  pure (ofFn (t.shape.take axis ++ places.shape ++ t.shape.drop (axis + 1)) fun pos =>
    t.get (pos.take axis ++ [places.get ((pos.drop axis).take rank)] ++ pos.drop (axis + rank)))

/-- Whether two arrays have the same extents outside one axis. -/
def agreeOutside (axis : Nat) (s t : List Nat) : Bool :=
  s.length == t.length && s.set axis 1 == t.set axis 1

/-- At every position the element at the place that the index array holds there. Outside the
axis the two arrays are broadcast. -/
def takeAlong (axis : Nat) (indices t : Tensor α) : Except Fault (Tensor α) := do
  if indices.rank ≠ t.rank then throw .value
  match broadcast? [indices.shape, t.shape.set axis 1] with
  | none => throw .index
  | some shape =>
    let places ← placeTensor (t.extent axis) indices
    pure (ofFn shape fun pos => t.get ((clamp t.shape pos).set axis (places.read pos)))

/-- Whether an element is a NaN: it differs from itself. -/
def isNaN (x : α) : Bool := !Element.eq x x

/-- The order elements are ranked in: by size, NaN last. -/
def ranksBefore (x y : α) : Bool :=
  if isNaN y then true else if isNaN x then false else !Element.lt y x

/-- The places of a list in ranking order; equal elements keep their order. -/
def order (keys : List α) : List Nat :=
  (keys.zipIdx.mergeSort fun x y => ranksBefore x.1 y.1).map Prod.snd

/-- One addition to an element of a buffer. -/
structure Addend (α : Type) where
  offset : Nat
  amount : α

/-- Amounts added to the elements of a buffer one after the other. -/
def addAt (t : Tensor α) (addends : List (Addend α)) : Tensor α :=
  ⟨t.shape,
    addends.foldl (fun data a => data.modify a.offset fun x => Element.like x (x + a.amount))
      t.data,
    by
      have : ∀ (as : List (Addend α)) (data : Array α),
          (as.foldl (fun data a =>
            data.modify a.offset fun x => Element.like x (x + a.amount)) data).size
            = data.size := by
        intro as
        induction as with
        | nil => intro data; rfl
        | cons a rest ih => intro data; simp [ih]
      rw [this, t.size_eq]⟩

/-- Every element of a gradient added at the position it was read from. -/
def addendsBy (shape : List Nat) (source : List Nat → List Nat) (gradient : Tensor α) :
    List (Addend α) :=
  (positions gradient.shape).map fun pos => ⟨ReverseMode.offset shape (source pos), gradient.get pos⟩

end Tensor

end ReverseMode
