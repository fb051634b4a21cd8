import ReverseMode.Shape.Axis

/-!
Shapes: lists of extents, each at least one.

A shape is only made by checking integers (`Shape.ofInts`), so every function that
computes extents reports the first one that is not positive.
-/

namespace ReverseMode

/-- The number of elements of an array with these extents. -/
def volume (extents : List Nat) : Nat := extents.foldr (· * ·) 1

/-- The most axes that an array can have. -/
def mostAxes : Nat := 64

/-- An array cannot have more axes than that. -/
def checkRank (rank : Nat) : Except Fault Unit :=
  if mostAxes < rank then .error .value else .ok ()

/-- Extents that are all at least one. -/
structure Shape where
  extents : List Nat
  positive : ∀ e ∈ extents, 0 < e
deriving DecidableEq, Repr

namespace Shape

/-- The shape without axes. -/
def scalar : Shape := ⟨[], by simp⟩

/-- The shape with one axis. -/
def vector (extent : Nat) (positive : 0 < extent) : Shape := ⟨[extent], by simpa using positive⟩

instance : Inhabited Shape := ⟨scalar⟩

/-- The shape with these extents. -/
def ofInts (extents : List Int) : Except Fault Shape :=
  match h : extents.find? (· < 1) with
  | some e => .error (.badExtent e extents)
  | none => .ok ⟨extents.map Int.toNat, by
      intro e mem
      obtain ⟨n, hn, rfl⟩ := List.mem_map.mp mem
      have := List.find?_eq_none.mp h n hn
      simp at this
      omega⟩

def ofNats (extents : List Nat) : Except Fault Shape :=
  ofInts (extents.map Int.ofNat)

/-- The number of axes. -/
def rank (s : Shape) : Nat := s.extents.length

/-- The number of elements. -/
def elements (s : Shape) : Nat := volume s.extents

/-- The shape with the extent of one axis replaced. -/
def set (s : Shape) (axis : Axis) (extent : Int) : Except Fault Shape := do
  let i ← axis.resolve s.rank
  ofInts ((s.extents.map Int.ofNat).set i extent)

/-- The extent of an axis position; one beyond the last axis. -/
def extent (s : Shape) (i : Nat) : Nat := s.extents.getD i 1

/-- The extent of an axis counted from the end; one beyond the first axis. -/
def extentBack (s : Shape) (i : Nat) : Nat := s.extents.reverse.getD i 1

/-- A shape as text. -/
def text (s : Shape) : String := Text.extents s.extents

end Shape

end ReverseMode
