import ReverseMode.Shape.Basic

/-!
Broadcasting of extents.

Extents are aligned at the last axis and padded with ones. On every axis the
extents other than one have to agree; their common value is the extent of the
result.
-/

namespace ReverseMode

/-- Extents with ones in front up to `rank` axes. -/
def padTo (rank : Nat) (extents : List Nat) : List Nat :=
  List.replicate (rank - extents.length) 1 ++ extents

/-- One step of joining the extents of an axis. -/
def joinExtent (joined extent : Nat) : Option Nat :=
  if extent = 1 ∨ extent = joined then some joined
  else if joined = 1 then some extent
  else none

/-- The common extent of one axis, if the extents other than one agree. -/
def joinExtents (column : List Nat) : Option Nat :=
  column.foldlM joinExtent 1

/-- The largest number of axes. -/
def maxRank (shapes : List (List Nat)) : Nat :=
  (shapes.map List.length).foldr max 0

/-- The extents that meet on axis `i` when `rank` axes are aligned. -/
def column (shapes : List (List Nat)) (rank i : Nat) : List Nat :=
  shapes.map fun s => (padTo rank s).getD i 1

/-- The extents that arrays of these extents are combined in. -/
def broadcast? (shapes : List (List Nat)) : Option (List Nat) :=
  let rank := maxRank shapes
  (List.range rank).mapM fun i => joinExtents (column shapes rank i)

/-- Whether an array of extents `source` can be read as one of extents `target`. -/
def broadcastsTo (source target : List Nat) : Bool :=
  broadcast? [source, target] = some target

/-- The shape that nodes of these shapes are combined in. -/
def Shape.broadcast (shapes : List Shape) : Except Fault Shape :=
  let extents := shapes.map Shape.extents
  match broadcast? extents with
  | some joined => ofNats joined
  | none => .error (.incompatible extents)

end ReverseMode
