import ReverseMode.Shape.Basic

/-!
The allocator: which buffers are in use, and how many bytes they take.

Storages are numbered and a number is never used again. Giving back a storage that is
not in use changes nothing.
-/

namespace ReverseMode

/-- The buffers in use, with counts. -/
structure Allocator where
  live : Nat := 0
  peak : Nat := 0
  allocations : Nat := 0
  releases : Nat := 0
  /-- The storages in use with their bytes, the newest first. -/
  held : List (Nat × Nat) := []
  /-- The next storage. -/
  fresh : Nat := 0
deriving DecidableEq, Repr, Inhabited

namespace Allocator

/-- A number of bytes that can be had at all: arrays of `2^63` bytes cannot be addressed, and
arrays of `2^36` bytes do not fit in memory. -/
def checkBytes (bytes : Nat) : Except Fault Unit :=
  if Nat.pow 2 63 ≤ bytes then .error .value
  else if Nat.pow 2 36 ≤ bytes then .error (.plain .memory)
  else .ok ()

/-- A new storage of so many bytes. -/
def allocate (a : Allocator) (bytes : Nat) : Nat × Allocator :=
  let live := a.live + bytes
  (a.fresh,
    { a with
      live
      peak := max a.peak live
      allocations := a.allocations + 1
      held := (a.fresh, bytes) :: a.held
      fresh := a.fresh + 1 })

/-- The bytes of an array with these extents, which may be zero but not negative. -/
def arrayBytes (extents : List Int) (itemBytes : Nat) : Except Fault Nat :=
  if extents.any (· < 0) then .error .value
  else .ok ((extents.map Int.toNat).foldr (· * ·) itemBytes)

/-- A new storage for an array with these extents. -/
def allocateArray (a : Allocator) (extents : List Int) (itemBytes : Nat) :
    Except Fault (Nat × Nat × Allocator) := do
  checkRank extents.length
  let bytes ← arrayBytes extents itemBytes
  checkBytes bytes
  let (storage, a) := a.allocate bytes
  pure (bytes, storage, a)

/-- Whether a storage is in use. -/
def owns (a : Allocator) (storage : Nat) : Bool :=
  (a.held.lookup storage).isSome

/-- A storage given back. -/
def release (a : Allocator) (storage : Nat) : Allocator :=
  match a.held.lookup storage with
  | none => a
  | some bytes =>
    { a with
      live := a.live - bytes
      releases := a.releases + 1
      held := a.held.filter fun entry => entry.1 != storage }

/-- The peak counted anew from now on. -/
def resetPeak (a : Allocator) : Allocator := { a with peak := a.live }

/-- The allocator as text. -/
def text (a : Allocator) : String :=
  "Allocator(live=" ++ toString a.live ++ "B, peak=" ++ toString a.peak ++ "B)"

end Allocator

end ReverseMode
