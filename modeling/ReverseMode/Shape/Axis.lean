import ReverseMode.Fault

/-!
Axes, as callers write them and as positions.

An axis may count from the end. `Axis.resolve` maps it into `[0, rank)` or says why
it names no axis.
-/

namespace ReverseMode

/-- An axis as its caller wrote it: the integer it denotes, if any, with its texts. -/
structure Axis where
  number? : Option Int
  /-- The text that shows what kind of value it is. -/
  text : String
  /-- The text of the value alone. -/
  plain : String
deriving DecidableEq, Repr, Inhabited

namespace Axis

/-- The axis written as an integer. -/
def ofInt (n : Int) : Axis := ⟨some n, toString n, toString n⟩

instance (n : Nat) : OfNat Axis n := ⟨ofInt n⟩

/-- The last axis. -/
def last : Axis := ofInt (-1)

/-- An integer counted from the front or from the end of `extent` places. -/
def wrap? (n : Int) (extent : Nat) : Option Nat :=
  if 0 ≤ n then
    if n < extent then some n.toNat else none
  else if -(extent : Int) ≤ n then some (n + extent).toNat
  else none

/-- The position of an axis among `rank` axes. -/
def resolve (axis : Axis) (rank : Nat) : Except Fault Nat :=
  match axis.number? with
  | none => .error (.axisNotInteger axis.text)
  | some n =>
    match wrap? n rank with
    | some i => .ok i
    | none => .error (.axisOutOfRange n (toString rank))

theorem wrap?_lt {n : Int} {extent i : Nat} (h : wrap? n extent = some i) : i < extent := by
  simp only [wrap?] at h
  split at h
  · split at h
    · cases h; omega
    · contradiction
  · split at h
    · cases h; omega
    · contradiction

theorem wrap?_ofNat {i extent : Nat} (h : i < extent) : wrap? i extent = some i := by
  simp [wrap?, h]

end Axis

end ReverseMode
