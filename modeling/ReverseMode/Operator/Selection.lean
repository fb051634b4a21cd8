import ReverseMode.Element.Scalar
import ReverseMode.Shape.Axis

/-!
Selections along one axis: a single place, or a range with a step.

A range follows the usual rules for its bounds: negative ones count from the end,
bounds outside the axis are moved to its ends, and a bound that is left out stands
for the end that the step starts from or runs to.
-/

namespace ReverseMode

/-- A bound of a range, as its caller wrote it. -/
inductive Bound where
  | leftOut
  | given (n : Int) (text : String)
  | refused (text : String)
deriving DecidableEq, Repr, Inhabited

/-- What is selected along an axis, as its caller wrote it. -/
inductive Selection where
  /-- A single place. -/
  | place (number : Scalar) (text plain : String)
  /-- Numbers in an array, which never stand for a place. -/
  | array (numbers : List Scalar) (text plain : String)
  /-- One to three bounds: the stop alone, or start, stop and step. -/
  | range (bounds : List Bound)
  /-- A value that selects nothing. -/
  | refused (text : String)
deriving Repr, Inhabited

namespace Bound

def text : Bound → String
  | leftOut => "None"
  | given _ t | refused t => t

/-- The bound as an integer, none if it is left out. -/
def number : Bound → Except Fault (Option Int)
  | leftOut => .ok none
  | given n _ => .ok (some n)
  | refused _ => .error .type

/-- The bound written as an integer. -/
def ofInt (n : Int) : Bound := .given n (toString n)

end Bound

namespace Selection

/-- A bound counted from the end if negative, and moved between `low` and `high`. -/
def clip (low high : Int) (extent : Nat) (n : Int) : Int :=
  let counted := if n < 0 then n + extent else n
  max low (min high counted)

/-- How many steps of size `step` lead from `start` to before `stop`. -/
def stepCount (start stop step : Int) : Nat :=
  if 0 < step then ((stop - start + step - 1) / step).toNat
  else ((start - stop - step - 1) / (-step)).toNat

/-- The places that a range selects from an axis. -/
def rangePlaces (start stop step : Option Int) (extent : Nat) : Except Fault (List Nat) :=
  let step := step.getD 1
  if step = 0 then .error .value
  else
    let low : Int := if 0 < step then 0 else -1
    let high : Int := if 0 < step then extent else extent - 1
    let (front, back) := if 0 < step then (low, high) else (high, low)
    let first := (start.map (clip low high extent)).getD front
    let past := (stop.map (clip low high extent)).getD back
    .ok ((List.range (stepCount first past step)).map fun (k : Nat) => (first + (k : Int) * step).toNat)

/-- Start, stop and step of a range. -/
def bounds3 : List Bound → Option (Bound × Bound × Bound)
  | [stop] => some (.leftOut, stop, .leftOut)
  | [start, stop] => some (start, stop, .leftOut)
  | [start, stop, step] => some (start, stop, step)
  | _ => none

/-- A selection as text. -/
def text : Selection → String
  | place _ t _ | array _ t _ | refused t => t
  | range bounds => Text.parenthesized (bounds.map Bound.text)

/-- The place that an integer names among `extent` places. -/
def placeOf (n : Int) (plain : String) (extent : Nat) : Except Fault Nat :=
  match Axis.wrap? n extent with
  | some i => .ok i
  | none => .error (.positionOutOfRange plain extent)

/-- The place that a number names among `extent` places. The type of a stored integer has to
hold the extent too; other numbers name no place, even between the ends. -/
def single (number : Scalar) (plain : String) (extent : Nat) : Except Fault Nat :=
  match number with
  | .whole n => placeOf n plain extent
  | .bool b => placeOf (if b then 1 else 0) plain extent
  | .int t n => do
    let i ← placeOf n plain extent
    if t.fits extent then pure i else throw (.plain .overflow)
  | x =>
    if Scalar.le (.whole (-extent)) x && Scalar.lt x (.whole extent) then .error .type
    else .error (.positionOutOfRange plain extent)

/-- The places selected from an axis, of which there is at least one. -/
def places (selection : Selection) (axis : Axis) (extent : Nat) : Except Fault (List Nat) :=
  match selection with
  | place number _ plain => do pure [← single number plain extent]
  | array [number] _ plain => do
    let _ ← single number plain extent
    throw .type
  | array _ _ _ => .error .value
  | refused _ => .error .type
  | range bounds =>
    match bounds3 bounds with
    | none => .error .type
    | some (start, stop, step) => do
      let stride ← step.number
      if stride = some 0 then throw .value
      let found ← rangePlaces (← start.number) (← stop.number) stride extent
      if found.isEmpty then
        let shown := Text.commas [start.text, stop.text, step.text]
        throw (.emptySlice ("slice(" ++ shown ++ ")") axis.plain extent)
      pure found

end Selection

end ReverseMode
