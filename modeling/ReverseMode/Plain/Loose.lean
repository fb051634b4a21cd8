import ReverseMode.Argument.Array
import ReverseMode.Shape.Resolve

/-!
Shape arithmetic with numbers that need not be integers.

Ranks and numbers of elements may be handed in as any values. Integers and floats of every
type are compared and divided as their types allow; other values fail where they are
calculated with.
-/

namespace ReverseMode

namespace Plain

variable {α : Type}

/-- The integer that a number equals, if there is one. -/
def wholeOf : Scalar → Option Int
  | .bool b => some (if b then 1 else 0)
  | .int _ n | .whole n => some n
  | s => if Number.isWhole s.toFloat then Number.truncate? s.toFloat else none

/-- An integer with the type of a float, or what remains of it after a division by the float,
if the integer is negative. -/
def remainderBy (x : Scalar) (n : Int) : Scalar :=
  if x.toFloat.isNaN then x
  else if n < 0 then Scalar.add (.whole n) x
  else match x.type? with
    | some t => (Scalar.whole n).store t
    | none => .real (Number.ofInt n)

/-- The place of an axis among a number of axes. The number has a negative, which wraps in its
type. -/
def placeAmong (axis : Int) (rank : Scalar) (text : String) : Except Fault Scalar :=
  let outside : Fault := .axisOutOfRange axis text
  match rank with
  | .bool _ => .error .type
  | .whole r => if axis < -r ∨ r ≤ axis then .error outside else .ok (.whole (axis % r))
  | .int t r =>
    if axis < t.wrap (-r) ∨ r ≤ axis then .error outside
    else if t.fits axis then .ok (.int t (axis % r))
    else .error (.plain .overflow)
  | x =>
    if Scalar.lt (.whole axis) x.neg || Scalar.le x (.whole axis) then .error outside
    else .ok (remainderBy x axis)

/-- The place of an axis among a number of axes that is any value. -/
def normalizeAxis (axis rank : Argument α) : Except Fault (Argument α) := do
  match axis.toAxis.number? with
  | none => throw (.axisNotInteger axis.shown)
  | some n =>
    match rank with
    | .array .bool _ => throw .type
    | .array _ values =>
      match values.toList with
      | [s] =>
        let place ← placeAmong n s rank.plain
        pure (.ofNumbers (values.map fun _ => place))
      | _ => throw .value
    | rank =>
      match rank.number? with
      | some s => pure (.ofNumbers (.scalar (← placeAmong n s rank.plain)))
      | none => throw .type

/-- Whether a request has one open extent that a number of elements is divided for. -/
def divides (requested : List Int) : Bool :=
  Shape.openCount requested = 1 && 1 ≤ Shape.knownVolume requested

/-- The type of a stored number of elements has to hold the number it is divided by. -/
def checkDivisor (requested : List Int) : Scalar → Except Fault Unit
  | .int t _ =>
    if divides requested && !t.fits (Shape.knownVolume requested) then .error (.plain .overflow)
    else .ok ()
  | _ => .ok ()

/-- The shape that a request stands for, given the number of elements in an array. An array
cannot become an extent. -/
def resolveByArray (requested : List Int) (values : Tensor Scalar) (text : String) :
    Except Fault Shape := do
  match values.toList with
  | [s] =>
    checkDivisor requested s
    let shape ← Shape.resolveAs requested text (wholeOf s)
    if divides requested then throw .type else pure shape
  | _ =>
    if divides requested then throw .value
    if Shape.openCount requested = 0 then
      let _ ← Shape.ofInts requested
      throw .value
    Shape.resolveAs requested text none

/-- The shape that a request stands for, given the number of elements as any value. -/
def resolveShape (requested : List Int) (elements : Argument α) : Except Fault Shape := do
  match elements with
  | .array _ values => resolveByArray requested values elements.plain
  | elements =>
    match elements.number? with
    | some s =>
      checkDivisor requested s
      Shape.resolveAs requested elements.plain (wholeOf s)
    | none =>
      if divides requested then throw .type
      Shape.resolveAs requested elements.plain none

end Plain

end ReverseMode
