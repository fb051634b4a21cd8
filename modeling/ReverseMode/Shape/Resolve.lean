import ReverseMode.Shape.Basic

/-!
Requested shapes with one extent left open.

`-1` stands for the extent that makes the number of elements come out right. At
most one extent may be open, and the others have to divide the number of elements.
-/

namespace ReverseMode

namespace Shape

/-- The product of the extents that are not left open. -/
def knownVolume (requested : List Int) : Int :=
  (requested.filter (· != -1)).foldr (· * ·) 1

/-- The request with every open extent replaced. -/
def fillOpen (requested : List Int) (extent : Int) : List Int :=
  requested.map fun e => if e = -1 then extent else e

/-- The extents that are left open. -/
def openCount (requested : List Int) : Nat := (requested.filter (· == -1)).length

/-- The request with its open extent filled in, if it has one. `text` is how the number of
elements was written; without a number nothing fits. -/
def filled (requested : List Int) (text : String) (elements? : Option Int) :
    Except Fault (List Int) :=
  let known := knownVolume requested
  if 1 < openCount requested then .error (.severalUnknown requested)
  else if openCount requested = 0 then .ok requested
  else match elements? with
    | some elements =>
      if known < 1 ∨ elements % known ≠ 0 then .error (.cannotReshape text requested)
      else .ok (fillOpen requested (elements / known))
    | none => .error (.cannotReshape text requested)

/-- The shape that a request stands for, given the number of elements as it was written. -/
def resolveAs (requested : List Int) (text : String) (elements? : Option Int) :
    Except Fault Shape := do
  let shape ← ofInts (← filled requested text elements?)
  if elements? = some (shape.elements : Int) then pure shape
  else throw (.cannotReshape text (shape.extents.map Int.ofNat))

/-- The shape that a request stands for, given the number of elements. -/
def resolve (requested : List Int) (elements : Int) : Except Fault Shape :=
  resolveAs requested (toString elements) (some elements)

end Shape

end ReverseMode
