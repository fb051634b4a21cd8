import ReverseMode.Element.Kind
import ReverseMode.Fault

/-!
The element type of nodes that are combined. Types of one kind give the widest of
them; kinds do not mix.
-/

namespace ReverseMode

namespace ElementType

/-- The element type that nodes of these types combine to. -/
def common (types : List ElementType) : Except Fault ElementType :=
  match types with
  | [] => .error .value
  | t :: rest =>
    if rest.all fun s => s.kind = t.kind then .ok (rest.foldl wider t)
    else .error (.mixedTypes (types.map name))

/-- The type itself, if it is a float type. -/
def requireFloat (t : ElementType) (what : String) : Except Fault ElementType :=
  if t.isFloat then .ok t else .error (.notFloat what t.name)

end ElementType

end ReverseMode
