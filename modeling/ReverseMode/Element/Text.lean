import ReverseMode.Decimal.Shortest
import ReverseMode.Element.Scalar

/-!
Stored numbers as text.

A float is written with the fewest digits that read back as it in its own precision. It
is positional from `10^-4` up to a bound that depends on the precision, and has an
exponent elsewhere.
-/

namespace ReverseMode

namespace StorageType

open Number

/-- The binary format of a float type; that of doubles for other types. -/
def format : StorageType → Format
  | .float16 => .half
  | .float32 => .single
  | _ => .double

/-- The most digits before the point of a float that is written without an exponent. -/
def mostPlaces : StorageType → Nat
  | .float16 => 3
  | .float32 => 6
  | _ => 16

end StorageType

namespace Scalar

open Number

/-- Whether a magnitude lies between `10^-4` and `10^most`. -/
def isMiddling (most : Nat) (v : Finite) : Bool :=
  let (n, d) := v.fraction
  d ≤ n * Nat.pow 10 4 && n < d * Nat.pow 10 most

/-- The text of a float of a type. -/
def floatText (t : StorageType) (x : Float) : String :=
  Decimal.signed (fun v =>
    let shortest := Decimal.shortest t.format v
    if isMiddling t.mostPlaces v then shortest.positionalText else shortest.scientificText) x

/-- The text of a number, without its type. -/
def text : Scalar → String
  | bool b => Fault.truth b
  | int _ n | whole n => toString n
  | s => floatText s.ownType s.toFloat

/-- The text of a number with its type. -/
def typedText (s : Scalar) : String :=
  match s with
  | bool b => "np." ++ Fault.truth b ++ "_"
  | s => "np." ++ s.ownType.name ++ "(" ++ s.text ++ ")"

/-- The text of a number where it stands in other text: a float is written as a double. -/
def plainText : Scalar → String
  | bool b => Fault.truth b
  | int _ n | whole n => toString n
  | s => Decimal.text s.toFloat

end Scalar

end ReverseMode
