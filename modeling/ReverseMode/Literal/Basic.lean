import ReverseMode.Text.Numeral
import ReverseMode.Tensor.Basic

/-!
Arrays handed in by callers.

A literal is an array of entries that mostly are numbers of one storage type. Text and
values that are no numbers can be in it too; they are read, or refused, when the
literal is stored in an element type.
-/

namespace ReverseMode

/-- One entry of a literal. -/
inductive Entry where
  | number (s : Scalar)
  | text (s : String)
  | missing
  | other
deriving Repr, Inhabited

/-- The type that the entries of a literal share. -/
inductive EntryType where
  | number (t : StorageType)
  | text (width : Nat)
  | object
deriving DecidableEq, Repr, Inhabited

namespace EntryType

/-- The name of an entry type; text counts 32 bits for a character. -/
def name : EntryType → String
  | number t => t.name
  | text width => "str" ++ toString (32 * width)
  | object => "object"

end EntryType

/-- An array handed in by a caller. -/
structure Literal where
  type : EntryType
  entries : Tensor Entry
deriving Repr, Inhabited

namespace Entry

/-- An integer that has no type yet, stored without loss of range. -/
def storeWhole (t : StorageType) (n : Int) : Except Fault Scalar :=
  match t with
  | .int type => if type.fits n then .ok (.int type n) else .error (.plain .overflow)
  | .bool => .ok (.bool (n != 0))
  | s => if (Number.ofInt? n).isSome then .ok ((Scalar.whole n).store s)
    else .error (.plain .overflow)

/-- A double without its fraction; an infinity and a NaN have none. -/
def truncated (x : Float) : Except Fault Int :=
  match Number.truncate? x with
  | some n => .ok n
  | none => .error (if x.isNaN then .value else .plain .overflow)

/-- A real number that has no type yet, stored without loss of range. -/
def storeReal (t : StorageType) (x : Float) : Except Fault Scalar :=
  match t with
  | .int _ => do storeWhole t (← truncated x)
  | s => .ok ((Scalar.real x).store s)

/-- Text stored as a number. -/
def storeText (t : StorageType) (s : String) : Except Fault Scalar :=
  match t with
  | .bool | .int _ =>
    match Text.integer? s with
    | some n => storeWhole t n
    | none => .error .value
  | t =>
    match Text.real? s with
    | some x => .ok ((Scalar.real x).store t)
    | none => .error .value

/-- An entry stored in a type. Stored numbers are converted; those without a type have to
fit. -/
def storeIn (t : StorageType) : Entry → Except Fault Scalar
  | number (.whole n) => storeWhole t n
  | number (.real x) => storeReal t x
  | number s => .ok (s.store t)
  | text s => storeText t s
  | missing =>
    match t with
    | .int _ => .error .type
    | .bool => .ok (.bool false)
    | s => .ok ((Scalar.real (0.0 / 0.0)).store s)
  | other => .error .type

end Entry

namespace Literal

/-- The extents of a literal. -/
def shape (l : Literal) : List Nat := l.entries.shape

/-- The number of entries. -/
def size (l : Literal) : Nat := l.entries.size

/-- The literal without axes that holds one entry. -/
def single (type : EntryType) (e : Entry) : Literal := ⟨type, .scalar e⟩

/-- A literal that holds stored numbers. -/
def ofScalars (t : StorageType) (values : Tensor Scalar) : Literal :=
  ⟨.number t, values.map Entry.number⟩

/-- Every entry stored in a type. -/
def storeIn (t : StorageType) (l : Literal) : Except Fault (Tensor Scalar) := do
  let stored ← l.entries.toList.mapM (Entry.storeIn t)
  match Tensor.ofArray? l.shape stored.toArray with
  | some values => pure values
  | none => throw .value

/-- Every entry stored in an element type. -/
def store (t : ElementType) (l : Literal) : Except Fault (Tensor Scalar) := l.storeIn t.storage

/-- An entry taken out of its array: an integer loses its type, a real number becomes a
double. -/
def bare : Entry → Entry
  | .number (.int _ n) => .number (.whole n)
  | .number (.float16 x) | .number (.float32 x) => .number (.float64 x.toFloat)
  | e => e

/-- The stored numbers of a literal; anything else is refused. -/
def numbers (l : Literal) : Except Fault (Tensor Scalar) := do
  let stored ← l.entries.toList.mapM fun
    | .number s => Except.ok s
    | _ => .error .type
  match Tensor.ofArray? l.shape stored.toArray with
  | some values => pure values
  | none => throw .value

end Literal

end ReverseMode
