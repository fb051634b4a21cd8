import ReverseMode.Argument.Basic

/-!
Arguments read as arrays.

Nested lists are read level by level: all items of a list must have the same extents,
and the entries are stored in the type that their own types join to. Integers are read
as `int64`, or as `uint64` where only that holds them; text and values that are no
numbers make an array of text or of objects.
-/

namespace ReverseMode

namespace EntryType

/-- How many characters the numbers of a type take as text. -/
def textWidth : StorageType → Nat
  | .bool => 5
  | .int ⟨true, .w8⟩ => 4
  | .int ⟨true, .w16⟩ => 6
  | .int ⟨true, .w32⟩ => 11
  | .int ⟨true, .w64⟩ => 21
  | .int ⟨false, .w8⟩ => 3
  | .int ⟨false, .w16⟩ => 5
  | .int ⟨false, .w32⟩ => 10
  | .int ⟨false, .w64⟩ => 20
  | _ => 32

/-- The type that entries of two types are held in. -/
def join : EntryType → EntryType → EntryType
  | number s, number t => number (s.join t)
  | text m, text n => text (max m n)
  | text m, number t | number t, text m => text (max m (textWidth t))
  | object, _ | _, object => object

/-- The type that entries of these types are held in; `float64` if there are none. -/
def common : List EntryType → EntryType
  | [] => number .float64
  | t :: rest => rest.foldl join t

end EntryType

/-- Entries in row-major order with their extents, before a type is chosen for them. -/
structure Gathered where
  shape : List Nat
  types : List EntryType
  entries : List Entry
deriving Inhabited

namespace Gathered

/-- One entry by itself. -/
def single (type : EntryType) (entry : Entry) : Gathered := ⟨[], [type], [entry]⟩

/-- Parts with the same extents laid one after the other. -/
def stack (parts : List Gathered) : Except Fault Gathered :=
  match parts with
  | [] => .ok ⟨[0], [], []⟩
  | first :: _ =>
    if parts.all fun p => p.shape == first.shape then
      .ok ⟨parts.length :: first.shape, parts.flatMap types, parts.flatMap entries⟩
    else .error .value

end Gathered

namespace Entry

/-- A number as an entry of text. -/
def numberText (s : Scalar) : String := s.text

/-- An entry held in the type chosen for its array. -/
def holdIn (type : EntryType) (entry : Entry) : Entry :=
  match type, entry with
  | .number t, number s => number (s.store t)
  | .text _, number s => text (numberText s)
  | _, e => e

end Entry

namespace Argument

variable {α : Type}

/-- The type that holds an integer. -/
def integerType (n : Int) : EntryType :=
  if IntegerType.int64.fits n then .number (.int .int64)
  else if IntegerType.fits ⟨false, .w64⟩ n then .number (.int ⟨false, .w64⟩)
  else .object

mutual

/-- The entries of an argument with their extents. -/
def gather : Argument α → Except Fault Gathered
  | list items | tuple items => do Gathered.stack (← gatherAll items)
  | array t values =>
    .ok ⟨values.shape, [.number t], values.toList.map Entry.number⟩
  | bool b => .ok (.single (.number .bool) (.number (.bool b)))
  | int n => .ok (.single (integerType n) (.number (.whole n)))
  | real x => .ok (.single (.number .float64) (.number (.real x)))
  | text s => .ok (.single (.text (max 1 s.length)) (.text s))
  | scalar s => .ok (.single (.number s.ownType) (.number s))
  | none => .ok (.single .object .missing)
  | _ => .ok (.single .object .other)

/-- The entries of several arguments. -/
def gatherAll : List (Argument α) → Except Fault (List Gathered)
  | [] => .ok []
  | a :: rest => do pure ((← gather a) :: (← gatherAll rest))

end

/-- Gathered entries as a literal of a given type. -/
def literalOf (type : EntryType) (g : Gathered) (entries : List Entry) : Except Fault Literal :=
  match Tensor.ofArray? g.shape entries.toArray with
  | some entries => .ok ⟨type, entries⟩
  | Option.none => .error .value

/-- The argument read as an array. -/
def toLiteral (a : Argument α) : Except Fault Literal := do
  let g ← a.gather
  let type := EntryType.common g.types
  literalOf type g (g.entries.map (Entry.holdIn type))

/-- The argument read as a number or an array of a given storage type. -/
def toStored (t : StorageType) (a : Argument α) : Except Fault (Argument α) := do
  let g ← a.gather
  let stored ← (← literalOf (.number t) g g.entries).storeIn t
  match stored.shape, stored.toList with
  | [], [s] => pure (scalar s)
  | _, _ => pure (array t stored)

/-- A single value for every element: a number without a type has to fit. -/
def toFill (a : Argument α) : Except Fault Literal :=
  match a with
  | int n => .ok (.single (integerType n) (.number (.whole n)))
  | a => a.toLiteral

/-- The argument as the single value or the array that a constant is made of: the flag
says that it is a single value. -/
def toContent (a : Argument α) : Except Fault (Bool × Literal) := do
  let l ← a.toLiteral
  match l.shape, l.entries.toList with
  | [], [e] => pure (true, .single l.type (Literal.bare e))
  | _, _ => pure (false, l)

/-! ### Arithmetic on arguments -/

/-- Whether an argument holds stored numbers. -/
def isStored : Argument α → Bool
  | scalar _ | array _ _ => true
  | _ => false

/-- The argument as numbers to calculate with beside stored ones: a list stands for an array,
and text is refused. -/
def toTerm (a : Argument α) : Except Fault (Tensor Scalar) :=
  match a with
  | text _ => .error (.plain .operation)
  | list _ | tuple _ => do
    let l ← a.toLiteral
    match l.type with
    | .text _ => throw (.plain .operation)
    | _ => l.numbers
  | a => a.toParameter

/-- What an arithmetic sign between two numbers means. -/
def meaning? : String → Option (Scalar → Scalar → Scalar)
  | "+" => some Scalar.add
  | "-" => some Scalar.sub
  | "*" => some Scalar.mul
  | "/" => some Scalar.div
  | _ => Option.none

/-- An arithmetic sign between two arguments that are no nodes. The sum of texts or lists lays
them end to end. -/
def calculate (a : Argument α) (sign : String) (b : Argument α) : Except Fault (Argument α) :=
  match sign, a, b with
  | "+", text s, text t => .ok (text (s ++ t))
  | "+", list xs, list ys => .ok (list (xs ++ ys))
  | "+", tuple xs, tuple ys => .ok (tuple (xs ++ ys))
  | sign, a, b =>
    match meaning? sign with
    | Option.none => .error .type
    | some f => do
      let read := if a.isStored || b.isStored then toTerm else toParameter
      let result ← (← read a).combine f (← read b)
      pure (ofNumbers (← result.sound))

end Argument

end ReverseMode
