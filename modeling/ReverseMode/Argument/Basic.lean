import ReverseMode.Graph.Build
import ReverseMode.Layer.Basic
import ReverseMode.Tensor.Text

/-!
Arguments: the values that calls of the expression language are made with.

Callers write numbers, text, lists and arrays where nodes, shapes, axes or parameters of
operators are expected. An argument keeps what was written, so that it can be shown in a
message, and is read as what the call needs.
-/

namespace ReverseMode

/-- A value handed to a call. -/
inductive Argument (α : Type) where
  | none
  | bool (b : Bool)
  | int (n : Int)
  | real (x : Float)
  | text (s : String)
  | list (items : List (Argument α))
  | tuple (items : List (Argument α))
  | slice (start stop step : Argument α)
  | record (entries : List (String × Argument α))
  /-- A number with a storage type. -/
  | scalar (s : Scalar)
  /-- An array with a storage type. -/
  | array (type : StorageType) (values : Tensor Scalar)
  /-- The name of an element type, as a value of its own. -/
  | elementType (name : String)
  | node (n : Node α)
  | rule (r : Rule α)
  | initializer (i : Initializer α)
  | layer (l : Layer α (Argument α))
  /-- The optimizer of this number in a session. -/
  | optimizer (serial : Nat) (kind : String)

namespace Argument

variable {α : Type}

instance : Inhabited (Argument α) := ⟨none⟩

mutual

/-- The argument as text that shows what kind of value it is. -/
def shown : Argument α → String
  | none => "None"
  | bool b => Fault.truth b
  | int n => toString n
  | real x => Decimal.text x
  | text s => Text.quoted s
  | list items => Text.bracketed (shownAll items)
  | tuple items => Text.parenthesized (shownAll items)
  | slice a b c => "slice(" ++ Text.commas [shown a, shown b, shown c] ++ ")"
  | record entries => "\x7b" ++ Text.commas (shownEntries entries) ++ "\x7d"
  | scalar s => s.typedText
  | array t values => values.typedText t
  | elementType name => "dtype(" ++ Text.quoted name ++ ")"
  | node n => n.text
  | rule r => "<function " ++ r.name ++ ">"
  | initializer _ => "<function>"
  | layer l => l.text
  | optimizer _ kind => "<" ++ kind ++ " object>"

/-- Arguments as texts. -/
def shownAll : List (Argument α) → List String
  | [] => []
  | a :: rest => shown a :: shownAll rest

/-- Keys and values as texts. -/
def shownEntries : List (String × Argument α) → List String
  | [] => []
  | (key, a) :: rest => (Text.quoted key ++ ": " ++ shown a) :: shownEntries rest

end

/-- The argument as text by itself. -/
def plain : Argument α → String
  | text s => s
  | scalar s => s.plainText
  | array t values => values.plainText t
  | elementType name => name
  | a => a.shown

/-- The name of the class of an element type. -/
def elementClass (name : String) : String :=
  (if name.startsWith "uint" then "UInt" ++ (name.drop 4).toString else name.capitalize) ++ "DType"

/-- The name of the type of an argument. -/
def typeName : Argument α → String
  | none => "NoneType"
  | bool _ => "bool"
  | int _ => "int"
  | real _ => "float"
  | text _ => "str"
  | list _ => "list"
  | tuple _ => "tuple"
  | slice _ _ _ => "slice"
  | record _ => "dict"
  | scalar s => s.ownType.name
  | array _ _ => "ndarray"
  | elementType name => elementClass name
  | node _ => "Node"
  | rule _ | initializer _ => "function"
  | layer l => l.kind
  | optimizer _ kind => kind

/-! ### Numbers -/

/-- Whether an argument is a number; truth values are not. -/
def isNumber : Argument α → Bool
  | int _ | real _ => true
  | scalar (.bool _) => false
  | scalar _ => true
  | _ => false

/-- An integer as a double. -/
def intToReal (n : Int) : Except Fault Float :=
  match Number.ofInt? n with
  | some x => .ok x
  | Option.none => .error (.plain .overflow)

/-- The element of an array without axes; other arrays do not stand for a number. -/
def onlyElement (values : Tensor Scalar) : Except Fault Scalar :=
  match values.shape, values.toList with
  | [], [s] => .ok s
  | _, _ => .error .type

/-- The argument read as a real number. -/
def toReal : Argument α → Except Fault Float
  | bool b => .ok (if b then 1.0 else 0.0)
  | int n => intToReal n
  | real x => .ok x
  | text s => match Text.real? s with
    | some x => .ok x
    | Option.none => .error .value
  | scalar s => .ok s.toFloat
  | array _ values => do pure (← onlyElement values).toFloat
  | _ => .error .type

/-- A stored number as an integer, without its fraction. -/
def scalarToInt : Scalar → Except Fault Int
  | .bool b => .ok (if b then 1 else 0)
  | .int _ n | .whole n => .ok n
  | s => Entry.truncated s.toFloat

/-- The argument read as an integer; fractions are dropped. -/
def toInt : Argument α → Except Fault Int
  | bool b => .ok (if b then 1 else 0)
  | int n => .ok n
  | real x => Entry.truncated x
  | text s => match Text.integer? s with
    | some n => .ok n
    | Option.none => .error .value
  | scalar s => scalarToInt s
  | array _ values => do scalarToInt (← onlyElement values)
  | _ => .error .type

/-- The integer an argument is, if it is one; fractions and text are none. -/
def index? : Argument α → Option Int
  | bool b => some (if b then 1 else 0)
  | int n => some n
  | scalar (.int _ n) => some n
  | _ => Option.none

/-- Whether an argument counts as true. -/
def truth : Argument α → Except Fault Bool
  | none => .ok false
  | bool b => .ok b
  | int n => .ok (n != 0)
  | real x => .ok (x != 0.0)
  | text s => .ok !s.isEmpty
  | list items | tuple items => .ok !items.isEmpty
  | record entries => .ok !entries.isEmpty
  | scalar s => .ok s.truth
  | array _ values => match values.toList with
    | [s] => .ok s.truth
    | _ => .error .value
  | _ => .ok true

/-- Whether an argument equals zero. -/
def isZero : Argument α → Except Fault Bool
  | bool b => .ok !b
  | int n => .ok (n = 0)
  | real x => .ok (x == 0.0)
  | scalar s => .ok (s.toFloat == 0.0)
  | array _ values => match values.toList with
    | [s] => .ok (s.toFloat == 0.0)
    | _ => .error .value
  | _ => .ok false

/-- The number an argument is, without a type unless it is stored. -/
def number? : Argument α → Option Scalar
  | bool b => some (.whole (if b then 1 else 0))
  | int n => some (.whole n)
  | real x => some (.real x)
  | scalar s => some s
  | _ => Option.none

/-- The argument as numbers to calculate with. -/
def toParameter : Argument α → Except Fault (Tensor Scalar)
  | array _ values => .ok values
  | a => match a.number? with
    | some s => .ok (.scalar s)
    | Option.none => .error .type

/-- Numbers as an argument. Those that have no type are numbers by themselves. -/
def ofNumbers (values : Tensor Scalar) : Argument α :=
  match values.shape, values.toList with
  | [], [.whole n] => int n
  | [], [.real x] => real x
  | [], [s] => scalar s
  | _, xs => array ((xs.head?.map Scalar.ownType).getD .float64) values

/-! ### Shapes, axes, types and selections -/

/-- The items of an argument that has any. -/
def items : Argument α → Except Fault (List (Argument α))
  | list items | tuple items => .ok items
  | text s => .ok (s.toList.map fun c => text c.toString)
  | record entries => .ok (entries.map fun e => text e.1)
  | array t values =>
    match values.shape with
    | [] => .error .type
    | [_] => .ok (values.toList.map scalar)
    | e :: rest =>
      let size := volume rest
      .ok ((List.range e).map fun i =>
        match Tensor.ofArray? rest ((values.toList.drop (i * size)).take size).toArray with
        | some row => array t row
        | Option.none => none)
  | _ => .error .type

/-- Items read as integers. -/
def toInts (a : Argument α) : Except Fault (List Int) := do
  (← a.items).mapM toInt

/-- The argument read as a shape; an integer is the extent of a single axis. -/
def toShape : Argument α → Except Fault Shape
  | bool b => Shape.ofInts [if b then 1 else 0]
  | int n => Shape.ofInts [n]
  | a => do Shape.ofInts (← a.toInts)

/-- The argument read as an axis. -/
def toAxis (a : Argument α) : Axis := ⟨a.index?, a.shown, a.plain⟩

/-- The argument read as an element type. -/
def toType (a : Argument α) : Except Fault ElementType :=
  let name := match a with
    | text s => s
    | elementType name => name
    | _ => ""
  match ElementType.ofName? name with
  | some t => .ok t
  | Option.none => .error (.unknownType a.shown)

/-- The element type an argument asks for; one that counts as false asks for none. -/
def toTypeRequest (a : Argument α) : Deferred (Option ElementType) := do
  if ← a.truth then pure (some (← a.toType)) else pure Option.none

mutual

/-- The argument as a value that can be shown again. -/
def toDatum : Argument α → Datum
  | none => .none
  | bool b => .bool b
  | int n => .int n
  | real x => .real x
  | text s | elementType s => .text s
  | list items | tuple items => .list (toData items)
  | record entries => .record (toDataEntries entries)
  | scalar s => .scalar s
  | array t values => .array t values
  | a => .other a.shown

/-- Arguments as values. -/
def toData : List (Argument α) → List Datum
  | [] => []
  | a :: rest => toDatum a :: toData rest

/-- Keys and arguments as values. -/
def toDataEntries : List (String × Argument α) → List (String × Datum)
  | [] => []
  | (key, a) :: rest => (key, toDatum a) :: toDataEntries rest

end

/-- The argument as it was written. -/
def toWritten (a : Argument α) : Except Fault Written := do
  pure ⟨a.toDatum, ← a.truth, a.plain, a.shown⟩

/-- What a debug operator says, as it was written. -/
def toMessage (a : Argument α) : Message := ⟨a.shown, a.plain⟩

/-- The argument read as a limit on samples. Stored integers wrap when they are halved. -/
def toSampleLimit : Argument α → SampleLimit
  | bool b => .ofInt (if b then 1 else 0)
  | int n => .ofInt n
  | real x => .loose x
  | scalar (.int t n) => .count n (n / 2) (t.wrap (-n) / 2)
  | scalar s => .loose s.toFloat
  | array _ values => match values.toList with
    | [s] => .loose s.toFloat
    | _ => .refused .value
  | _ => .refused .type

/-- The argument read as a bound of a range. -/
def toBound : Argument α → Bound
  | none => .leftOut
  | a => match a.index? with
    | some n => .given n a.shown
    | Option.none => .refused a.shown

/-- The argument read as a selection along an axis. -/
def toSelection : Argument α → Selection
  | slice a b c => .range [a.toBound, b.toBound, c.toBound]
  | tuple items => .range (items.map toBound)
  | array t values => .array values.toList (array t values : Argument α).shown
      (array t values : Argument α).plain
  | a => match a.number? with
    | some s => .place s a.shown a.plain
    | Option.none => .refused a.shown

/-! ### Nodes -/

/-- The argument where a node is expected. -/
def toInput : Argument α → Input α
  | node n => .node n
  | a => .other a.typeName

/-- The node an argument is, if it is one. -/
def node? : Argument α → Option (Node α)
  | node n => some n
  | _ => Option.none

end Argument

end ReverseMode
