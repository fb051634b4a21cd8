import ReverseMode.Argument.Initializer
import ReverseMode.Argument.Settings
import ReverseMode.Element.Promotion
import ReverseMode.Graph.Report
import ReverseMode.Operator.Fibres
import ReverseMode.Plain.Loose
import ReverseMode.Plain.Trial
import ReverseMode.Shape.Broadcast

/-!
Calls that need no graph, by name: on shapes, element types, settings, arrays and single
operators.
-/

namespace ReverseMode

namespace Plain

open Formal (required optional)

/-- Arguments and results of plain calls. -/
abbrev Value := Argument Scalar

/-- Extents as a value. -/
def extentsValue (s : Shape) : Value :=
  .list (s.extents.map fun (e : Nat) => .int (e : Int))

/-- A shape with all that is known of it. -/
def shapeValue (s : Shape) : Value :=
  .record
    [("shape", extentsValue s), ("rank", .int s.rank), ("elements", .int s.elements),
     ("repr", .text ("Shape(" ++ s.text ++ ")"))]

/-- A value as an integer; nothing else will do. -/
def integerOf (a : Value) : Except Fault Int :=
  match a.index? with
  | some n => .ok n
  | none => .error .type

/-- The name of an element type that a value is or stands for. -/
def typeName? : Value → Option String
  | .text s | .elementType s => some s
  | _ => none

/-- The element type that a value names, if there is one. -/
def typeOf? (a : Value) : Option ElementType := (typeName? a).bind ElementType.ofName?

/-- The element type of the array that a value is read as. -/
def typeOfArray (a : Value) : Except Fault ElementType := do
  let name := (← a.toLiteral).type.name
  match ElementType.ofName? name with
  | some t => pure t
  | none => throw (.unknownType (Text.quoted name))

/-- Whether a value names an element type with a property. Only an array of one element can
be compared with names. -/
def namesType (property : ElementType → Bool) (d : Value) : Except Fault Bool :=
  match d with
  | .array _ values => if values.size = 1 then .ok false else .error .value
  | d => .ok ((typeOf? d).any property)

/-- A value that has to name a float type. -/
def requireFloat (d what : Value) : Except Fault Value := do
  if ← namesType ElementType.isFloat d then pure d else throw (.notFloat what.plain d.plain)

/-- The entries of a record; nothing stands for no entries. -/
def entriesOf : Value → Except Fault (Settings.Entries Scalar)
  | .none => .ok []
  | .record entries => .ok entries
  | a => do if ← a.truth then throw .absentPart else pure []

/-- The entries given by name beside a record called `config`. -/
def namedEntriesOf : Value → Except Fault (Settings.Entries Scalar)
  | .none => .ok []
  | .record entries =>
    if (entries.lookup "config").isSome then .error .type else .ok entries
  | a => do if ← a.truth then throw .type else pure []

/-- An array as it is shown in a log. A number that is no array is shown by itself. -/
def formatArray (a limit : Value) : Except Fault String :=
  match a with
  | .none => .ok "<released>"
  | .bool b => .ok (Decimal.fixedText 6 (if b then 1.0 else 0.0))
  | .int n => do pure (Decimal.fixedText 6 (← Argument.intToReal n))
  | .real x | .scalar (.float64 x) => .ok (Decimal.fixedText 6 x)
  | a => do
    let xs ← (← a.toLiteral).storeIn .float64
    Report.arrayText limit.toSampleLimit (xs.toList.map Scalar.toFloat)

/-- A number of bytes without a storage type; a large one is divided before it is rounded. -/
def formatWhole (n : Int) : Except Fault String := do
  if n < 1024 then pure (Decimal.fixedText 0 (← Argument.intToReal n) ++ "B")
  else
    let kilo := Number.ofScaled n.toNat (-10)
    if kilo.isInf then throw (.plain .overflow)
    pure (Report.sizeText Report.largerUnits (.real kilo))

/-- Why an array is no number of bytes. -/
def arrayBytesFault (t : StorageType) (values : Tensor Scalar) : Fault :=
  match values.toList with
  | [s] => if t.breadth < StorageType.float64.breadth && 1024.0 ≤ s.toFloat then .plain .operation
    else .type
  | _ => .value

/-- A number of bytes as it is shown in a log. -/
def formatBytes (n : Value) : Except Fault String :=
  match n with
  | .bool b => formatWhole (if b then 1 else 0)
  | .int n => formatWhole n
  | .real x => .ok (Report.bytesText (.real x))
  | .scalar s => .ok (Report.bytesText s)
  | .array t values => .error (arrayBytesFault t values)
  | _ => .error .type

/-- An array, or the number it holds if it has no axes. -/
def bareValue (t : Tensor Scalar) (usual : StorageType) : Value :=
  match t.shape, t.toList with
  | [], [s] => .scalar s
  | _, xs => .array ((xs.head?.map Scalar.ownType).getD usual) t

/-- An array all of whose elements have a type. -/
def storedAs (t : StorageType) (values : Tensor Scalar) : Tensor Scalar := values.map (Scalar.store t)

/-- The extents that some elements are laid out in. A negative one stands for what is
missing. -/
def layoutOf (extents : List Int) (size : Nat) : Except Fault (List Nat) :=
  let known := (extents.filter (0 ≤ ·)).foldr (· * ·) 1
  match (extents.filter (· < 0)).length with
  | 0 => .ok (extents.map Int.toNat)
  | 1 =>
    if known = 0 ∨ (size : Int) % known ≠ 0 then .error .value
    else .ok (extents.map fun e => if e < 0 then (size / known).toNat else e.toNat)
  | _ => .error .value

/-- A gradient summed back to the extents of the input it belongs to. -/
def unbroadcast (g shape : Value) : Except Fault Value := do
  let p ← Plate.ofArgument g
  let extents ← (← shape.items).mapM integerOf
  let front ← p.values.sumLeading extents.length
  let axes := Tensor.widened front.shape (extents.map Int.toNat)
  let summed := if axes.isEmpty then front else front.sumAxes axes
  let type := if summed.shape = p.values.shape then p.type else Scalar.sumType p.type
  pure (bareValue (storedAs type (← summed.reshape (← layoutOf extents summed.size))) type)

/-- At every place the product of all other elements along an axis. The last axis is only
known by its place from the front. An axis without elements becomes one with a single one. -/
def productOfOthers (a axis : Value) : Except Fault Value := do
  let p ← Plate.ofArgument a
  let n ← integerOf axis
  let i ← match Axis.wrap? n p.values.rank with
    | some i => pure i
    | none => throw .index
  if n = -1 then throw .value
  let products : Tensor Scalar :=
    if p.values.extent i = 0 then .full (p.values.shape.set i 1) (.whole 1)
    else p.values.mapFibres i Fibre.productOfOthers
  let type := Scalar.sumType p.type
  pure (.array type (storedAs type products))

/-- The array that an initializer makes. -/
def initialArray (init shape type seed : Value) : Except Fault Value := do
  let shape ← shape.toShape
  let init ← init.toInitializer
  match init.held? with
  | some held => Initializer.checkSize held shape
  | none => pure ()
  let type ← type.toType
  checkRank shape.rank
  Allocator.checkBytes (shape.elements * type.bytes)
  let (t, _) ← init.run shape type (Random.ofSeed (← Settings.toSeed seed))
  if init.bare then pure (bareValue t type.storage)
  else pure (.array ((t.toList.head?.map Scalar.ownType).getD type.storage) t)

/-- The storage type that a value names. Nothing stands for doubles. -/
def storageOf (a : Value) : Except Fault StorageType :=
  match a, (typeName? a).bind StorageType.ofName? with
  | .none, _ => .ok .float64
  | _, some t => .ok t
  | _, none => .error .type

/-- The extents of a buffer, which may be zero but not negative. -/
def bufferExtents (shape : Value) : Except Fault (List Nat) := do
  let extents ← (← shape.items).mapM integerOf
  if extents.any (· < 0) then throw .value
  pure (extents.map Int.toNat)

/-- Extents and element type of a buffer of an allocator. -/
def buffer (shape type : Value) : Except Fault (List Int × ElementType) := do
  let items ← shape.items
  let type ← type.toType
  pure (← items.mapM integerOf, type)

/-- Type and extents of the output buffer; those of the first input unless they are given. -/
def bufferOf (given : List Value) (inputs : List Plate) :
    Except Fault (StorageType × List Nat) := do
  match given with
  | [] =>
    match inputs with
    | p :: _ => pure (p.type, p.values.shape)
    | [] => throw .index
  | target :: _ =>
    match ← target.items with
    | [shape, type] => pure (← storageOf type, ← bufferExtents shape)
    | _ => throw .value

/-- Which inputs a gradient is wanted of. -/
def wantedOf : List Value → Except Fault (List Bool)
  | _ :: wanted :: _ => do
    pure ((← wanted.items).map fun
      | .none => false
      | _ => true)
  | _ => .ok []

/-- One operator run by itself. -/
def operator (name params inputs outGrad signature call : Value) : Except Fault Value := do
  let op ← Operator.named name.plain ⟨← params.items, []⟩
  let plates ← (← inputs.items).mapM Plate.ofArgument
  let given ← signature.items
  let (type, extents) ← bufferOf given plates
  checkRank extents.length
  Allocator.checkBytes (volume extents * type.bytes)
  let guarded := call.plain != "backward"
  pure (← Trial.run op plates type extents outGrad (← wantedOf given) guarded).toArgument

/-- The parameters of a call, none where it takes any number of arguments or is not known. -/
def formals? : String → Option (List (Formal Scalar))
  | "normalize_axis" => some [required "axis", required "rank"]
  | "resolve_shape" => some [required "requested", required "elements"]
  | "Shape" => some [optional "extents" (.tuple [])]
  | "Shape.set" => some [required "extents", required "axis", required "extent"]
  | "Shape.normalize_axis" => some [required "extents", required "axis"]
  | "validate" | "kind" | "is_float" | "is_int" | "to_numpy" => some [required "d"]
  | "of" => some [required "array"]
  | "require_float" => some [required "d", required "what"]
  | "make_config" => some [optional "config" .none, optional "overrides" .none]
  | "format_array" => some [required "arr", optional "max_values" (.int 10)]
  | "format_bytes" => some [required "n"]
  | "unbroadcast" => some [required "grad", required "shape"]
  | "prod_of_others" => some [required "a", required "axis"]
  | "init" => some [required "init", required "shape", required "dtype", optional "seed" (.int 0)]
  | "operator" => some [required "name", required "params", required "inputs",
      optional "out_grad" .none, optional "signature" (.list []),
      optional "call" (.text "run_backward")]
  | _ => none

/-- A call with the arguments bound to its parameters. -/
def run (name : String) (bound : List Value) : Except Fault Value := do
  match name, bound with
  | "normalize_axis", [axis, rank] => normalizeAxis axis rank
  | "resolve_shape", [requested, elements] =>
    pure (extentsValue (← resolveShape (← requested.toInts) elements))
  | "Shape", [extents] => pure (shapeValue (← extents.toShape))
  | "Shape.set", [extents, axis, extent] =>
    let s ← extents.toShape
    let i ← axis.toAxis.resolve s.rank
    pure (extentsValue (← s.set (.ofInt i) (← extent.toInt)))
  | "Shape.normalize_axis", [extents, axis] =>
    pure (.int (← axis.toAxis.resolve (← extents.toShape).rank))
  | "validate", [d] | "to_numpy", [d] => pure (.text (← d.toType).name)
  | "kind", [d] => pure (.text (← d.toType).kind.name)
  | "is_float", [d] => pure (.bool (← namesType ElementType.isFloat d))
  | "is_int", [d] => pure (.bool (← namesType ElementType.isInt d))
  | "of", [a] => pure (.text (← typeOfArray a).name)
  | "require_float", [d, what] => requireFloat d what
  | "make_config", [config, overrides] =>
    let named ← namedEntriesOf overrides
    pure (.record (← Settings.merge ((← entriesOf config) ++ named)))
  | "format_array", [a, limit] => pure (.text (← formatArray a limit))
  | "format_bytes", [n] => pure (.text (← formatBytes n))
  | "unbroadcast", [g, shape] => unbroadcast g shape
  | "prod_of_others", [a, axis] => productOfOthers a axis
  | "init", [init, shape, type, seed] => initialArray init shape type seed
  | "operator", [name, params, inputs, outGrad, signature, call] =>
    operator name params inputs outGrad signature call
  | _, _ => throw .type

/-- A plain call by name. -/
def call (name : String) (arguments : List Value) : Except Fault Value := do
  match name with
  | "broadcast_shapes" =>
    pure (extentsValue (← Shape.broadcast (← arguments.mapM Argument.toShape)))
  | "result_type" =>
    pure (.text (← ElementType.common (← arguments.mapM Argument.toType)).name)
  | name =>
    match formals? name with
    | some formals => run name (← Call.bind ⟨arguments, []⟩ formals)
    | none => throw .absentPart

end Plain

end ReverseMode
