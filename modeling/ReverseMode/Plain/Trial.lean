import ReverseMode.Argument.Array
import ReverseMode.Argument.Operator
import ReverseMode.Operator.Gradient

/-!
One operator run by itself on plain arrays: forward into a buffer of a given signature,
then one backward step into buffers of zeros.
-/

namespace ReverseMode

/-- An array with its type, as it goes into an operator by itself. -/
structure Plate where
  type : StorageType
  values : Tensor Scalar
deriving Inhabited

namespace Plate

open scoped Element

/-- A buffer of zeros like an array. -/
def zeros (p : Plate) : Plate :=
  ⟨p.type, p.values.map fun _ => (Scalar.whole 0).store p.type⟩

/-- An array as an argument. -/
def toArgument (p : Plate) : Argument Scalar := .array p.type p.values

/-- The argument read as an array. -/
def ofArgument (a : Argument Scalar) : Except Fault Plate := do
  let l ← a.toLiteral
  match l.type with
  | .number t => pure ⟨t, ← l.numbers⟩
  | _ => throw .type

end Plate

/-- What is left of an operator run by itself. -/
structure Trial where
  op : Operator Scalar
  out : Plate
  /-- The gradient buffers of the wanted inputs. -/
  grads : List (Option Plate)

namespace Trial

/-- The output of an operator in a buffer of the given type and extents. -/
def output (op : Operator Scalar) (inputs : List Plate) (type : StorageType) (shape : List Nat) :
    Except Fault Plate := do
  let values := inputs.map Plate.values
  if op.isView then
    pure ⟨(inputs.head?.map Plate.type).getD type, ← op.viewOf values⟩
  else pure ⟨type, ← op.forward type shape values⟩

/-- The gradient buffers, one for every input. -/
abbrev Buffers := List (Option Plate)

/-- A change of the buffer of a slot, if the slot is wanted. -/
def change (slot : Nat) (f : Plate → Except Fault (Tensor Scalar)) (grads : Buffers) :
    Except Fault Buffers := do
  match grads[slot]? with
  | none => throw .index
  | some none => pure grads
  | some (some p) => pure (grads.set slot (some ⟨p.type, ← f p⟩))

/-- A contribution added to its buffer. -/
def addOne (grads : Buffers) (made : Nat × Except Fault (Contribution Scalar)) :
    Except Fault Buffers := do
  let contribution ← made.2
  change made.1 (fun p => contribution.addTo p.values) grads

/-- Nothing, in an array of the given extents, added to a buffer. -/
def addMissing (shape : List Nat) (p : Plate) : Except Fault (Tensor Scalar) := do
  if volume shape ≠ p.values.size then throw .value
  let x ← Entry.missing.storeIn p.type
  p.values.accumulate (.full p.values.shape x)

/-- The same for the places that were picked along an axis. -/
def addMissingAt (k : Int) (axis : Axis) (descending : Bool) (a : Plate) (p : Plate) :
    Except Fault (Tensor Scalar) := do
  let x ← Entry.missing.storeIn a.type
  p.values.accumulate (← Operator.topKGradient k axis descending a.values (.scalar x))

/-- A backward step without an output gradient. Few operators can make it: those that pass
the gradient on as it is. -/
def stepWithout (op : Operator Scalar) (inputs : List Plate) (out : Plate) (grads : Buffers) :
    Except Fault Buffers :=
  match op, inputs with
  | .joint .plus, _ => do change 1 (addMissing []) (← change 0 (addMissing []) grads)
  | .unary (.addScalar _), _ => change 0 (addMissing []) grads
  | .reduce .sum axis, a :: _ => do
    let _ ← axis.resolve a.values.rank
    change 0 (addMissing a.values.shape) grads
  | .topK k axis descending _, a :: _ => change 0 (addMissingAt k axis descending a) grads
  | .cast t, _ => if t.isFloat then .error .absentPart else .ok grads
  | .transpose _, _ | .reshape _, _ | .concatenate _, _ => .error .absentPart
  | .slice _ _, _ => change 0 (fun _ => .error (.plain .operation)) grads
  | .indexSelect _, _ => change 0 (fun _ => .error (.plain .axis)) grads
  | .gather _, _ => change 0 (fun _ => .error .type) grads
  | .logSoftmax axis, _ => do
    if (← axis.resolve out.values.rank) = 0 then throw .type else throw (.plain .axis)
  | .joint (.compare _), _ | .stopGradient, _ | .unspecified _, _ => .error .undefined
  | _, _ => .error .type

/-- One backward step. If it is `guarded`, an operator without derivative and a step without
a gradient or of which nothing is wanted do nothing. -/
def backwardStep (guarded : Bool) (op : Operator Scalar) (inputs : List Plate) (out : Plate)
    (g? : Option (Tensor Scalar)) (grads : Buffers) : Except Fault Buffers :=
  let wanted := grads.map Option.isSome
  if guarded && (g?.isNone || !op.differentiable || !wanted.any id) then .ok grads
  else match g? with
    | none => stepWithout op inputs out grads
    | some g =>
      (op.contributions (inputs.map Plate.values) out.values g wanted).foldlM addOne grads

/-- An operator run forward and backward. -/
def run (op : Operator Scalar) (inputs : List Plate) (type : StorageType) (shape : List Nat)
    (outGrad : Argument Scalar) (wanted : List Bool) (guarded : Bool) : Except Fault Trial := do
  let out ← output op inputs type shape
  let grads := List.zipWith (fun (p : Plate) w => if w then some p.zeros else none) inputs wanted
  let g? ← match outGrad with
    | .none => pure none
    | g => do pure (some (← (← g.toLiteral).storeIn out.type))
  pure ⟨op, out, ← backwardStep guarded op inputs out g? grads⟩

/-- A trial as entries with names. -/
def toArgument (t : Trial) : Argument Scalar :=
  .record
    [("kind", .text t.op.kind), ("repr", .text t.op.text), ("view", .bool t.op.isView),
     ("memoize", .bool t.op.memoize), ("differentiable", .bool t.op.differentiable),
     ("out", t.out.toArgument),
     ("grads", .list (t.grads.map fun g => (g.map Plate.toArgument).getD .none))]

end Trial

end ReverseMode
