import ReverseMode.Argument.Call
import ReverseMode.Operator.Rules

/-!
Operators made by name from arguments.

The parameters of an operator are read as soon as it is made, except for axes and
selections, which only have a meaning beside a shape.
-/

namespace ReverseMode

namespace Argument

variable {α : Type}

mutual

/-- Whether an argument can be looked up in a table; lists, records and arrays cannot. -/
def isKey : Argument α → Bool
  | list _ | record _ | array _ _ | slice .. => false
  | tuple items => areKeys items
  | _ => true

/-- Whether arguments can be looked up in a table. -/
def areKeys : List (Argument α) → Bool
  | [] => true
  | a :: rest => isKey a && areKeys rest

end

/-- The argument as a name that is looked up. -/
def toName (a : Argument α) : Except Fault Written :=
  if a.isKey then a.toWritten else .error .type

/-- The name of a relation. -/
def toRelation (a : Argument α) : Except Fault Relation :=
  match a with
  | text s => match Relation.ofName? s with
    | some r => .ok r
    | Option.none => .error (.unknownComparison a.shown)
  | a => if a.isKey then .error (.unknownComparison a.shown) else .error .type

/-- The name of a reduction. -/
def toReduction (a : Argument α) : Except Fault Reduction :=
  match a with
  | text s => match Reduction.ofName? s with
    | some r => .ok r
    | Option.none => .error (.unknownReduction a.shown)
  | array t values =>
    .error (if values.size = 1 then .unknownReduction (array t values : Argument α).shown
      else .value)
  | a => .error (.unknownReduction a.shown)

/-- A rule that cannot be called. -/
def uncallable (name : String) : Rule α where
  name := name
  forward _ _ := .error .type
  backward _ _ _ := [(0, .error .type)]

/-- The argument as a function for forward steps. -/
def toForward : Argument α → Rule α
  | rule r => r
  | initializer _ => uncallable "init"
  | _ => uncallable "lambda"

/-- The argument as a function that is told what a debug operator sees. -/
def toObserver : Argument α → Observer
  | rule r => .refusing r.unobserving
  | _ => .refusing .type

/-- The argument as a function for backward steps, if there is one. -/
def toBackward : Argument α → Option (Rule α)
  | none => Option.none
  | rule r => some r
  | _ => some (uncallable "lambda")

end Argument

namespace Operator

variable {α : Type}

open Formal (required optional)

/-- The operator of a function that a caller supplies. -/
def ofRule (shape type forward backward name : Argument α) : Except Fault (Operator α) := do
  let shape ← shape.toShape
  let type ← type.toType
  let shown := if ← name.truth then name.plain else forward.toForward.name
  pure (.custom shape type forward.toForward backward.toBackward shown)

/-- The parameters of the operators of a name; none where there is no such operator. -/
def formals? : String → Option (List (Formal α))
  | "Plus" | "Minus" | "Mult" | "Div" | "Maximum" | "Minimum" | "LogAddExp" | "Neg" | "Square"
  | "Abs" | "Exp" | "Log" | "Sin" | "Cos" | "Tan" | "Sigmoid" | "ReLU" | "StopGradient" | "Tanh"
  | "Highway" | "Operator" | "ElementwiseOperator" => some []
  | "Compare" => some [required "relation"]
  | "ScalarAdd" | "ScalarMult" => some [required "scalar"]
  | "Sqrt" => some [optional "eps" (.real 0.0)]
  | "Swish" => some [optional "beta" (.real 1.0)]
  | "PReLU" => some [optional "alpha" (.real 0.01)]
  | "Clip" | "ClipGradient" => some [required "c"]
  | "Cast" => some [required "dtype"]
  | "Debug" => some [required "message", required "sink"]
  | "Reduce" => some [required "reduction", required "axis"]
  | "ScalarProduct" | "IndexSelect" | "Gather" => some [required "axis"]
  | "Softmax" | "LogSoftmax" => some [optional "axis" (.int (-1))]
  | "CrossEntropy" => some [optional "label_smoothing" (.real 0.0)]
  | "LayerNorm" => some [optional "eps" (.real 1e-9)]
  | "TopK" => some [required "k", optional "axis" (.int (-1)), optional "descending" (.bool true),
      optional "indices" (.bool false)]
  | "MatMul" => some [optional "trans_a" (.bool false), optional "trans_b" (.bool false),
      optional "scalar" (.real 1.0), optional "batched" (.bool false)]
  | "Transpose" => some [required "axes"]
  | "Reshape" => some [required "shape"]
  | "Concatenate" => some [optional "axis" (.int 0)]
  | "Slice" => some [required "axis", required "index"]
  | "Lambda" => some [required "shape", required "dtype", required "forward_fn",
      optional "backward_fn" .none, optional "name" .none]
  | _ => none

/-- The elementwise operators without parameters. -/
def plain? : String → Option (Operator α)
  | "Plus" => some (.joint .plus)
  | "Minus" => some (.joint .minus)
  | "Mult" => some (.joint .mult)
  | "Div" => some (.joint .div)
  | "Maximum" => some (.joint .maximum)
  | "Minimum" => some (.joint .minimum)
  | "LogAddExp" => some (.joint .logAddExp)
  | "Tanh" => some (.joint .tanh)
  | "Highway" => some (.joint .highway)
  | "Neg" => some (.unary .neg)
  | "Square" => some (.unary .square)
  | "Abs" => some (.unary .abs)
  | "Exp" => some (.unary .exp)
  | "Log" => some (.unary .log)
  | "Sin" => some (.unary .sin)
  | "Cos" => some (.unary .cos)
  | "Tan" => some (.unary .tan)
  | "Sigmoid" => some (.unary .sigmoid)
  | "ReLU" => some (.unary .relu)
  | "StopGradient" => some .stopGradient
  | "Operator" => some (.unspecified false)
  | "ElementwiseOperator" => some (.unspecified true)
  | _ => none

/-- An operator with one real parameter. -/
def withReal? : String → Option (Float → Operator α)
  | "ScalarAdd" => some fun x => .unary (.addScalar x)
  | "ScalarMult" => some fun x => .unary (.mulScalar x)
  | "Sqrt" => some fun x => .unary (.sqrt x)
  | "Swish" => some fun x => .unary (.swish x)
  | "PReLU" => some fun x => .unary (.prelu x)
  | "Clip" => some fun x => .unary (.clip x)
  | "ClipGradient" => some .clipGradient
  | "CrossEntropy" => some .crossEntropy
  | "LayerNorm" => some .layerNorm
  | _ => none

/-- The operator of a name, from the arguments bound to its parameters. -/
def build (name : String) (bound : List (Argument α)) : Except Fault (Operator α) := do
  match name, bound with
  | "Compare", [r] => pure (.joint (.compare (← r.toRelation)))
  | "Cast", [t] => pure (.cast (← t.toType))
  | "Debug", [message, observer] => pure (.debug message.toMessage observer.toObserver)
  | "Reduce", [r, axis] => pure (.reduce (← r.toReduction) axis.toAxis)
  | "ScalarProduct", [axis] => pure (.scalarProduct axis.toAxis)
  | "Softmax", [axis] => pure (.softmax axis.toAxis)
  | "LogSoftmax", [axis] => pure (.logSoftmax axis.toAxis)
  | "TopK", [k, axis, descending, indices] =>
    pure (.topK (← k.toInt) axis.toAxis (← descending.truth) (← indices.truth))
  | "MatMul", [transA, transB, scalar, batched] =>
    pure (.matMul (← transA.truth) (← transB.truth) (← scalar.toReal) (← batched.truth))
  | "Transpose", [axes] => pure (.transpose (← axes.toInts))
  | "Reshape", [shape] => pure (.reshape (← shape.toInts))
  | "Concatenate", [axis] => pure (.concatenate axis.toAxis)
  | "Slice", [axis, index] => pure (.slice axis.toAxis index.toSelection)
  | "IndexSelect", [axis] => pure (.indexSelect axis.toAxis)
  | "Gather", [axis] => pure (.gather axis.toAxis)
  | "Lambda", [shape, type, forward, backward, name] => ofRule shape type forward backward name
  | name, [] =>
    match plain? name with
    | some op => pure op
    | none => throw .type
  | name, [x] =>
    match withReal? name with
    | some make => pure (make (← x.toReal))
    | none => throw .type
  | _, _ => throw .type

/-- The operator of a name, made with the arguments of a call. -/
def named (name : String) (call : Call α) : Except Fault (Operator α) :=
  match formals? name with
  | some formals => do build name (← call.bind formals)
  | none => .error .absentPart

end Operator

end ReverseMode
