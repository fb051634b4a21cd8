import ReverseMode.Decimal.Shortest
import ReverseMode.Operator.Basic

/-!
Operators as text, and the keys under which equal applications are found.

An operator is written as its kind with its parameters. A key holds the kind, the
parameters and the inputs. Parameters are compared as numbers: the two zeros are
equal, and a NaN equals nothing, not even itself. Here parameters have no identity beside
their value; where the very object that a key holds is handed in again, the program compares
it by identity first and so finds a NaN again. Such repeated calls are not covered.
-/

namespace ReverseMode

/-- The short name of a relation. -/
def Relation.name : Relation → String
  | lt => "lt"
  | le => "le"
  | gt => "gt"
  | ge => "ge"
  | eq => "eq"
  | ne => "ne"

def Relation.all : List Relation := [.lt, .le, .gt, .ge, .eq, .ne]

/-- The relation of this name. -/
def Relation.ofName? (s : String) : Option Relation :=
  all.find? fun r => r.name = s

/-- The short name of a reduction. -/
def Reduction.name : Reduction → String
  | sum => "sum"
  | mean => "mean"
  | std => "std"
  | var => "var"
  | max => "max"
  | min => "min"
  | prod => "prod"
  | logSumExp => "logsumexp"

def Reduction.all : List Reduction :=
  [.sum, .mean, .std, .var, .max, .min, .prod, .logSumExp]

/-- The reduction of this name. -/
def Reduction.ofName? (s : String) : Option Reduction :=
  all.find? fun r => r.name = s

/-- A parameter of an operator, as far as it tells operators apart. -/
inductive Parameter where
  | number (n : Int)
  | real (x : Float)
  | text (s : String)
  | numbers (ns : List (Option Int))
deriving Repr, Inhabited

/-- Equality of parameters as numbers. A NaN equals nothing; the identity of objects, by which
the same NaN would be found again, is not part of a parameter. -/
def Parameter.same : Parameter → Parameter → Bool
  | number m, number n => m = n
  | real x, real y => x == y
  | text s, text t => s = t
  | numbers ms, numbers ns => ms = ns
  | _, _ => false

/-- A truth value as a number. -/
def Parameter.flag (b : Bool) : Parameter := .number (if b then 1 else 0)

/-- Two lists of parameters that are the same one by one. -/
def Parameter.allSame : List Parameter → List Parameter → Bool
  | [], [] => true
  | p :: ps, q :: qs => p.same q && allSame ps qs
  | _, _ => false

namespace Unary

def kind : Unary → String
  | neg => "Neg"
  | addScalar _ => "ScalarAdd"
  | mulScalar _ => "ScalarMult"
  | sqrt _ => "Sqrt"
  | square => "Square"
  | abs => "Abs"
  | exp => "Exp"
  | log => "Log"
  | sin => "Sin"
  | cos => "Cos"
  | tan => "Tan"
  | sigmoid => "Sigmoid"
  | swish _ => "Swish"
  | relu => "ReLU"
  | prelu _ => "PReLU"
  | clip _ => "Clip"

/-- The real parameter, if there is one. -/
def parameter? : Unary → Option Float
  | addScalar x | mulScalar x | sqrt x | swish x | prelu x | clip x => some x
  | _ => none

end Unary

/-- The kind of an elementwise operator of several inputs. -/
def Joint.kind : Joint → String
  | plus => "Plus"
  | minus => "Minus"
  | mult => "Mult"
  | div => "Div"
  | maximum => "Maximum"
  | minimum => "Minimum"
  | logAddExp => "LogAddExp"
  | compare _ => "Compare"
  | tanh => "Tanh"
  | highway => "Highway"

namespace Operator

variable {α : Type}

/-- The kind of an operator. -/
def kind : Operator α → String
  | unary f => f.kind
  | joint f => f.kind
  | clipGradient _ => "ClipGradient"
  | stopGradient => "StopGradient"
  | cast _ => "Cast"
  | debug _ _ => "Debug"
  | reduce r _ => "Reduce[" ++ r.name ++ "]"
  | scalarProduct _ => "ScalarProduct"
  | softmax _ => "Softmax"
  | logSoftmax _ => "LogSoftmax"
  | crossEntropy _ => "CrossEntropy"
  | layerNorm _ => "LayerNorm"
  | topK _ _ _ _ => "TopK"
  | matMul _ _ _ batched => if batched then "BDot" else "Dot"
  | transpose _ => "Transpose"
  | reshape _ => "Reshape"
  | concatenate _ => "Concatenate"
  | slice _ _ => "Slice"
  | indexSelect _ => "IndexSelect"
  | gather _ => "Gather"
  | custom _ _ _ _ name => "Lambda[" ++ name ++ "]"
  | unspecified shaped => if shaped then "ElementwiseOperator" else "Operator"

/-- Integers as a tuple. -/
def tuple (ns : List Int) : String :=
  Text.parenthesized (ns.map toString)

/-- A function as text. -/
def ruleText (rule : Rule α) : String := "<function " ++ rule.name ++ ">"

/-- The parameters as text. -/
def parameterTexts : Operator α → List String
  | unary f => (f.parameter?.map Decimal.text).toList
  | joint (.compare r) => [Text.quoted r.name]
  | joint _ => []
  | clipGradient c => [Decimal.text c]
  | stopGradient => []
  | cast t => [Text.quoted t.name]
  | debug message _ => [message.text]
  | reduce r axis => [Text.quoted r.name, axis.text]
  | scalarProduct axis | softmax axis | logSoftmax axis | concatenate axis | indexSelect axis
  | gather axis => [axis.text]
  | crossEntropy x | layerNorm x => [Decimal.text x]
  | topK k axis descending indices =>
    [toString k, axis.text, Fault.truth descending, Fault.truth indices]
  | matMul transA transB scalar batched =>
    [Fault.truth transA, Fault.truth transB, Decimal.text scalar, Fault.truth batched]
  | transpose axes => [tuple axes]
  | reshape shape => [tuple shape]
  | slice axis selection => [axis.text, selection.text]
  | custom shape type forward backward _ =>
    ["Shape(" ++ shape.text ++ ")", Text.quoted type.name, ruleText forward,
      (backward.map ruleText).getD "None"]
  | unspecified _ => []

/-- An operator as text. -/
def text (op : Operator α) : String :=
  op.kind ++ "(" ++ Text.commas op.parameterTexts ++ ")"

/-- An axis as a parameter. -/
def axisParameter (axis : Axis) : Parameter :=
  match axis.number? with
  | some n => .number n
  | none => .text axis.text

/-- A number as a parameter. -/
def numberParameter : Scalar → Parameter
  | .bool b => .number (if b then 1 else 0)
  | .int _ n | .whole n => .number n
  | s => .real s.toFloat

/-- A selection as a parameter. -/
def selectionParameter : Selection → Parameter
  | .place s _ _ => numberParameter s
  | .array _ text _ => .text text
  | .range bounds => .numbers (bounds.map fun b => match b with
      | .given n _ => some n
      | _ => none)
  | .refused text => .text text

/-- The parameters that tell operators of one kind apart. -/
def parameters : Operator α → List Parameter
  | unary f => (f.parameter?.map Parameter.real).toList
  | joint (.compare r) => [.text r.name]
  | joint _ => []
  | clipGradient c => [.real c]
  | stopGradient => []
  | cast t => [.text t.name]
  | debug message _ => [.text message.text]
  | reduce r axis => [.text r.name, axisParameter axis]
  | scalarProduct axis | softmax axis | logSoftmax axis | concatenate axis | indexSelect axis
  | gather axis => [axisParameter axis]
  | crossEntropy x | layerNorm x => [.real x]
  | topK k axis descending indices =>
    [.number k, axisParameter axis, .flag descending, .flag indices]
  | matMul transA transB scalar batched =>
    [.flag transA, .flag transB, .real scalar, .flag batched]
  | transpose axes => [.numbers (axes.map some)]
  | reshape shape => [.numbers (shape.map some)]
  | slice axis selection => [axisParameter axis, selectionParameter selection]
  | custom shape type forward backward _ =>
    [.numbers (shape.extents.map fun (e : Nat) => some (e : Int)), .text type.name, .text forward.name,
      .text ((backward.map Rule.name).getD "")]
  | unspecified _ => []

end Operator

/-- The key under which an application of an operator is found again. -/
structure ApplicationKey where
  kind : String
  parameters : List Parameter
  inputs : List Nat

/-- Whether two keys are the same. -/
def ApplicationKey.same (a b : ApplicationKey) : Bool :=
  a.inputs == b.inputs && a.kind == b.kind && Parameter.allSame a.parameters b.parameters

end ReverseMode
