import ReverseMode.Argument.Operator
import ReverseMode.Expression.Reduction

/-!
The functions of the expression language by name, the methods of nodes, and the
arithmetic signs.

A definition binds the arguments of a call to its parameters before anything is built.
-/

namespace ReverseMode

/-- A function of the expression language: its name, its parameters and what it builds. -/
structure Definition (α : Type) where
  name : String
  /-- The parameters; none if any number of arguments is taken by position. -/
  formals? : Option (List (Formal α))
  build : List (Argument α) → SessionM α (Argument α)

namespace Definition

variable {α : Type}

/-- The arguments of a call as a definition takes them. -/
def bound (d : Definition α) (c : Call α) : Except Fault (List (Argument α)) :=
  match d.formals? with
  | some formals => c.bind formals
  | none => c.variadic

/-- A call of a definition. -/
def call (d : Definition α) (c : Call α) : SessionM α (Argument α) := do
  d.build (← Session.lift (d.bound c))

/-- A function of one parameter. -/
def of1 (name : String) (p : Formal α) (f : Argument α → SessionM α (Argument α)) :
    Definition α :=
  ⟨name, some [p], fun
    | [a] => f a
    | _ => throw .type⟩

/-- A function of two parameters. -/
def of2 (name : String) (p q : Formal α) (f : Argument α → Argument α → SessionM α (Argument α)) :
    Definition α :=
  ⟨name, some [p, q], fun
    | [a, b] => f a b
    | _ => throw .type⟩

/-- A function of three parameters. -/
def of3 (name : String) (p q r : Formal α)
    (f : Argument α → Argument α → Argument α → SessionM α (Argument α)) : Definition α :=
  ⟨name, some [p, q, r], fun
    | [a, b, c] => f a b c
    | _ => throw .type⟩

/-- A function of four parameters. -/
def of4 (name : String) (p q r s : Formal α)
    (f : Argument α → Argument α → Argument α → Argument α → SessionM α (Argument α)) :
    Definition α :=
  ⟨name, some [p, q, r, s], fun
    | [a, b, c, d] => f a b c d
    | _ => throw .type⟩

end Definition

namespace Expression

open Session (lift)
open Formal (required optional)
open Definition (of1 of2 of3 of4)

variable {α : Type} [Element α]

/-- An elementwise function of one node. -/
def elementwise (name : String) (f : Unary) : Definition α :=
  of1 name (required "a") (unary (.unary f))

/-- A function of two arguments that broadcast. -/
def joining (name : String) (f : Joint) : Definition α :=
  of2 name (required "a") (required "b") (binary (.joint f))

/-- An activation without parameters. -/
def activating (name : String) (f : Unary) : Definition α :=
  of1 name (required "a") (activation name (.unary f))

/-- An activation with a real parameter, which is read before the argument is looked at. -/
def activatingWith (name parameter : String) (usual : Float) (f : Float → Unary) : Definition α :=
  of2 name (required "a") (optional parameter (.real usual)) fun a x => do
    activation name (.unary (f (← realOf x))) a

/-- A reduction along an axis. -/
def reducing (name : String) (r : Reduction) (axis : Formal α) : Definition α :=
  of2 name (required "a") axis (reduce r)

/-- The parameters of a matrix product after its operands. -/
def productFormals : List (Formal α) :=
  [optional "trans_a" (.bool false), optional "trans_b" (.bool false), optional "scalar" (.real 1.0)]

/-- A matrix product. -/
def multiplying (name : String) (batched : Bool) : Definition α :=
  ⟨name, some ([required "a", required "b"] ++ productFormals), fun
    | [a, b, transA, transB, scalar] => product batched a b transA transB scalar
    | _ => throw .type⟩

/-- Axes of extent one put in front up to a fixed number. -/
def widening (name : String) (dims : Int) : Definition α :=
  of1 name (required "a") fun a => atLeast a (.int dims)

/-- The activations. -/
def activations : List (Definition α) :=
  [of1 "plus" (required "nodes") (single "plus"),
   activating "sigmoid" .sigmoid,
   activatingWith "swish" "beta" 1.0 .swish,
   of1 "gelu" (required "a") (activation "gelu" (.unary (.swish 1.702))),
   ⟨"tanh", none, tanh⟩,
   activating "relu" .relu,
   of1 "leakyrelu" (required "a") (activation "leakyrelu" (.unary (.prelu 0.01))),
   activatingWith "prelu" "alpha" 0.01 .prelu]

/-- Elementwise arithmetic and comparisons. -/
def arithmetic : List (Definition α) :=
  [elementwise "log" .log, elementwise "exp" .exp, elementwise "sin" .sin, elementwise "cos" .cos,
   elementwise "tan" .tan, elementwise "neg" .neg, elementwise "square" .square,
   elementwise "abs" .abs,
   of2 "sqrt" (required "a") (optional "eps" (.real 0.0)) fun a eps => withReal .sqrt eps a,
   of2 "add" (required "a") (required "b") add,
   of2 "sub" (required "a") (required "b") sub,
   of2 "mul" (required "a") (required "b") mul,
   of2 "div" (required "a") (required "b") div,
   joining "logaddexp" .logAddExp, joining "maximum" .maximum, joining "minimum" .minimum]
    ++ Relation.all.map fun r => joining r.name (.compare r)

/-- Selections by size. -/
def rankings : List (Definition α) :=
  [of4 "topk" (required "a") (required "k") (optional "axis" (.int (-1)))
      (optional "descending" (.bool true)) topK,
   of2 "argmax" (required "a") (required "axis") fun a axis => topK a (.int 1) axis (.bool true),
   of2 "argmin" (required "a") (required "axis") fun a axis => topK a (.int 1) axis (.bool false)]

/-- Matrix products. -/
def products : List (Definition α) :=
  [multiplying "dot" false, multiplying "bdot" true,
   ⟨"affine", some ([required "a", required "b", required "bias"] ++ productFormals), fun
    | [a, b, bias, transA, transB, scalar] => affine a b bias transA transB scalar
    | _ => throw .type⟩]

/-- Functions that move elements. -/
def layouts : List (Definition α) :=
  [of2 "transpose" (required "a") (optional "axes" .none) transpose,
   of3 "swap_axes" (required "x") (required "axis1") (required "axis2") swapAxes,
   of2 "cast" (required "a") (optional "dtype" (.text "float32")) cast,
   of2 "concatenate" (required "nodes") (optional "axis" (.int 0)) concatenate,
   of3 "repeat" (required "a") (required "repeats") (optional "axis" (.int 0)) repeated,
   of2 "reshape" (required "a") (required "shape") reshape,
   of2 "clip" (required "a") (required "c") fun a c => withReal .clip c a,
   of2 "clip_gradient" (required "a") (required "c") fun a c => do
     unary (.clipGradient (← realOf c)) a,
   widening "atleast_1d" 1, widening "atleast_2d" 2, widening "atleast_3d" 3,
   widening "atleast_4d" 4,
   of2 "atleast_nd" (required "a") (required "dims") atLeast,
   of2 "constant_like" (required "a") (required "init") constantLikeNode,
   of1 "flatten" (required "a") flatten,
   of1 "flatten_2d" (required "a") flattenRows,
   of1 "stop_gradient" (required "a") (unary .stopGradient)]

/-- Selections by position. -/
def selections : List (Definition α) :=
  [of3 "gather" (required "a") (required "axis") (required "indices") gather,
   of3 "index_select" (required "a") (required "axis") (required "indices") indexSelect,
   of2 "rows" (required "a") (required "indices") fun a indices => indexSelect a (.int 0) indices,
   of2 "cols" (required "a") (required "indices") fun a indices =>
     indexSelect a (.int (-1)) indices,
   of3 "slice" (required "a") (required "axis") (required "index") slice,
   of4 "narrow" (required "a") (required "axis") (required "start") (required "length") narrow]

/-- Reductions along an axis. -/
def reductions : List (Definition α) :=
  [reducing "sum" .sum (optional "axis" (.int 0)), reducing "mean" .mean (optional "axis" (.int 0)),
   reducing "std" .std (required "axis"), reducing "var" .var (required "axis"),
   reducing "max" .max (required "axis"), reducing "min" .min (required "axis"),
   reducing "prod" .prod (required "axis"), reducing "logsumexp" .logSumExp (required "axis")]

/-- Normalizations, losses and what is composed of other functions. -/
def compositions : List (Definition α) :=
  [of3 "softmax" (required "x") (optional "axis" (.int (-1))) (optional "mask" .none) softmax,
   of2 "logsoftmax" (required "a") (optional "axis" (.int (-1))) fun a axis =>
     unary (.logSoftmax axis.toAxis) a,
   of3 "cross_entropy" (required "logits") (required "labels")
     (optional "label_smoothing" (.real 0.0)) crossEntropy,
   of3 "scalar_product" (required "a") (required "b") (optional "axis" (.int 0)) scalarProduct,
   of3 "weighted_average" (required "x") (required "weights") (optional "axis" (.int 0))
     weightedAverage,
   of4 "layer_norm" (required "x") (required "gamma") (optional "beta" .none)
     (optional "eps" (.real 1e-9)) layerNorm,
   of3 "highway" (required "y") (required "x") (required "t") highway,
   of3 "dropout" (required "x") (required "prob") (optional "shape" .none) dropout]

/-- A function that a caller supplies, applied to at least one node. -/
def applyRule (inputs shape type forward backward name : Argument α) :
    SessionM α (Argument α) := do
  match ← itemsOf inputs with
  | [] => throw .ruleInputs
  | first :: rest =>
    let op ← lift (Operator.ofRule shape type forward backward name)
    applyOn (← nodeOf first) op (first :: rest)

/-- Functions that concern the graph or are supplied by a caller. -/
def special : List (Definition α) :=
  [of2 "debug" (required "a") (optional "message" (.text "")) debug,
   of1 "checkpoint" (required "a") checkpoint,
   ⟨"lambda_op", some [required "inputs", required "shape", required "dtype",
      required "forward_fn", optional "backward_fn" .none, optional "name" .none], fun
    | [inputs, shape, type, forward, backward, name] =>
      applyRule inputs shape type forward backward name
    | _ => throw .type⟩]

/-- Every function of the expression language. -/
def definitions : List (Definition α) :=
  special ++ activations ++ arithmetic ++ rankings ++ products ++ layouts ++ selections ++
    reductions ++ compositions

/-- A call of the function of a name. -/
def call (name : String) (c : Call α) : SessionM α (Argument α) :=
  match definitions.find? fun d => d.name == name with
  | some d => d.call c
  | none => throw .absentPart

/-! ### Methods of nodes and arithmetic signs -/

/-- A permutation given as arguments; none of them stands for the usual one. -/
def permutationOf (axes : List (Argument α)) : Except Fault (Argument α) := do
  let a := Argument.spreadItems axes
  if ← a.truth then pure a else pure .none

/-- The methods of a node. -/
def methods (self : Argument α) : List (Definition α) :=
  let plain (name : String) (f : Argument α → SessionM α (Argument α)) : Definition α :=
    ⟨name, some [], fun _ => f self⟩
  let along (name : String) (usual : Int) (f : Argument α → SessionM α (Argument α)) :
      Definition α :=
    of1 name (optional "axis" (.int usual)) f
  [plain "relu" (unary (.unary .relu)), plain "sigmoid" (unary (.unary .sigmoid)),
   plain "tanh" fun a => tanh [a], plain "exp" (unary (.unary .exp)),
   plain "log" (unary (.unary .log)), plain "__neg__" neg, plain "checkpoint" checkpoint,
   along "sum" 0 (reduce .sum self), along "mean" 0 (reduce .mean self),
   along "softmax" (-1) fun axis => softmax self axis .none,
   ⟨"reshape", none, fun shape => reshape self (Argument.spreadItems shape)⟩,
   ⟨"transpose", none, fun axes => do transpose self (← lift (permutationOf axes))⟩]

/-- A call of a method of a node. -/
def callMethod (self : Argument α) (name : String) (c : Call α) : SessionM α (Argument α) := do
  let _ ← nodeOf self
  match (methods self).find? fun d => d.name == name with
  | some d => d.call c
  | none => throw .absentPart

/-- An arithmetic sign or the sign of a matrix product between two arguments. A matrix product
needs a node on the left; with one on the right only, it is refused. -/
def operate (sign : String) (a b : Argument α) : SessionM α (Argument α) :=
  if sign == "@" then
    match a, b.node? with
    | .node n, _ => product false (.node n) b (.bool false) (.bool false) (.real 1.0)
    | .array _ _, some _ => throw .value
    | _, some _ => throw .type
    | _, none => lift (a.calculate sign b)
  else calculate sign a b

end Expression

end ReverseMode
