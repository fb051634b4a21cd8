import ReverseMode.Shape.Resolve
import ReverseMode.Tensor.Pick
import ReverseMode.Operator.Selection

/-!
The operators.

An operator is a value: what it computes together with its parameters. Most act
element by element, on one input (`Unary`) or on several that broadcast (`Joint`);
the others reduce, normalize, multiply or move elements. `Rule` holds a function that
a caller supplies.
-/

namespace ReverseMode

/-- Elementwise comparisons. -/
inductive Relation where
  | lt | le | gt | ge | eq | ne
deriving DecidableEq, Repr, Inhabited

/-- What is left of a fibre. -/
inductive Reduction where
  | sum | mean | std | var | max | min | prod | logSumExp
deriving DecidableEq, Repr, Inhabited

/-- Elementwise operators of one input. -/
inductive Unary where
  | neg
  | addScalar (c : Float)
  | mulScalar (c : Float)
  | sqrt (eps : Float)
  | square | abs | exp | log | sin | cos | tan | sigmoid
  | swish (beta : Float)
  | relu
  | prelu (alpha : Float)
  | clip (bound : Float)
deriving Repr, Inhabited

/-- Elementwise operators of several inputs. -/
inductive Joint where
  | plus | minus | mult | div | maximum | minimum | logAddExp
  | compare (relation : Relation)
  | tanh
  | highway
deriving DecidableEq, Repr, Inhabited

/-- What a backward step adds to the gradient of one input. -/
inductive Contribution (α : Type) where
  /-- A gradient whose broadcast axes are summed away. -/
  | dense (gradient : Tensor α)
  /-- Single amounts, added one after the other. -/
  | sparse (addends : List (Tensor.Addend α))
  /-- A tensor added in place, which may be broadcast. -/
  | inPlace (addend : Tensor α)
  /-- A tensor added in place to some places of an axis. -/
  | window (axis : Nat) (places : List Nat) (addend : Tensor α)

/-- The contributions of a backward step, each with the input slot it belongs to. They
are added in order, and the step ends at the first one that cannot be had. -/
abbrev Contributions (α : Type) := List (Nat × Except Fault (Contribution α))

/-- What a debug operator says, as its caller wrote it. -/
structure Message where
  /-- The text that shows what kind of value it is. -/
  text : String
  /-- The text of the value alone. -/
  plain : String
deriving DecidableEq, Repr, Inhabited

/-- Who is told what a debug operator sees. -/
inductive Observer where
  /-- The graph that the operator is on. -/
  | graph
  /-- A function of the caller that does not take what it is told. -/
  | refusing (fault : Fault)
deriving DecidableEq, Repr, Inhabited

/-- A function that a caller supplies, told apart from others by its name. -/
structure Rule (α : Type) where
  name : String
  /-- Why it cannot be told what a debug operator sees. -/
  unobserving : Fault := .type
  /-- The output for these inputs; the second argument is a buffer of zeros. -/
  forward : List (Tensor α) → Tensor α → Except Fault (Tensor α)
  /-- What is added to the gradients, from inputs, output and output gradient. -/
  backward : List (Tensor α) → Tensor α → Tensor α → Contributions α

/-- The operators with their parameters. -/
inductive Operator (α : Type) where
  | unary (f : Unary)
  | joint (f : Joint)
  | clipGradient (bound : Float)
  | stopGradient
  | cast (type : ElementType)
  | debug (message : Message) (observer : Observer)
  | reduce (reduction : Reduction) (axis : Axis)
  | scalarProduct (axis : Axis)
  | softmax (axis : Axis)
  | logSoftmax (axis : Axis)
  | crossEntropy (smoothing : Float)
  | layerNorm (eps : Float)
  | topK (k : Int) (axis : Axis) (descending indices : Bool)
  | matMul (transA transB : Bool) (scalar : Float) (batched : Bool)
  | transpose (axes : List Int)
  | reshape (shape : List Int)
  | concatenate (axis : Axis)
  | slice (axis : Axis) (selection : Selection)
  | indexSelect (axis : Axis)
  | gather (axis : Axis)
  | custom (shape : Shape) (type : ElementType) (forward : Rule α) (backward : Option (Rule α))
      (name : String)
  /-- An operator that says nothing about its values; `shaped` if inputs broadcast. -/
  | unspecified (shaped : Bool)

/-- Shape and element type, which are known before any value. -/
structure Signature where
  shape : Shape
  type : ElementType
deriving DecidableEq, Repr, Inhabited

namespace Operator

variable {α : Type}

/-- Whether equal applications are built only once. -/
def memoize : Operator α → Bool
  | debug _ _ => false
  | _ => true

/-- Whether the value shares storage with the first input. -/
def isView : Operator α → Bool
  | clipGradient _ | stopGradient | debug _ _ | reshape _ => true
  | _ => false

/-- Whether outputs may carry gradients. -/
def differentiable : Operator α → Bool
  | joint (.compare _) | stopGradient | topK _ _ _ true => false
  | custom _ _ _ none _ => false
  | _ => true

end Operator

end ReverseMode
