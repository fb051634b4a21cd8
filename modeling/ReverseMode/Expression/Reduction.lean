import ReverseMode.Expression.Layout

/-!
Reductions, normalizations, products and what is composed of them.
-/

namespace ReverseMode

/-- The least finite number of a float type. -/
def ElementType.lowest? : ElementType → Option Float
  | .float64 => some (-1.7976931348623157e308)
  | .float32 => some (-3.4028234663852886e38)
  | .float16 => some (-65504.0)
  | _ => none

namespace Expression

open Session (lift onGraph)

variable {α : Type} [Element α]

def reduce (r : Reduction) (a axis : Argument α) : SessionM α (Argument α) :=
  unary (.reduce r axis.toAxis) a

/-- Scores with the places where a mask is zero moved far down. -/
def masked (scores mask : Argument α) : SessionM α (Argument α) := do
  match (← nodeOf scores).type.lowest? with
  | none => throw .value
  | some lowest =>
    let lifted ← mul (← sub (.real 1.0) mask) (.real (lowest / 2.0))
    add scores lifted

/-- Softmax along an axis; places where the mask is zero get almost no weight. -/
def softmax (a axis mask : Argument α) : SessionM α (Argument α) := do
  let scores ← match mask with
    | .none => pure a
    | mask => masked a mask
  unary (.softmax axis.toAxis) scores

/-- Cross-entropy of logits against labels. -/
def crossEntropy (logits labels smoothing : Argument α) : SessionM α (Argument α) := do
  let labels ← indexNode labels logits
  let n ← nodeOf logits
  applyOn n (.crossEntropy (← realOf smoothing)) [logits, labels]

def scalarProduct (a b axis : Argument α) : SessionM α (Argument α) :=
  binary (.scalarProduct axis.toAxis) a b

/-- A sum of products divided by the sum of the weights. -/
def weightedAverage (a weights axis : Argument α) : SessionM α (Argument α) := do
  let total ← scalarProduct a weights axis
  div total (← reduce .sum weights axis)

/-- Normalization over the last axis, scaled and shifted. -/
def layerNorm (x gamma beta eps : Argument α) : SessionM α (Argument α) := do
  let n ← nodeOf x
  let shift := match beta with
    | .none => []
    | beta => [beta]
  applyOn n (.layerNorm (← realOf eps)) ([x, gamma] ++ shift)

/-- A matrix product times a number. -/
def product (batched : Bool) (a b transA transB scalar : Argument α) :
    SessionM α (Argument α) := do
  let transA ← lift transA.truth
  let transB ← lift transB.truth
  binary (.matMul transA transB (← realOf scalar) batched) a b

/-- A matrix product with a bias. -/
def affine (a b bias transA transB scalar : Argument α) : SessionM α (Argument α) := do
  add (← product false a b transA transB scalar) bias

/-- The `k` first entries along an axis in order of size, and their places. -/
def topK (a k axis descending : Argument α) : SessionM α (Argument α) := do
  let n ← nodeOf a
  let count ← lift k.toInt
  let descending ← lift descending.truth
  let values ← applyOn n (.topK count axis.toAxis descending false) [a]
  let places ← applyOn n (.topK count axis.toAxis descending true) [a]
  pure (.tuple [values, places])

/-- A mask that keeps elements at random, beside a node. -/
def dropoutMask (serial : Nat) (probability shape : Argument α)
    (type : Deferred (Option ElementType)) : SessionM α (Node α) := do
  let init ← lift probability.toDropout
  let shape ← lift shape.toShape
  onGraph serial (Graph.constant shape init type none)

/-- A node times a mask, which is drawn unless it is given. -/
def dropout (a probability shape : Argument α) : SessionM α (Argument α) := do
  match probability with
  | .node _ => mul a probability
  | _ =>
    if ← lift probability.isZero then pure a
    else
      let n ← nodeOf a
      let shape := match shape with
        | .none => .tuple (n.shape.extents.map fun (e : Nat) => .int (e : Int))
        | shape => shape
      mul a (.node (← dropoutMask n.graph probability shape (.ok (some n.type))))

end Expression

end ReverseMode
