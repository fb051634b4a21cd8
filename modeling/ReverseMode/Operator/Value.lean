import ReverseMode.Tensor.Product
import ReverseMode.Tensor.Sum
import ReverseMode.Operator.Pointwise
import ReverseMode.Operator.Fibres
import ReverseMode.Operator.Inference

/-!
Values of operators.

`Operator.value` computes the output from the inputs, `Operator.forward` stores it in
a buffer of the inferred type and extents. Views do not compute; `Operator.viewOf`
gives the first input under the inferred extents.
-/

namespace ReverseMode

namespace Operator

open scoped Element

variable {α : Type} [Element α]

/-- The first two inputs. -/
def pair (inputs : List (Tensor α)) : Except Fault (Tensor α × Tensor α) :=
  match inputs with
  | [a, b] => .ok (a, b)
  | _ => .error .value

/-- The first input. -/
def first (inputs : List (Tensor α)) : Except Fault (Tensor α) :=
  match inputs with
  | a :: _ => .ok a
  | [] => .error .index

/-- The last axis of an array. -/
def lastAxis (t : Tensor α) : Except Fault Nat :=
  if t.rank = 0 then .error (.plain .axis) else .ok (t.rank - 1)

/-- The last two axes exchanged. -/
def transposed (t : Tensor α) : Except Fault (Tensor α) :=
  if t.rank < 2 then .error (.plain .axis) else .ok t.swapLast

/-- An operand of a product, its last axes exchanged if asked for. -/
def operand (exchanged : Bool) (t : Tensor α) : Except Fault (Tensor α) :=
  if exchanged then transposed t else .ok t

/-- The label of every fibre of the logits, as a place among the classes. -/
def labelPlaces (logits labels : Tensor α) : Except Fault (Tensor Nat) := do
  let axis ← lastAxis logits
  let flat ← labels.reshape (logits.shape.set axis 1)
  Tensor.placeTensor (logits.extent axis) flat

/-- The normalized input, scaled and shifted. -/
def layerNormValue (eps : Float) (inputs : List (Tensor α)) : Except Fault (Tensor α) := do
  let x ← first inputs
  let axis ← lastAxis x
  let hats := x.mapFibres axis fun xs => (Fibre.normalize eps xs).1
  match inputs.drop 1 with
  | [] => throw .index
  | [gamma] => hats.combine (· * ·) gamma
  | gamma :: beta :: _ => (← hats.combine (· * ·) gamma).combine (· + ·) beta

/-- The places of the `k` first entries of every fibre in ranking order. -/
def topPlaces (k : Int) (axis : Axis) (descending : Bool) (a : Tensor α) :
    Except Fault (Tensor Nat) := do
  let i ← axis.resolve a.rank
  let _ ← (a.map (Fibre.rankingKey descending)).sound
  if (a.extent i : Int) < k then throw .index
  pure (a.mapAxis i k.toNat (Fibre.topPlaces k.toNat descending))

/-- The entries picked along an axis, or their places. -/
def topKValue (k : Int) (axis : Axis) (descending indices : Bool) (a : Tensor α) :
    Except Fault (Tensor α) := do
  let i ← axis.resolve a.rank
  let places ← topPlaces k axis descending a
  pure (ofPlaces i places)
where
  /-- The places as numbers, or the entries at them. -/
  ofPlaces (i : Nat) (places : Tensor Nat) : Tensor α :=
    if indices then places.map fun (p : Nat) => Element.whole p
    else .ofFn places.shape fun pos => a.get (pos.set i (places.get pos))

/-- Inputs laid end to end, all in the type that they combine to. -/
def joined (axis : Nat) (inputs : List (Tensor α)) : Except Fault (Tensor α) := do
  let heads := inputs.filterMap fun t => t.toList.head?
  let sample := match heads with
    | [] => default
    | x :: rest => rest.foldl (· + ·) x
  if inputs.any fun t => t.rank ≤ axis then throw (.plain .axis)
  Tensor.join axis (inputs.map fun t => t.map (Element.like sample))

/-- The output computed from the inputs, before it is stored in a buffer of `rank` axes. -/
def value (op : Operator α) (rank : Nat) (inputs : List (Tensor α)) :
    Except Fault (Tensor α) := do
  match op with
  | unary f => pure ((← first inputs).map f.value)
  | joint f =>
    match f.arity? with
    | some n => if inputs.length ≠ n then throw .type
    | none => if inputs.isEmpty then throw .index
    Tensor.combineAll f.value inputs
  | cast _ => first inputs
  | reduce r axis =>
    let a ← first inputs
    let i ← axis.resolve a.rank
    pure (a.reduceAxis i (Fibre.reduce r (Tensor.dense a.shape i)))
  | scalarProduct axis =>
    let (a, b) ← pair inputs
    let products ← a.combine (· * ·) b
    let i ← axis.resolve products.rank
    pure (products.reduceAxis i (Fibre.total (Tensor.dense products.shape i)))
  | softmax axis =>
    let a ← first inputs
    let i ← axis.resolve a.rank
    pure (a.mapFibres i (Fibre.softmax (Tensor.dense a.shape i)))
  | logSoftmax axis =>
    let a ← first inputs
    let i ← axis.resolve a.rank
    pure (a.mapFibres i (Fibre.logSoftmax (Tensor.dense a.shape i)))
  | crossEntropy smoothing =>
    let (logits, labels) ← pair inputs
    let places ← labelPlaces logits labels
    pure (logits.mapAxisAt (logits.rank - 1) 1 fun pos xs =>
      [Fibre.crossEntropy smoothing (places.get pos) xs])
  | layerNorm eps => layerNormValue eps inputs
  | topK k axis descending indices => topKValue k axis descending indices (← first inputs)
  | matMul transA transB scalar _ =>
    let (a, b) ← pair inputs
    let products ← (← operand transA a).product (← operand transB b)
    pure (products.map fun x => x * Element.real scalar)
  | transpose axes =>
    let a ← first inputs
    pure (a.permute (← permutation axes a.rank))
  | concatenate axis =>
    joined (← axis.resolve rank) inputs
  | slice axis selection =>
    let a ← first inputs
    let i ← axis.resolve a.rank
    pure (a.selectAxis i (← selection.places axis (a.extent i)))
  | indexSelect axis =>
    let (a, indices) ← pair inputs
    Tensor.take (← axis.resolve a.rank) indices a
  | gather axis =>
    let (a, indices) ← pair inputs
    Tensor.takeAlong (← axis.resolve a.rank) indices a
  | clipGradient _ | stopGradient | debug _ _ | reshape _ | unspecified _ => throw .undefined
  | custom _ _ _ _ _ => throw .undefined

/-- The first input as a view shows it. -/
def viewOf (op : Operator α) (inputs : List (Tensor α)) : Except Fault (Tensor α) := do
  match op with
  | clipGradient _ | stopGradient | debug _ .graph => first inputs
  | debug _ (.refusing f) => throw f
  | reshape shape =>
    let a ← first inputs
    let target ← Shape.resolve shape a.size
    checkRank target.rank
    a.reshape target.extents
  | _ => throw .undefinedView

/-- The output stored in a buffer of the given type and extents. -/
def forward (op : Operator α) (type : StorageType) (shape : List Nat)
    (inputs : List (Tensor α)) : Except Fault (Tensor α) := do
  match op with
  | custom _ _ rule _ _ =>
    rule.forward inputs (Tensor.full shape (Element.store type (Element.whole 0)))
  | _ => (← op.value shape.length inputs).assign type shape

end Operator

end ReverseMode
