import ReverseMode.Element.Promotion
import ReverseMode.Operator.Text

/-!
Shape and type rules: what an operator makes of its inputs before any value is known.

`Operator.infer` either gives the signature of the output or says why the inputs do
not fit, so no application with ill-fitting inputs is ever built.
-/

namespace ReverseMode

namespace Operator

variable {α : Type}

/-- The only input. -/
def only : List Signature → Except Fault Signature
  | [a] => .ok a
  | _ => .error .value

/-- The only two inputs. -/
def both : List Signature → Except Fault (Signature × Signature)
  | [a, b] => .ok (a, b)
  | _ => .error .value

/-- Inputs that broadcast, of types that combine. -/
def broadcastRule (inputs : List Signature) : Except Fault Signature := do
  let shape ← Shape.broadcast (inputs.map Signature.shape)
  let type ← ElementType.common (inputs.map Signature.type)
  pure ⟨shape, type⟩

/-- A signature of float type. -/
def requireFloat (what : String) (s : Signature) : Except Fault Signature := do
  let _ ← s.type.requireFloat what
  pure s

/-- What a unary operator requires of its input. -/
def unaryRule (f : Unary) (a : Signature) : Except Fault Signature :=
  match f with
  | .neg | .square | .abs | .relu | .clip _ => .ok a
  | .addScalar c | .mulScalar c =>
    if a.type.isFloat || Number.isWhole c then .ok a
    else .error (.truncation f.kind (Decimal.text c) a.type.name)
  | _ => requireFloat f.kind a

/-- What a joint operator requires of its inputs. -/
def jointRule (f : Joint) (inputs : List Signature) : Except Fault Signature := do
  let s ← broadcastRule inputs
  match f with
  | .div => requireFloat "Division" s
  | .logAddExp => requireFloat "logaddexp" s
  | .tanh => requireFloat "tanh" s
  | .highway => requireFloat "highway" s
  | _ => pure s

/-- A reduction leaves one place of its axis. -/
def reduceRule (r : Reduction) (axis : Axis) (a : Signature) : Except Fault Signature := do
  match r with
  | .mean | .std | .var | .logSumExp => let _ ← a.type.requireFloat r.name
  | _ => pure ()
  let i ← axis.resolve a.shape.rank
  pure ⟨← a.shape.set (.ofInt i) 1, a.type⟩

/-- Labels have the extents of the logits without the last axis, or with one place of it. -/
def labelRule (logits labels : Signature) : Except Fault Signature := do
  let _ ← logits.type.requireFloat "cross_entropy"
  if !labels.type.isInt then throw (.labelsNotInteger labels.type.name)
  let batch := logits.shape.extents.dropLast
  let held := labels.shape.extents
  if held != batch && held != batch ++ [1] then
    throw (.labelShape held logits.shape.extents)
  pure ⟨← Shape.ofNats (batch ++ [1]), logits.type⟩

/-- Scale and shift broadcast to the normalized input. -/
def layerNormRule (inputs : List Signature) : Except Fault Signature := do
  let shape ← Shape.broadcast (inputs.map Signature.shape)
  let x ← match inputs with
    | x :: _ => pure x
    | [] => throw .index
  if shape ≠ x.shape then
    throw (.affineShape ((inputs.drop 1).map fun s => s.shape.extents) x.shape.extents)
  let type ← ElementType.common (inputs.map Signature.type)
  requireFloat "layer_norm" ⟨shape, type⟩

/-- Between one and all places of the axis are picked. -/
def topKRule (k : Int) (axis : Axis) (indices : Bool) (a : Signature) : Except Fault Signature := do
  let i ← axis.resolve a.shape.rank
  let extent := a.shape.extent i
  if k < 1 ∨ (extent : Int) < k then throw (.pickCount k extent)
  pure ⟨← a.shape.set (.ofInt i) k, if indices then .index else a.type⟩

/-- The kind of matrix product. -/
def productKind (batched : Bool) : String := if batched then "BDot" else "Dot"

/-- Inner extents agree and batch axes broadcast. -/
def productRule (transA transB batched : Bool) (a b : Signature) : Except Fault Signature := do
  let as := a.shape.extents
  let bs := b.shape.extents
  if a.shape.rank < 2 ∨ b.shape.rank < 2 then
    throw (.productRank (productKind batched) as bs)
  if !batched && b.shape.rank ≠ 2 then throw (.secondNotMatrix bs)
  let rows := if transA then a.shape.extentBack 0 else a.shape.extentBack 1
  let inner := if transA then a.shape.extentBack 1 else a.shape.extentBack 0
  let inner' := if transB then b.shape.extentBack 0 else b.shape.extentBack 1
  let cols := if transB then b.shape.extentBack 1 else b.shape.extentBack 0
  if inner ≠ inner' then
    throw (.innerExtents (productKind batched) as transA bs transB)
  let front ← Shape.broadcast [← Shape.ofNats (as.take (as.length - 2)),
    ← Shape.ofNats (bs.take (bs.length - 2))]
  let type ← ElementType.common [a.type, b.type]
  pure ⟨← Shape.ofNats (front.extents ++ [rows, cols]), type⟩

/-- The positions of a permutation of the axes. -/
def permutation (axes : List Int) (rank : Nat) : Except Fault (List Nat) := do
  if axes.length ≠ rank then throw (.permutationRank axes rank)
  let places ← axes.mapM fun a => (Axis.ofInt a).resolve rank
  if places.mergeSort != List.range rank then throw (.notPermutation axes rank)
  pure places

/-- Inputs that are joined agree outside the axis. -/
def joinRule (axis : Axis) (inputs : List Signature) : Except Fault Signature := do
  let first ← match inputs with
    | x :: _ => pure x.shape
    | [] => throw .index
  let i ← axis.resolve first.rank
  for s in inputs do
    if !Tensor.agreeOutside i s.shape.extents first.extents then
      throw (.cannotJoin s.shape.extents first.extents axis.plain)
  let total : Nat := (inputs.map fun s => s.shape.extent i).foldr (· + ·) 0
  let shape ← first.set (.ofInt i) total
  pure ⟨shape, ← ElementType.common (inputs.map Signature.type)⟩

/-- Indices are integers. -/
def requireIndices (what : String) (indices : Signature) : Except Fault Unit :=
  if indices.type.isInt then .ok () else .error (.indicesNotInteger what indices.type.name)

/-- One list of indices picks places of an axis. -/
def indexSelectRule (axis : Axis) (a indices : Signature) : Except Fault Signature := do
  requireIndices "index_select" indices
  if indices.shape.rank ≠ 1 then throw (.indexRank indices.shape.extents)
  let i ← axis.resolve a.shape.rank
  pure ⟨← a.shape.set (.ofInt i) (indices.shape.extent 0), a.type⟩

/-- Indices agree with the input outside the axis. -/
def gatherRule (axis : Axis) (a indices : Signature) : Except Fault Signature := do
  requireIndices "gather" indices
  let i ← axis.resolve a.shape.rank
  if !Tensor.agreeOutside i indices.shape.extents a.shape.extents then
    throw (.gatherShape indices.shape.extents a.shape.extents axis.plain)
  pure ⟨indices.shape, a.type⟩

/-- The signature of the output, or why the inputs do not fit. -/
def infer (op : Operator α) (inputs : List Signature) : Except Fault Signature := do
  match op with
  | unary f => unaryRule f (← only inputs)
  | joint f => jointRule f inputs
  | clipGradient _ => requireFloat op.kind (← only inputs)
  | stopGradient | debug _ _ => only inputs
  | cast type => pure ⟨(← only inputs).shape, type⟩
  | reduce r axis => reduceRule r axis (← only inputs)
  | scalarProduct axis =>
    let (a, b) ← both inputs
    let shape ← Shape.broadcast [a.shape, b.shape]
    let i ← axis.resolve shape.rank
    let reduced ← shape.set (.ofInt i) 1
    pure ⟨reduced, ← ElementType.common [a.type, b.type]⟩
  | softmax axis | logSoftmax axis =>
    let a ← only inputs
    let _ ← a.type.requireFloat "softmax"
    let _ ← axis.resolve a.shape.rank
    pure a
  | crossEntropy _ =>
    let (logits, labels) ← both inputs
    labelRule logits labels
  | layerNorm _ => layerNormRule inputs
  | topK k axis _ indices => topKRule k axis indices (← only inputs)
  | matMul transA transB _ batched =>
    let (a, b) ← both inputs
    productRule transA transB batched a b
  | transpose axes =>
    let a ← only inputs
    let places ← permutation axes a.shape.rank
    pure ⟨← Shape.ofNats (places.map a.shape.extent), a.type⟩
  | reshape shape =>
    let a ← only inputs
    pure ⟨← Shape.resolve shape a.shape.elements, a.type⟩
  | concatenate axis => joinRule axis inputs
  | slice axis selection =>
    let a ← only inputs
    let i ← axis.resolve a.shape.rank
    let places ← selection.places axis (a.shape.extent i)
    pure ⟨← a.shape.set (.ofInt i) places.length, a.type⟩
  | indexSelect axis =>
    let (a, indices) ← both inputs
    indexSelectRule axis a indices
  | gather axis =>
    let (a, indices) ← both inputs
    gatherRule axis a indices
  | custom shape type _ _ _ => pure ⟨shape, type⟩
  | unspecified shaped => if shaped then broadcastRule inputs else throw .undefined

end Operator

end ReverseMode
