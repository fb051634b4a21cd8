import ReverseMode.Operator.Value

/-!
Backward steps: what an operator adds to the gradients of its inputs.

`Operator.contributions` lists the contributions in the order in which they are
added. One that cannot be computed ends the step, whether its slot is wanted or not;
only where the computation itself is left out for an unwanted slot is `wanted` asked.
-/

namespace ReverseMode

open scoped Element

/-- A gradient buffer after a contribution has been added to it. -/
def Contribution.addTo {α : Type} [Element α] (target : Tensor α) :
    Contribution α → Except Fault (Tensor α)
  | dense gradient => target.accumulate gradient
  | sparse addends => .ok (target.addAt addends)
  | inPlace addend => target.addInPlace addend
  | window axis places addend => do
    pure (target.putAxis axis places (← (target.selectAxis axis places).addInPlace addend))

namespace Operator

open Element (whole real mask)

variable {α : Type} [Element α]

/-- A gradient as a contribution. -/
def asDense (gradient : Except Fault (Tensor α)) : Except Fault (Contribution α) := do
  pure (.dense (← (← gradient).sound))

/-- A contribution that is only looked at if its slot is wanted. A slot that there is no
buffer for is a fault. -/
def ifWanted (wanted : List Bool) (slot : Nat) (made : Except Fault (Contribution α)) :
    Contributions α :=
  match wanted[slot]? with
  | some true => [(slot, made)]
  | some false => []
  | none => [(slot, .error .index)]

/-- The gradient of the input of an elementwise operator. -/
def unaryGradient (f : Unary) (x y g : Tensor α) : Except Fault (Tensor α) :=
  Tensor.combineAll (fun
    | [g, x, y] => f.gradient g x y
    | _ => default) [g, if f.readsInput then x else g, if f.readsOutput then y else g]

/-- The gradient of input `i` of an elementwise operator. -/
def jointGradient (f : Joint) (xs : List (Tensor α)) (z g : Tensor α) (i : Nat) :
    Except Fault (Tensor α) :=
  let read := xs.mapIdx fun k x => if (f.reads i).contains k then x else g
  Tensor.combineAll (fun
    | g :: z :: xs => (f.gradients g z xs).getD i default
    | _ => default) (g :: (if f.readsOutput then z else g) :: read)

/-- The gradient of the input of a reduction, from the input `a`, the output `y` and its
gradient `g`. -/
def reduceGradient (r : Reduction) (axis : Axis) (a y g : Tensor α) :
    Except Fault (Tensor α) := do
  let i ← axis.resolve a.rank
  let n : α := whole (a.extent i)
  match r with
  | .sum => g.broadcastTo a.shape
  | .mean => (g.map fun g => g / n).broadcastTo a.shape
  | .var => g.combine (fun g d => g * real 2.0 * d / n) (a.mapFibres i Fibre.centered)
  | .std =>
    (← g.combine (· * ·) (a.mapFibres i Fibre.centered)).combine (· * ·)
      (y.map (Fibre.spreadFactor n))
  | .max | .min => g.combine (· * ·) (← a.combine (fun x y => mask (Element.eq x y)) y)
  | .prod => g.combine (· * ·) (a.mapFibres i Fibre.productOfOthers)
  | .logSumExp => g.combine (· * ·) (← a.combine (fun x y => Element.exp (x - y)) y)

/-- The gradient of the input of a softmax, from the output `y` and its gradient `g`. -/
def softmaxGradient (axis : Axis) (y g : Tensor α) : Except Fault (Tensor α) := do
  let i ← axis.resolve y.rank
  let products ← g.combine (· * ·) y
  let totals := products.reduceAxis i (Fibre.total (Tensor.dense products.shape i))
  y.combine (· * ·) (← g.combine (· - ·) totals)

/-- The gradient of the input of a log softmax. -/
def logSoftmaxGradient (axis : Axis) (y g : Tensor α) : Except Fault (Tensor α) := do
  let i ← axis.resolve y.rank
  if g.rank ≤ i && 0 < g.rank + i then throw (.plain .axis)
  let totals := g.reduceAxis i (Fibre.total (Tensor.dense g.shape i))
  g.combine (· - ·) (← y.combine (fun y t => Element.exp y * t) totals)

/-- The gradient of the logits. -/
def crossEntropyGradient (smoothing : Float) (logits labels g : Tensor α) :
    Except Fault (Tensor α) := do
  let places ← labelPlaces logits labels
  g.combine (· * ·) (logits.mapFibresAt (logits.rank - 1) fun pos xs =>
    Fibre.crossEntropyGradient smoothing (places.get pos) xs)

/-- The fibres of the last axis normalized, and the inverses of their deviations. -/
def normalized (eps : Float) (x : Tensor α) : Except Fault (Tensor α × Tensor α) := do
  let axis ← lastAxis x
  pure (x.mapFibres axis fun xs => (Fibre.normalize eps xs).1,
    x.reduceAxis axis fun xs => (Fibre.normalize eps xs).2)

/-- The gradient of the input of a normalization, from the gradient of the normalized
input. -/
def normalizeGradient (eps : Float) (x scaled : Tensor α) : Except Fault (Tensor α) := do
  let (hats, inverse) ← normalized eps x
  let n : α := whole (x.extent (x.rank - 1))
  let sumLast (t : Tensor α) : Except Fault (Tensor α) := do
    pure (t.reduceAxis (← lastAxis t) (Fibre.total true))
  let total ← sumLast scaled
  let projected ← sumLast (← scaled.combine (· * ·) hats)
  Tensor.combineAll (fun
    | [r, g, total, h, projected] => r / n * (n * g - total - h * projected)
    | _ => default) [inverse, scaled, total, hats, projected]

/-- The contributions of a normalization. -/
def layerNormContributions (eps : Float) (inputs : List (Tensor α)) (g : Tensor α)
    (wanted : List Bool) : Contributions α :=
  match inputs with
  | x :: gamma :: rest =>
    ifWanted wanted 0 (asDense (do normalizeGradient eps x (← g.combine (· * ·) gamma)))
      ++ [(1, asDense (do g.combine (· * ·) (← normalized eps x).1))]
      ++ (if rest.isEmpty then [] else [(2, .ok (.dense g))])
  | _ => [(0, .error .index)]

/-- Gradients put back at the places that were picked. -/
def topKGradient (k : Int) (axis : Axis) (descending : Bool) (a g : Tensor α) :
    Except Fault (Tensor α) := do
  let i ← axis.resolve a.rank
  let places ← topPlaces k axis descending a
  let g ← g.spread places.shape
  pure (a.mapFibresAt i fun pos xs =>
    Fibre.putAt xs.length (places.fibre i pos) (g.fibre i pos))

/-- The contributions of a matrix product. -/
def productContributions (transA transB : Bool) (scalar : Float) (a b g : Tensor α)
    (wanted : List Bool) : Contributions α :=
  let scaled := g.map fun x => x * real scalar
  let operands : Except Fault (Tensor α × Tensor α) := do
    pure (← operand transA a, ← operand transB b)
  let left : Except Fault (Tensor α) := do
    operand transA (← scaled.product (← transposed (← operands).2))
  let right : Except Fault (Tensor α) := do
    operand transB (← (← transposed (← operands).1).product scaled)
  ifWanted wanted 0 (asDense left) ++ ifWanted wanted 1 (asDense right)

/-- The blocks of a gradient that belong to inputs laid end to end. -/
def blocks (axis : Nat) (g : Tensor α) : List (Tensor α) → Nat → List (Except Fault (Tensor α))
  | [], _ => []
  | x :: rest, start =>
    let width := x.extent axis
    (if x.rank ≤ axis || g.extent axis < start + width then .error .index
      else .ok (g.selectAxis axis ((List.range width).map (start + ·))))
      :: blocks axis g rest (start + width)

/-- Amounts for the places of an axis that were read. -/
def placeAddends (axis : Nat) (places : Tensor Nat) (shape : List Nat) (g : Tensor α) :
    Except Fault (Contribution α) := do
  if g.rank ≤ axis then throw (.plain .axis)
  let rest := shape.eraseIdx axis
  let g ← (g.axisFirst axis).broadcastTo (places.shape ++ rest)
  pure (.sparse (Tensor.addendsBy shape (fun pos =>
    let outside := pos.drop places.rank
    outside.take axis ++ [places.get (pos.take places.rank)] ++ outside.drop axis) g))

/-- Amounts for the elements that an index array has picked. -/
def gatherAddends (axis : Axis) (a indices g : Tensor α) : Except Fault (Contribution α) := do
  let i ← axis.resolve a.rank
  let places ← Tensor.placeTensor (a.extent i) indices
  let inside := (List.range a.rank).all fun k => k == i || indices.extent k ≤ a.extent k
  if indices.rank ≠ a.rank || !inside then throw .index
  let g ← g.broadcastTo indices.shape
  pure (.sparse (Tensor.addendsBy a.shape (fun pos => pos.set i (places.get pos)) g))

/-- The contributions of a backward step, from inputs, output and output gradient. -/
def contributions (op : Operator α) (inputs : List (Tensor α)) (out g : Tensor α)
    (wanted : List Bool) : Contributions α :=
  match op, inputs with
  | unary f, x :: _ => [(0, asDense (unaryGradient f x out g))]
  | joint (.compare _), _ => [(0, .error .undefined)]
  | joint f, xs => (List.range xs.length).map fun i => (i, asDense (jointGradient f xs out g i))
  | clipGradient c, _ => [(0, .ok (.dense (g.map (clampTo c))))]
  | debug _ _, _ => [(0, .ok (.dense g))]
  | cast type, x :: _ =>
    if type.isFloat then [(0, asDense (g.combine (fun y x => Element.like x y) x))] else []
  | reduce r axis, a :: _ => [(0, asDense (reduceGradient r axis a out g))]
  | scalarProduct _, [a, b] =>
    [(0, asDense (g.combine (· * ·) b)), (1, asDense (g.combine (· * ·) a))]
  | softmax axis, _ => [(0, asDense (softmaxGradient axis out g))]
  | logSoftmax axis, _ => [(0, asDense (logSoftmaxGradient axis out g))]
  | crossEntropy smoothing, [logits, labels] =>
    [(0, asDense (crossEntropyGradient smoothing logits labels g))]
  | layerNorm eps, xs => layerNormContributions eps xs g wanted
  | topK k axis descending _, a :: _ => [(0, asDense (topKGradient k axis descending a g))]
  | matMul transA transB scalar _, [a, b] =>
    productContributions transA transB scalar a b g wanted
  | transpose axes, _ =>
    [(0, asDense (do pure (g.permute (Tensor.inversePermutation (← permutation axes g.rank)))))]
  | reshape _, a :: _ => [(0, asDense (g.reshape a.shape))]
  | concatenate axis, xs =>
    match axis.resolve g.rank with
    | .ok i => (blocks i g xs 0).zipIdx.map fun (block, slot) => (slot, asDense block)
    | .error f => [(0, .error f)]
  | slice axis selection, a :: _ => ifWanted wanted 0 do
      let i ← axis.resolve a.rank
      pure (.window i (← selection.places axis (a.extent i)) g)
  | indexSelect axis, [a, indices] => ifWanted wanted 0 do
      let i ← axis.resolve a.rank
      placeAddends i (← Tensor.exactPlaces (a.extent i) indices) a.shape g
  | gather axis, [a, indices] => ifWanted wanted 0 (gatherAddends axis a indices g)
  | custom _ _ _ (some rule) _, xs => rule.backward xs out g
  | custom _ _ _ none _, _ => [(0, .error .type)]
  | stopGradient, _ | unspecified _, _ => [(0, .error .undefined)]
  | _, _ => [(0, .error .value)]

end Operator

end ReverseMode
