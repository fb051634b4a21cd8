import ReverseMode.Operator.Basic

/-!
What operators do to a single fibre: reductions, softmax, normalization, and the
gradients that belong to them.

The flag `dense` says whether the elements of the fibre lie side by side.
-/

namespace ReverseMode

open scoped Element
open Element (whole real mask)

variable {α : Type} [Element α]

namespace Fibre

/-- The largest element of a fibre. -/
def largest : List α → α
  | [] => whole 0
  | x :: rest => rest.foldl Element.max x

/-- The smallest element of a fibre. -/
def smallest : List α → α
  | [] => whole 0
  | x :: rest => rest.foldl Element.min x

/-- A fibre as runs of elements that lie side by side. -/
def runs (dense : Bool) (xs : List α) : List (List α) :=
  if dense then [xs] else xs.map fun x => [x]

/-- The sum of a fibre. -/
def total (dense : Bool) (xs : List α) : α := Element.sum (runs dense xs)

/-- The deviations from the mean. -/
def centered (xs : List α) : List α :=
  let m := Element.mean xs
  xs.map fun x => x - m

/-- The mean of the squared deviations from the mean. Both means are sums divided by the
number of elements, each step stored in the type that quotients of the elements have. -/
def variance (dense : Bool) (xs : List α) : α :=
  let n : α := whole xs.length
  let xs := xs.map fun x => x / whole 1
  let m := total dense xs / n
  let squares := xs.map fun x => (x - m) * (x - m)
  total dense squares / n

/-- `log` of the sum of exponentials, the largest element taken out first. -/
def logSumExp (dense : Bool) (xs : List α) : α :=
  let m := largest xs
  m + Element.log (total dense (xs.map fun x => Element.exp (x - m)))

/-- The element that a reduction leaves of a fibre. -/
def reduce (r : Reduction) (dense : Bool) (xs : List α) : α :=
  match r with
  | .sum => total dense xs
  | .mean => Element.mean xs
  | .var => variance dense xs
  | .std => Element.sqrt (variance dense xs)
  | .max => largest xs
  | .min => smallest xs
  | .prod => Element.prod dense xs
  | .logSumExp => logSumExp dense xs

/-- The products of the first one, two, … elements. -/
def runningProducts (xs : List α) : List α :=
  (List.range xs.length).map fun i => Element.prod false (xs.take (i + 1))

/-- At every place the product of all other elements, without a division. -/
def productOfOthers (xs : List α) : List α :=
  match xs with
  | [] => []
  | x :: rest =>
    let one := Element.like x (whole 1)
    let left := runningProducts (one :: xs.dropLast)
    let right := (runningProducts ((rest ++ [one]).reverse)).reverse
    List.zipWith (· * ·) left right

/-- The factor of the gradient of a standard deviation `y` of `n` elements. Where the spread
is zero, so is the gradient. The factor has the type of `y`. -/
def spreadFactor (n y : α) : α :=
  let factor := Element.replace y (real 1.0 / (n * y))
  if (Element.refusal? factor).isSome || Element.lt (whole 0) y then factor
  else Element.like y (whole 0)

/-- Exponentials divided by their sum. -/
def softmax (dense : Bool) (xs : List α) : List α :=
  let m := largest xs
  let es := xs.map fun x => Element.exp (x - m)
  let sum := total dense es
  es.map fun e => e / sum

/-- The logarithms of a softmax. -/
def logSoftmax (dense : Bool) (xs : List α) : List α :=
  let m := largest xs
  let shifted := xs.map fun x => x - m
  let sum := Element.log (total dense (shifted.map Element.exp))
  shifted.map fun x => x - sum

/-- The weight of the label in a smoothed target. -/
def labelWeight (smoothing : Float) : α := whole 1 - real smoothing

/-- The cross entropy of logits against the label at a place. -/
def crossEntropy (smoothing : Float) (label : Nat) (xs : List α) : α :=
  let logp := logSoftmax true xs
  let weight : α := -labelWeight smoothing
  weight * logp.getD label (whole 0) - real smoothing * Element.mean logp

/-- The gradient of the cross entropy of logits: the probabilities less the targets. -/
def crossEntropyGradient (smoothing : Float) (label : Nat) (xs : List α) : List α :=
  (List.zipWith Prod.mk xs (logSoftmax true xs)).mapIdx fun i (x, lp) =>
    let hit : α := Element.like x (whole (if i = label then 1 else 0))
    let target := labelWeight smoothing * hit + real smoothing / whole xs.length
    Element.exp lp - target

/-- The normalized fibre and the inverse of its standard deviation. -/
def normalize (eps : Float) (xs : List α) : List α × α :=
  let inverse := real 1.0 / Element.sqrt (variance true xs + real eps)
  ((centered xs).map fun d => d * inverse, inverse)

/-- The keys that elements are ranked by. -/
def rankingKey (descending : Bool) (x : α) : α := if descending then -x else x

/-- The places of the `k` first elements in ranking order. -/
def topPlaces (k : Nat) (descending : Bool) (xs : List α) : List Nat :=
  (Tensor.order (xs.map (rankingKey descending))).take k

/-- Amounts put at places of an otherwise empty fibre of `extent` elements. -/
def putAt (extent : Nat) (places : List Nat) (amounts : List α) : List α :=
  (List.range extent).map fun i =>
    match (places.zip amounts).find? fun p => p.1 = i with
    | some (_, amount) => amount
    | none => whole 0

end Fibre

end ReverseMode
