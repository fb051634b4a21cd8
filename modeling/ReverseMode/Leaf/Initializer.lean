import ReverseMode.Leaf.Counter
import ReverseMode.Leaf.Random
import ReverseMode.Shape.Basic

/-!
Initializers: how the value of a leaf comes about when it is first needed.

An initializer gets the shape, the element type and the generator. One that holds
given values knows how many they are, so their number is checked against the shape as
soon as a leaf is built.
-/

namespace ReverseMode

/-- A rule for the value of a leaf. -/
structure Initializer (α : Type) where
  /-- The number of values held, if they are given. -/
  held? : Option Nat := none
  /-- Whether a value without axes comes as a number and not as an array. -/
  bare : Bool := false
  run : Shape → ElementType → Random → Except Fault (Tensor α × Random)

namespace Initializer

variable {α : Type} [Element α]

/-- A value that needs no draw. -/
def fixed (value : Shape → ElementType → Except Fault (Tensor α)) : Initializer α where
  run shape type random := do pure (← value shape type, random)

/-- The same number everywhere. -/
def constant (n : Int) : Initializer α :=
  fixed fun shape type => .ok (.full shape.extents (Element.store type.storage (Element.whole n)))

def zeros : Initializer α := constant 0

def ones : Initializer α := constant 1

/-- A literal spread over the shape. -/
def ofValue (value : Literal) : Initializer α :=
  fixed fun shape type => do
    let stored ← value.store type
    pure ((← stored.spread shape.extents).map Element.literal)

/-- The number of elements that values are counted against, in 64 bits. -/
def needed (shape : Shape) : Int := IntegerType.int64.wrap shape.elements

/-- Given values have to be as many as the shape needs. -/
def checkSize (held : Nat) (shape : Shape) : Except Fault Unit :=
  if (held : Int) = needed shape then .ok ()
  else .error (.literalSize held shape.extents (needed shape))

/-- Given values in row-major order, under the extents of the shape. -/
def ofLiteral (values : Literal) : Initializer α where
  held? := some values.size
  run shape type random := do
    checkSize values.size shape
    let laid ← (values.entries.reshape shape.extents)
    let stored ← (Literal.store type ⟨values.type, laid⟩)
    pure (stored.map Element.literal, random)

/-- Values taken as they are, whatever the shape. -/
def unchecked (values : Literal) : Initializer α :=
  fixed fun _ _ => do pure ((← values.numbers).map Element.literal)

/-- An initializer that always fails. -/
def failing : Initializer α := fixed fun _ _ => .error .value

/-- Random numbers. The shape decides what is made from the draws. -/
def random (bare : Bool)
    (make : Shape → Except Fault (Tensor Float → Except Fault (Tensor Scalar))) :
    Initializer α where
  bare := bare
  run shape type random := do
    let value ← make shape
    let (units, random) := random.tensor shape.extents
    let made ← value units
    pure (made.map fun x => Element.store type.storage (Element.literal x), random)

/-- Two numbers or arrays combined; a refusal stands for all of the result. -/
def combined (f : Scalar → Scalar → Scalar) (a b : Tensor Scalar) :
    Except Fault (Tensor Scalar) := do
  (← a.combine f b).sound

/-- Doubles made from the draws one at a time. Each draw has to give a single number. -/
def oneEach (f : Scalar → Scalar → Float → Scalar) (a b : Tensor Scalar) (units : Tensor Float) :
    Except Fault (Tensor Scalar) := do
  let made ← units.toList.mapM fun u => combined (fun a b => f a b u) a b
  match Tensor.ofArray? units.shape (made.flatMap Tensor.toList).toArray with
  | some t => pure (t.map (Scalar.store .float64))
  | none => throw .value

/-- Uniform between two bounds. -/
def uniform (low high : Tensor Scalar) : Initializer α :=
  random false fun _ => .ok (oneEach Draw.uniform low high)

/-- Around a mean. -/
def normal (mean deviation : Tensor Scalar) : Initializer α :=
  random false fun _ => .ok (oneEach Draw.normal mean deviation)

/-- Uniform between `-a` and `a` with `a = sqrt (6 / (m + n))`, where `m` and `n` are the
last two extents. -/
def glorotUniform : Initializer α :=
  random false fun shape =>
    let sum := Float.ofNat (shape.extentBack 1 + shape.extentBack 0)
    let limit := (6.0 / sum).sqrt
    .ok (oneEach Draw.uniform (.scalar (.float64 (-limit))) (.scalar (.float64 limit)))

/-- The deviation `sqrt (2 / n)` for `n` inputs, in a float type that goes with `n`. -/
def deviation (n : Scalar) : Scalar :=
  Scalar.function Float.sqrt (Scalar.div (.real 2.0) n)

/-- Around zero with deviation `sqrt (2 / n)`; `n` is the first extent unless given. -/
def heNormal (inputs? : Option (Tensor Scalar)) : Initializer α :=
  random true fun shape => do
    let inputs := inputs?.getD (.scalar (.whole (shape.extent 0)))
    let scale ← (inputs.map deviation).sound
    pure fun units =>
      units.combine (fun u s => Scalar.mul (.float64 (Draw.centered u)) s) scale

/-- Zero with probability `p`, else `1 / (1 - p)`. -/
def dropout (p : Tensor Scalar) (text : String) : Except Fault (Initializer α) :=
  match p.toList with
  | [s] =>
    if Scalar.le (.real 0.0) s && Scalar.lt s (.real 1.0) then
      .ok (random true fun _ => .ok fun units => units.combine (fun u p => Draw.kept p u) p)
    else .error (.dropoutProbability text)
  | _ => .error .value

/-- `start`, `start + 1`, … in row-major order. -/
def rangeFrom (start : Scalar) : Initializer α :=
  fixed fun shape type => do
    let numbers ← Counter.startingAt type.storage shape.elements start
    match Tensor.ofArray? shape.extents (numbers.map Element.literal).toArray with
    | some t => pure t
    | none => throw .value

end Initializer

end ReverseMode
