import ReverseMode.Operator.Basic

/-!
Elementwise operators, one element at a time: the value, and the factor by which a
gradient passes back to each input.

The order of the arithmetic is fixed, since every step rounds.
-/

namespace ReverseMode

open scoped Element
open Element (whole real mask)

variable {α : Type} [Element α]

/-- The logistic function, computed so that it does not overflow. -/
def logistic (x : α) : α :=
  Element.exp (-(Element.logaddexp (whole 0) (-x)))

/-- A value moved between `-bound` and `bound`. -/
def clampTo (bound : Float) (x : α) : α :=
  Element.clamp (real (-bound)) (real bound) x

namespace Unary

/-- The value at one element. -/
def value (f : Unary) (x : α) : α :=
  match f with
  | neg => -x
  | addScalar c => x + real c
  | mulScalar c => x * real c
  | sqrt eps => Element.sqrt (x + real eps)
  | square => x * x
  | abs => Element.abs x
  | exp => Element.exp x
  | log => Element.log x
  | sin => Element.sin x
  | cos => Element.cos x
  | tan => Element.tan x
  | sigmoid => logistic x
  | swish beta => x * logistic (real beta * x)
  | relu => Element.max x (whole 0)
  | prelu alpha =>
    let y := real alpha * x
    if Element.lt (whole 0) x then Element.like y x else y
  | clip bound => clampTo bound x

/-- The gradient of the input, from the gradient `g` and the value `y` of the output. -/
def gradient (f : Unary) (g x y : α) : α :=
  match f with
  | neg => -g
  | addScalar _ => g
  | mulScalar c => g * real c
  | sqrt _ => g * real 0.5 / y
  | square => g * whole 2 * x
  | abs => g * Element.sign x
  | exp => g * y
  | log => g / x
  | sin => g * Element.cos x
  | cos => -g * Element.sin x
  | tan => g * (whole 1 + y * y)
  | sigmoid => g * y * (whole 1 - y)
  | swish beta =>
    let s := logistic (real beta * x)
    g * (s + real beta * y * (whole 1 - s))
  | relu => g * mask (Element.lt (whole 0) x)
  | prelu alpha =>
    g * Element.literal (.float64 (if Element.lt (whole 0) x then 1.0 else alpha))
  | clip bound => g * mask (Element.le (Element.abs x) (real bound))

/-- Whether the gradient is computed from the input. -/
def readsInput : Unary → Bool
  | square | abs | log | sin | cos | swish _ | relu | prelu _ | clip _ => true
  | _ => false

/-- Whether the gradient is computed from the output. -/
def readsOutput : Unary → Bool
  | sqrt _ | exp | tan | sigmoid | swish _ => true
  | _ => false

end Unary

/-- Whether a relation holds between two elements. -/
def Relation.holds (r : Relation) (x y : α) : Bool :=
  match r with
  | lt => Element.lt x y
  | le => Element.le x y
  | gt => Element.lt y x
  | ge => Element.le y x
  | eq => Element.eq x y
  | ne => !Element.eq x y

namespace Joint

/-- How many inputs an operator takes; none for any number. -/
def arity? : Joint → Option Nat
  | tanh => none
  | highway => some 3
  | _ => some 2

/-- The value at one element of every input. -/
def value (f : Joint) (xs : List α) : α :=
  match f, xs with
  | plus, [a, b] => a + b
  | minus, [a, b] => a - b
  | mult, [a, b] => a * b
  | div, [a, b] => a / b
  | maximum, [a, b] => Element.max a b
  | minimum, [a, b] => Element.min a b
  | logAddExp, [a, b] => Element.logaddexp a b
  | compare r, [a, b] => mask (r.holds a b)
  | highway, [y, x, t] =>
    let s := logistic t
    s * y + (whole 1 - s) * x
  | tanh, x :: rest => Element.tanh (rest.foldl (· + ·) x)
  | _, _ => whole 0

/-- The gradients of the inputs, from the gradient `g` and the value `z` of the output. -/
def gradients (f : Joint) (g z : α) (xs : List α) : List α :=
  match f, xs with
  | plus, [_, _] => [g, g]
  | minus, [_, _] => [g, -g]
  | mult, [a, b] => [g * b, g * a]
  | div, [a, b] => [g / b, -g * a / (b * b)]
  | maximum, [a, b] =>
    let left := Element.le b a
    [g * mask left, g * mask (!left)]
  | minimum, [a, b] =>
    let left := Element.le a b
    [g * mask left, g * mask (!left)]
  | logAddExp, [a, b] => [g * Element.exp (a - z), g * Element.exp (b - z)]
  | highway, [y, x, t] =>
    let s := logistic t
    [g * s, g * (whole 1 - s), g * (y - x) * s * (whole 1 - s)]
  | tanh, xs => xs.map fun _ => g * (whole 1 - z * z)
  | _, _ => []

/-- The inputs that the gradient of input `i` is computed from. -/
def reads (f : Joint) (i : Nat) : List Nat :=
  match f, i with
  | mult, 0 | div, 0 => [1]
  | mult, _ => [0]
  | div, _ | maximum, _ | minimum, _ => [0, 1]
  | logAddExp, i => [i]
  | highway, 0 | highway, 1 => [2]
  | highway, _ => [0, 1, 2]
  | _, _ => []

/-- Whether the gradients are computed from the output. -/
def readsOutput : Joint → Bool
  | logAddExp | tanh => true
  | _ => false

end Joint

end ReverseMode
