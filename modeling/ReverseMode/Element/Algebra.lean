import ReverseMode.Element.Scalar

/-!
The operations on array elements that tensors, operators and graphs are built on.

`Element α` lists the operations without laws, so that one definition of an
operator serves both the stored numbers a program runs on and the rings and fields
in which its laws are stated. `Scalar` is the instance that programs run on.
-/

namespace ReverseMode

/-- Operations on the elements of arrays. -/
class Element (α : Type) where
  /-- The element a number stands for. -/
  literal : Scalar → α
  /-- An element stored in a type. -/
  store : StorageType → α → α
  /-- The second element stored in the type of the first. -/
  like : α → α → α
  /-- The second element in the place of the first, refused where its kind is wider. -/
  replace : α → α → α
  /-- Why there is no element, where an operation had no meaning on its operands. -/
  refusal? : α → Option FaultKind
  add : α → α → α
  sub : α → α → α
  mul : α → α → α
  div : α → α → α
  max : α → α → α
  min : α → α → α
  /-- The third element moved between the first two. -/
  clamp : α → α → α → α
  neg : α → α
  abs : α → α
  sign : α → α
  exp : α → α
  log : α → α
  sin : α → α
  cos : α → α
  tan : α → α
  tanh : α → α
  sqrt : α → α
  pow : α → Nat → α
  /-- `log (exp a + exp b)`. -/
  logaddexp : α → α → α
  lt : α → α → Bool
  le : α → α → Bool
  eq : α → α → Bool
  /-- The sum of runs; the elements of a run lie side by side. -/
  sum : List (List α) → α
  /-- The product of a list; the flag says that its elements lie side by side. -/
  prod : Bool → List α → α
  /-- The arithmetic mean of a list. -/
  mean : List α → α
  /-- The sum of the products of two lists. -/
  dot : List α → List α → α
  /-- The array position an element stands for. -/
  position : α → Int
  /-- The array position, if positions may have the type of the element. -/
  position? : α → Option Int
  /-- The element as a double, for display. -/
  toFloat : α → Float

namespace Element

variable {α : Type} [Element α]

/-- An integer literal. -/
def whole (n : Int) : α := literal (.whole n)

/-- A real literal. -/
def real (x : Float) : α := literal (.real x)

/-- A truth value as a factor. -/
def mask (b : Bool) : α := literal (.bool b)

/-! Arithmetic signs for elements, where this namespace is opened as scoped. -/

scoped instance : Inhabited α := ⟨whole 0⟩
scoped instance : Add α := ⟨add⟩
scoped instance : Sub α := ⟨sub⟩
scoped instance : Mul α := ⟨mul⟩
scoped instance : Div α := ⟨div⟩
scoped instance : Neg α := ⟨neg⟩

end Element

/-- Stored numbers. -/
instance : Element Scalar where
  literal := id
  store := Scalar.store
  like a b := b.store a.ownType
  replace := Scalar.replace
  refusal? := Scalar.refusal?
  add := Scalar.add
  sub := Scalar.sub
  mul := Scalar.mul
  div := Scalar.div
  max := Scalar.max
  min := Scalar.min
  clamp := Scalar.clamp
  neg := Scalar.neg
  abs := Scalar.abs
  sign := Scalar.sign
  exp := Scalar.function Float.exp
  log := Scalar.function Float.log
  sin := Scalar.function Float.sin
  cos := Scalar.function Float.cos
  tan := Scalar.function Float.tan
  tanh := Scalar.function Float.tanh
  sqrt := Scalar.function Float.sqrt
  pow := Scalar.pow
  logaddexp := Scalar.logaddexp
  lt := Scalar.lt
  le := Scalar.le
  eq := Scalar.eq
  sum := Scalar.sum
  prod := Scalar.prod
  mean := Scalar.mean
  dot := Scalar.dot
  position := Scalar.position
  position? := Scalar.position?
  toFloat := Scalar.toFloat

end ReverseMode
