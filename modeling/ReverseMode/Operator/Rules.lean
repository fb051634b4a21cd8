import ReverseMode.Operator.Value

/-!
Rules that are known by name.

A rule is called as a forward function or as a backward function; one that is called as
what it is not made for is refused.
-/

namespace ReverseMode

namespace Rule

open scoped Element
open Element (whole)

variable {α : Type} [Element α]

/-- A tensor written over a buffer. -/
def overwrite (buffer t : Tensor α) : Except Fault (Tensor α) := do
  pure (buffer.zipWith Element.like (← (← t.sound).spread buffer.shape))

/-- A rule for forward steps. -/
def forForward (name : String)
    (forward : List (Tensor α) → Tensor α → Except Fault (Tensor α)) : Rule α where
  name := name
  forward := forward
  backward _ _ _ := [(0, .error .type)]

/-- A rule for backward steps, from inputs and output gradient. -/
def forBackward (name : String) (backward : List (Tensor α) → Tensor α → Contributions α) :
    Rule α where
  name := name
  forward _ _ := .error .type
  backward inputs _ g := backward inputs g

/-- An axis of extent one put after the first axis. -/
def asColumn (t : Tensor α) : Except Fault (Tensor α) :=
  match t.shape with
  | [] => .error .index
  | e :: rest => t.reshape (e :: 1 :: rest)

/-- An axis of extent one put in front. -/
def asRow (t : Tensor α) : Except Fault (Tensor α) :=
  match t.shape with
  | [] => .error .index
  | shape => t.reshape (1 :: shape)

/-- The first two inputs of a rule. -/
def two (inputs : List (Tensor α)) : Except Fault (Tensor α × Tensor α) :=
  match inputs with
  | a :: b :: _ => .ok (a, b)
  | _ => .error .index

/-- The cube of the first input. -/
def cube (inputs : List (Tensor α)) (out : Tensor α) : Except Fault (Tensor α) := do
  overwrite out ((← Operator.first inputs).map fun x => x * x * x)

def cubeGradient (inputs : List (Tensor α)) (g : Tensor α) : Contributions α :=
  [(0, do
    let x ← Operator.first inputs
    pure (.inPlace (← (x.map fun x => whole 3 * x * x).combine (· * ·) g)))]

/-- The products of every element of the first input with every one of the second. -/
def outer (inputs : List (Tensor α)) (out : Tensor α) : Except Fault (Tensor α) := do
  let (a, b) ← two inputs
  overwrite out (← (← asColumn a).combine (· * ·) (← asRow b))

/-- The sum over one axis of a matrix, without that axis. -/
def summed (axis : Nat) (t : Tensor α) : Except Fault (Tensor α) :=
  if t.rank ≤ axis then .error (.plain .axis)
  else (t.sumAxes [axis]).reshape (t.shape.eraseIdx axis)

def outerGradient (inputs : List (Tensor α)) (g : Tensor α) : Contributions α :=
  [(0, do
      let (_, b) ← two inputs
      pure (.inPlace (← summed 1 (← g.combine (· * ·) (← asRow b))))),
   (1, do
      let (a, _) ← two inputs
      pure (.inPlace (← summed 0 (← g.combine (· * ·) (← asColumn a)))))]

/-- The rule of a name. -/
def named? : String → Option (Rule α)
  | "cube_f" => some (forForward "cube_f" cube)
  | "cube_b" => some (forBackward "cube_b" cubeGradient)
  | "outer_f" => some (forForward "outer_f" outer)
  | "outer_b" => some (forBackward "outer_b" outerGradient)
  | "fill_f" => some (forForward "fill_f" fun _ out => overwrite out (.scalar (whole 7)))
  | "add_to_f" => some (forForward "add_to_f" fun _ out => out.addInPlace (.scalar (whole 1)))
  | "boom" => some
      { name := "boom"
        unobserving := .value
        forward := fun _ _ => .error .value
        backward := fun _ _ _ => [(0, .error .value)] }
  | _ => none

end Rule

end ReverseMode
