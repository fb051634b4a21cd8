import ReverseMode.Tensor.Basic

/-!
The generator of initial values: a linear congruence modulo `2^32`.

Every draw advances the state once and yields a number in `[0, 1)`. Arrays are filled
in row-major order.
-/

namespace ReverseMode

/-- The state of the generator. -/
structure Random where
  state : UInt32
deriving DecidableEq, Repr, Inhabited

namespace Random

/-- The generator started from a seed. -/
def ofSeed (seed : Int) : Random := ⟨UInt32.ofNat (seed % (Nat.pow 2 32 : Nat)).toNat⟩

/-- The next state. -/
def next (r : Random) : Random := ⟨1664525 * r.state + 1013904223⟩

/-- The number that a state stands for. -/
def unit (r : Random) : Float := r.state.toFloat / 4294967296.0

/-- One draw. -/
def draw (r : Random) : Float × Random :=
  let r := r.next
  (r.unit, r)

/-- A list of draws. -/
def draws : Nat → Random → List Float × Random
  | 0, r => ([], r)
  | n + 1, r =>
    let (x, r) := r.draw
    let (xs, r) := draws n r
    (x :: xs, r)

theorem length_draws (n : Nat) (r : Random) : (draws n r).1.length = n := by
  induction n generalizing r with
  | zero => rfl
  | succ n ih => simp [draws, ih]

/-- An array of draws. -/
def tensor (shape : List Nat) (r : Random) : Tensor Float × Random :=
  let drawn := draws (volume shape) r
  (⟨shape, drawn.1.toArray, by simp [drawn, length_draws]⟩, drawn.2)

end Random

/-! ### Numbers made from a draw

The parameters are numbers of any type, or literals; a draw counts as a literal. -/

namespace Draw

/-- A draw as a number of mean zero between `-2` and `2`. -/
def centered (u : Float) : Float := 4.0 * u - 2.0

/-- A draw as a number between two bounds. -/
def uniform (low high : Scalar) (u : Float) : Scalar :=
  low.add ((high.sub low).mul (.real u))

/-- A draw as a number around a mean. -/
def normal (mean deviation : Scalar) (u : Float) : Scalar :=
  mean.add (deviation.mul (.real (centered u)))

/-- A draw as a factor: zero with probability `p`, else `1 / (1 - p)`. -/
def kept (p : Scalar) (u : Float) : Scalar :=
  Scalar.div (.bool (p.le (.float64 u))) (Scalar.sub (.real 1.0) p)

end Draw

end ReverseMode
