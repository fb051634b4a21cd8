import Mathlib.Algebra.BigOperators.Fin
import ReverseMode.Proofs.Directions
import ReverseMode.Proofs.Rules

/-!
Derivatives of arithmetic.

Sums, differences, products, quotients, negatives and squares are computed element by element in
the extents that the inputs combine to. At one element the gradient of each input is the gradient
of the output times a partial derivative, and the partial derivatives times the directions of the
inputs add up to the direction of the output. Summed back over the axes along which an input is
repeated, the gradients are those of the inputs.
-/

namespace ReverseMode

open scoped Element DualNumber

/-- The operators that do arithmetic element by element. -/
inductive Elementwise where
  | plus
  | minus
  | mult
  | div
  | neg
  | square
  | addScalar (c : Float)
  | mulScalar (c : Float)

namespace Elementwise

def operator {α : Type} : Elementwise → Operator α
  | plus => .joint .plus
  | minus => .joint .minus
  | mult => .joint .mult
  | div => .joint .div
  | neg => .unary .neg
  | square => .unary .square
  | addScalar c => .unary (.addScalar c)
  | mulScalar c => .unary (.mulScalar c)

/-- How many inputs there are. -/
def arity : Elementwise → Nat
  | plus | minus | mult | div => 2
  | _ => 1

/-- The numbers that an operator is made with. -/
def constants : Elementwise → List Float
  | addScalar c | mulScalar c => [c]
  | _ => []

end Elementwise

/-! ### One element -/

namespace Joint

variable {α : Type} [Element α]

/-- The gradient of input `i` at one element of each input; `g` stands where nothing is read. -/
def gradientAt (f : Joint) (i : Nat) (g x y : α) : α :=
  (f.gradients g g [if (f.reads i).contains 0 then x else g,
    if (f.reads i).contains 1 then y else g]).getD i default

/-- The operators of two inputs that do arithmetic. -/
def IsArithmetic (f : Joint) : Prop := f = plus ∨ f = minus ∨ f = mult ∨ f = div

theorem IsArithmetic.reads {f : Joint} (arithmetic : f.IsArithmetic) :
    f.arity? = some 2 ∧ f.readsOutput = false := by
  rcases arithmetic with rfl | rfl | rfl | rfl <;> exact ⟨rfl, rfl⟩

end Joint

namespace Unary

variable {α : Type} [Element α]

/-- The gradient of the input at one element; `g` stands where nothing is read. -/
def gradientAt (f : Unary) (g x : α) : α := f.gradient g (if f.readsInput then x else g) g

/-- The operators of one input that do arithmetic. -/
def IsArithmetic : Unary → Prop
  | neg | square | addScalar _ | mulScalar _ => True
  | _ => False

theorem IsArithmetic.reads {f : Unary} (arithmetic : f.IsArithmetic) : f.readsOutput = false := by
  cases f <;> first | rfl | exact arithmetic.elim

/-- The numbers that an operator does arithmetic with. -/
def constants : Unary → List Float
  | addScalar c | mulScalar c => [c]
  | _ => []

end Unary

namespace Element.Reading

variable {α β F : Type} [Element α] [Element β] [Field F] {type : StorageType}
variable {ρ : Element.Reading α F type} {δ : Element.Reading β F[ε] type}

/-- The partial derivatives of a joint operator that does arithmetic. -/
def jointSlopes (f : Joint) (x y : F) : F × F :=
  match f with
  | .plus => (1, 1)
  | .minus => (1, -1)
  | .mult => (y, x)
  | .div => (1 / y, -x / (y * y))
  | _ => 0

/-- The derivative of a unary operator that does arithmetic. -/
def unarySlope (ρ : Element.Reading α F type) (f : Unary) (x : F) : F :=
  match f with
  | .neg => -1
  | .square => x + x
  | .addScalar _ => 1
  | .mulScalar c => ρ.val (Element.real c)
  | _ => 0

section Local

variable {x y g : α} {u v : β}

/-- What a joint operator makes of elements, and what each input is given. -/
theorem joint_gradients (exact : ρ.Arithmetic) (divides : ρ.Divides) {f : Joint}
    (arithmetic : f.IsArithmetic) (first : ρ.carrier x) (second : ρ.carrier y)
    (divisor : f = .div → ρ.val y ≠ 0) (gradient : ρ.carrier g) : ρ.carrier (f.value [x, y]) ∧
      (ρ.carrier (f.gradientAt 0 g x y) ∧
        ρ.val (f.gradientAt 0 g x y) = ρ.val g * (jointSlopes f (ρ.val x) (ρ.val y)).1) ∧
      ρ.carrier (f.gradientAt 1 g x y) ∧
        ρ.val (f.gradientAt 1 g x y) = ρ.val g * (jointSlopes f (ρ.val x) (ρ.val y)).2 := by
  rcases arithmetic with rfl | rfl | rfl | rfl
  · refine ⟨(ρ.add first second).1, ⟨gradient, ?_⟩, gradient, ?_⟩
    · exact (mul_one _).symm
    · exact (mul_one _).symm
  · obtain ⟨turned, opposite⟩ := exact.neg gradient
    refine ⟨(exact.sub first second).1, ⟨gradient, ?_⟩, turned, ?_⟩
    · exact (mul_one _).symm
    · exact opposite.trans (mul_neg_one _).symm
  · exact ⟨(ρ.mul first second).1, ρ.mul gradient second, ρ.mul gradient first⟩
  · have divisor := divisor rfl
    obtain ⟨left, quotient⟩ := divides.quotient gradient second divisor
    obtain ⟨turned, opposite⟩ := exact.neg gradient
    obtain ⟨product, value⟩ := ρ.mul turned first
    obtain ⟨square, value'⟩ := ρ.mul second second
    have nonzero : ρ.val (y * y) ≠ 0 := value' ▸ mul_ne_zero divisor divisor
    obtain ⟨right, quotient'⟩ := divides.quotient product square nonzero
    refine ⟨(divides.quotient first second divisor).1, ⟨left, ?_⟩, right, ?_⟩
    · exact quotient.trans (div_eq_mul_one_div _ _)
    · refine quotient'.trans ?_
      rw [value, value', opposite, jointSlopes]
      ring

/-- What a unary operator makes of an element, and what the input is given. -/
theorem unary_gradient (exact : ρ.Arithmetic) {f : Unary} (arithmetic : f.IsArithmetic)
    (constants : ∀ c ∈ f.constants, ρ.carrier (Element.real c)) (carried : ρ.carrier x)
    (gradient : ρ.carrier g) : ρ.carrier (f.value x) ∧ ρ.carrier (f.gradientAt g x) ∧
      ρ.val (f.gradientAt g x) = ρ.val g * ρ.unarySlope f (ρ.val x) := by
  cases f with
  | neg =>
    obtain ⟨turned, opposite⟩ := exact.neg gradient
    exact ⟨(exact.neg carried).1, turned, opposite.trans (mul_neg_one _).symm⟩
  | square =>
    obtain ⟨number, two⟩ : ρ.carrier (Element.whole 2) ∧ ρ.val (Element.whole 2) = 2 :=
      exact.whole 2
    obtain ⟨twice, double⟩ := ρ.mul gradient number
    obtain ⟨product, value⟩ := ρ.mul twice carried
    refine ⟨(ρ.mul carried carried).1, product, value.trans ?_⟩
    rw [double, two, unarySlope, mul_assoc, two_mul]
  | addScalar c =>
    have constant := constants c (by simp [Unary.constants])
    exact ⟨(ρ.add carried constant).1, gradient, (mul_one _).symm⟩
  | mulScalar c =>
    have constant := constants c (by simp [Unary.constants])
    exact ⟨(ρ.mul carried constant).1, ρ.mul gradient constant⟩
  | _ => exact arithmetic.elim

variable (exact : ρ.Arithmetic) (exact' : δ.Arithmetic) (divides : ρ.Divides)
  (divides' : δ.Divides)

include exact exact' divides divides' in
/-- What a joint operator makes of the directions of elements. -/
theorem joint_slope {f : Joint} (arithmetic : f.IsArithmetic) (first : ρ.Carries δ x u)
    (second : ρ.Carries δ y v) (divisor : f = .div → ρ.val y ≠ 0) :
    ρ.Carries δ (f.value [x, y]) (f.value [u, v]) ∧
      (δ.val (f.value [u, v])).snd = (jointSlopes f (ρ.val x) (ρ.val y)).1 * (δ.val u).snd +
        (jointSlopes f (ρ.val x) (ρ.val y)).2 * (δ.val v).snd := by
  rcases arithmetic with rfl | rfl | rfl | rfl
  · obtain ⟨carried, slope⟩ := first.add second
    refine ⟨carried, slope.trans ?_⟩
    rw [jointSlopes, one_mul, one_mul]
  · obtain ⟨carried, slope⟩ := first.sub exact exact' second
    refine ⟨carried, slope.trans ?_⟩
    rw [jointSlopes]
    ring
  · obtain ⟨carried, slope⟩ := first.mul second
    refine ⟨carried, slope.trans ?_⟩
    rw [jointSlopes]
    ring
  · obtain ⟨carried, -, slope⟩ := first.div divides divides' second (divisor rfl)
    refine ⟨carried, slope.trans ?_⟩
    rw [jointSlopes]
    ring

include exact exact' in
/-- What a unary operator makes of the direction of an element. -/
theorem unary_slope {f : Unary} (arithmetic : f.IsArithmetic)
    (constants : ∀ c ∈ f.constants, ρ.Carries δ (Element.real c) (Element.real c) ∧
      (δ.val (Element.real c)).snd = 0) (carried : ρ.Carries δ x u) :
    ρ.Carries δ (f.value x) (f.value u) ∧
      (δ.val (f.value u)).snd = ρ.unarySlope f (ρ.val x) * (δ.val u).snd := by
  cases f with
  | neg =>
    obtain ⟨turned, slope⟩ := carried.neg exact exact'
    exact ⟨turned, slope.trans (neg_one_mul _).symm⟩
  | square =>
    obtain ⟨squared, slope⟩ := carried.mul carried
    refine ⟨squared, slope.trans ?_⟩
    rw [unarySlope]
    ring
  | addScalar c =>
    obtain ⟨constant, fixed⟩ := constants c (by simp [Unary.constants])
    obtain ⟨sum, slope⟩ := carried.add constant
    refine ⟨sum, slope.trans ?_⟩
    rw [fixed, add_zero, unarySlope, one_mul]
  | mulScalar c =>
    obtain ⟨constant, fixed⟩ := constants c (by simp [Unary.constants])
    obtain ⟨product, slope⟩ := carried.mul constant
    refine ⟨product, slope.trans ?_⟩
    rw [fixed, mul_zero, zero_add, mul_comm, unarySlope]
  | _ => exact arithmetic.elim

end Local

end Element.Reading

/-! ### Arrays -/

namespace Operator

section Gradients

variable {α : Type} [Element α] {a b g : Tensor α} {r : List Nat}

/-- The gradients of the inputs of a joint operator, where the output is not read. -/
theorem jointGradient_eq {f : Joint} (unread : f.readsOutput = false) (extents : g.shape = r)
    (first : Fits a.shape r) (second : Fits b.shape r) (out : Tensor α) (i : Nat) :
    jointGradient f [a, b] out g i =
      .ok (.ofFn r fun q => f.gradientAt i (g.get q) (a.read q) (b.read q)) := by
  have joined : broadcast? (List.map Tensor.shape (g :: g ::
      [if (f.reads i).contains 0 then a else g, if (f.reads i).contains 1 then b else g])) =
        some r := by
    refine Fits.broadcast_all (by simp [extents]) ?_
    simp only [List.map_cons, List.map_nil, List.mem_cons, List.not_mem_nil, or_false]
    rintro s (rfl | rfl | rfl | rfl)
    · exact extents ▸ .refl _
    · exact extents ▸ .refl _
    · split
      · exact first
      · exact extents ▸ .refl _
    · split
      · exact second
      · exact extents ▸ .refl _
  unfold jointGradient Tensor.combineAll
  rw [unread]
  simp only [List.mapIdx_cons, List.mapIdx_nil, Bool.false_eq_true, if_false, Nat.zero_add]
  rw [joined]
  refine congrArg Except.ok (Tensor.ext_get rfl fun q inside => ?_)
  have inside : q ∈ positions r := inside
  have own : g.read q = g.get q := Tensor.read_self (extents ▸ inside)
  rw [Tensor.get_ofFn inside, Tensor.get_ofFn inside]
  simp only [List.map_cons, List.map_nil, Joint.gradientAt, own, apply_ite (Tensor.read · q)]

/-- The gradient of the input of a unary operator, where the output is not read. -/
theorem unaryGradient_eq {f : Unary} (unread : f.readsOutput = false) (extents : g.shape = a.shape)
    (out : Tensor α) : unaryGradient f a out g =
      .ok (.ofFn a.shape fun q => f.gradientAt (g.get q) (a.get q)) := by
  have joined : broadcast? (List.map Tensor.shape [g, if f.readsInput then a else g, g]) =
      some a.shape := by
    refine Fits.broadcast_all (by simp [extents]) ?_
    have same : (if f.readsInput then a else g).shape = a.shape := by
      split
      · rfl
      · exact extents
    simp only [List.map_cons, List.map_nil, extents, same, List.mem_cons, List.not_mem_nil,
      or_false, or_self]
    rintro s rfl
    exact .refl _
  unfold unaryGradient Tensor.combineAll
  rw [unread]
  simp only [Bool.false_eq_true, if_false]
  rw [joined]
  refine congrArg Except.ok (Tensor.ext_get rfl fun q inside => ?_)
  have inside : q ∈ positions a.shape := inside
  have own : g.read q = g.get q := Tensor.read_self (extents ▸ inside)
  have own' : a.read q = a.get q := Tensor.read_self inside
  rw [Tensor.get_ofFn inside, Tensor.get_ofFn inside]
  simp only [List.map_cons, List.map_nil, Unary.gradientAt, own, own', apply_ite (Tensor.read · q)]

/-- The values of two inputs. -/
theorem joint_value {f : Joint} (arity : f.arity? = some 2)
    (joined : broadcast? [a.shape, b.shape] = some r) {rank : Nat} :
    (joint f).value rank [a, b] = .ok (.ofFn r fun q => f.value [a.read q, b.read q]) := by
  have combined : Tensor.combineAll f.value [a, b] =
      .ok (.ofFn r fun q => f.value [a.read q, b.read q]) := by
    unfold Tensor.combineAll
    rw [List.map_cons, List.map_cons, List.map_nil, joined]
    rfl
  unfold value
  dsimp only
  rw [arity]
  exact combined

end Gradients

section Derivatives

variable {α β F : Type} [Element α] [Element β] [Field F] {type : StorageType}
variable {ρ : Element.Reading α F type} {δ : Element.Reading β F[ε] type}
variable (exact : ρ.Arithmetic) (exact' : δ.Arithmetic) {a b g : Tensor α} {r : List Nat}

open Element.Reading

include exact exact'

theorem joint_differentiates (divides : ρ.Divides) (divides' : δ.Divides) {f : Joint}
    (arithmetic : f.IsArithmetic) (positive : ∀ e ∈ r, 0 < e)
    (joined : broadcast? [a.shape, b.shape] = some r) (extents : g.shape = r)
    (left : ρ.Holds a) (right : ρ.Holds b) (gradient : ρ.Holds g)
    (divisors : f = .div → ∀ p ∈ positions b.shape, ρ.entry b p ≠ 0) :
    ρ.Differentiates δ (joint f) (joint f) r [a, b] g := by
  have first : Fits a.shape r := .of_broadcast joined (by simp)
  have second : Fits b.shape r := .of_broadcast joined (by simp)
  obtain ⟨arity, unread⟩ := arithmetic.reads
  have read : ∀ q ∈ positions r, ρ.carrier (a.read q) ∧ ρ.carrier (b.read q) ∧
      (f = .div → ρ.val (b.read q) ≠ 0) := fun q inside =>
    have there := Tensor.clamp_mem second.broadcast (by simp) inside
    ⟨left _ (Tensor.clamp_mem first.broadcast (by simp) inside), right _ there,
      fun quotient => divisors quotient _ there⟩
  have each : ∀ q ∈ positions r, _ := fun q inside =>
    have ⟨here, there, divisor⟩ := read q inside
    joint_gradients exact divides arithmetic here there divisor (gradient q (extents ▸ inside))
  let t : Tensor α := .ofFn r fun q => f.value [a.read q, b.read q]
  have held : ρ.Holds t := holds_ofFn fun q inside => (each q inside).1
  obtain ⟨y, stored, same, -, -⟩ := held.assign
  refine .of_gradients positive ?_ ?_ same
    (c := fun i => .ofFn r fun q => f.gradientAt i (g.get q) (a.read q) (b.read q)) ?_ ?_ ?_ ?_
  · exact Fin.forall_fin_two.mpr ⟨first, second⟩
  · exact bind_eq_ok.mpr ⟨t, joint_value arity joined, stored⟩
  · refine Fin.forall_fin_two.mpr ⟨holds_ofFn fun q inside => ?_, holds_ofFn fun q inside => ?_⟩
    · exact (each q inside).2.1.1
    · exact (each q inside).2.2.1
  · exact fun _ => rfl
  · intro out wanted
    have opened : (joint f).contributions [a, b] out g wanted =
        [(0, asDense (jointGradient f [a, b] out g 0)),
          (1, asDense (jointGradient f [a, b] out g 1))] := by
      rcases arithmetic with rfl | rfl | rfl | rfl <;> rfl
    have made (i : Nat) := jointGradient_eq unread extents first second out i
    rw [opened, Holds.asDense (ρ := ρ) (holds_ofFn fun q inside => (each q inside).2.1.1) (made 0),
      Holds.asDense (ρ := ρ) (holds_ofFn fun q inside => (each q inside).2.2.1) (made 1)]
    rfl
  · intro us lifts
    have lift : ρ.Lifts δ a (us 0) := lifts 0
    have lift' : ρ.Lifts δ b (us 1) := lifts 1
    have joined' : broadcast? [(us 0).shape, (us 1).shape] = some r := by
      rw [lift.shape, lift'.shape, joined]
    have moves : ∀ q ∈ positions r, _ := fun q inside =>
      joint_slope exact exact' divides divides' arithmetic (lift.read first inside)
        (lift'.read second inside) (read q inside).2.2
    have lifted : ρ.Lifts δ t (.ofFn r fun q => f.value [(us 0).read q, (us 1).read q]) :=
      .ofFn fun q inside => (moves q inside).1
    obtain ⟨z, y', stored', ran, -, together, slopes⟩ := lifted.assign
    obtain rfl : z = y := Except.ok.inj (stored'.symm.trans stored)
    refine ⟨y', bind_eq_ok.mpr ⟨_, joint_value arity joined', ran⟩, together, fun q inside => ?_⟩
    have change : δ.slope y' q = (δ.val (f.value [(us 0).read q, (us 1).read q])).snd := by
      rw [(slopes q inside).2, Element.Reading.slope, entry_ofFn inside]
    rw [change, (moves q inside).2]
    refine Eq.trans ?_ (Fin.sum_univ_two _).symm
    rw [entry_ofFn inside, entry_ofFn inside]
    refine Eq.trans ?_ (congrArg₂ (· + ·)
      (congrArg (· * (δ.val ((us 0).read q)).snd) (each q inside).2.1.2)
      (congrArg (· * (δ.val ((us 1).read q)).snd) (each q inside).2.2.2)).symm
    rw [entry]
    ring

theorem unary_differentiates {f : Unary} (arithmetic : f.IsArithmetic)
    (positive : ∀ e ∈ a.shape, 0 < e) (extents : g.shape = a.shape) (holds : ρ.Holds a)
    (gradient : ρ.Holds g)
    (constants : ∀ c ∈ f.constants, ρ.Carries δ (Element.real c) (Element.real c) ∧
      (δ.val (Element.real c)).snd = 0) :
    ρ.Differentiates δ (unary f) (unary f) a.shape [a] g := by
  have each : ∀ q ∈ positions a.shape, _ := fun q inside =>
    unary_gradient exact arithmetic (fun c mem => (constants c mem).1.still) (holds q inside)
      (gradient q (extents ▸ inside))
  have held : ρ.Holds (a.map f.value) := by
    intro q inside
    have inside : q ∈ positions a.shape := inside
    rw [Tensor.get_map f.value inside]
    exact (each q inside).1
  have read : ρ.Holds (.ofFn a.shape fun q => f.gradientAt (g.get q) (a.get q)) :=
    holds_ofFn fun q inside => (each q inside).2.1
  obtain ⟨y, stored, same, -, -⟩ := held.assign
  refine .of_gradients positive ?_ ?_ same
    (c := fun _ => .ofFn a.shape fun q => f.gradientAt (g.get q) (a.get q)) ?_ ?_ ?_ ?_
  · exact Fin.forall_fin_one.mpr (.refl _)
  · exact bind_eq_ok.mpr ⟨a.map f.value, rfl, stored⟩
  · exact fun _ => read
  · exact fun _ => rfl
  · intro out wanted
    have opened : (unary f).contributions [a] out g wanted =
        [(0, asDense (unaryGradient f a out g))] := rfl
    rw [opened, read.asDense (unaryGradient_eq arithmetic.reads extents out)]
    rfl
  · intro us lifts
    have lift : ρ.Lifts δ a (us 0) := lifts 0
    have moves : ∀ q ∈ positions a.shape, _ := fun q inside =>
      unary_slope exact exact' arithmetic constants (lift.carries q inside)
    have lifted : ρ.Lifts δ (a.map f.value) ((us 0).map f.value) :=
      .map lift.shape fun q inside => (moves q inside).1
    obtain ⟨z, y', stored', ran, -, together, slopes⟩ := lifted.assign
    obtain rfl : z = y := Except.ok.inj (stored'.symm.trans stored)
    refine ⟨y', bind_eq_ok.mpr ⟨(us 0).map f.value, rfl, ran⟩, together, fun q inside => ?_⟩
    have change : δ.slope y' q = (δ.val (f.value ((us 0).get q))).snd := by
      rw [(slopes q inside).2, Element.Reading.slope, entry,
        Tensor.get_map f.value (lift.shape ▸ inside)]
    have own : (us 0).read q = (us 0).get q := Tensor.read_self (lift.shape ▸ inside)
    rw [change, (moves q inside).2]
    refine Eq.trans ?_ (Fin.sum_univ_one _).symm
    rw [entry_ofFn inside, (each q inside).2.2, own, entry, mul_assoc]

end Derivatives

end Operator

/-! ### The operators -/

namespace Elementwise

variable {α β F : Type} [Element α] [Element β] [Field F] {type : StorageType}
variable {ρ : Element.Reading α F type} {δ : Element.Reading β F[ε] type}

/-- Arithmetic is differentiated exactly: in a field, for all extents that combine and for divisors
that are not zero, the forward step makes of directions of the inputs the direction of the output,
and each input is given, in its extents, what its direction is to be multiplied with. -/
theorem differentiates (exact : ρ.Arithmetic) (exact' : δ.Arithmetic) (divides : ρ.Divides)
    (divides' : δ.Divides) (f : Elementwise)
    {ts : List (Tensor α)} {signatures : List Signature} {s : Signature} {g : Tensor α}
    (takes : ts.length = f.arity)
    (inferred : (f.operator : Operator α).infer signatures = .ok s)
    (shapes : ts.map Tensor.shape = signatures.map fun a => a.shape.extents)
    (extents : g.shape = s.shape.extents) (holds : ∀ t ∈ ts, ρ.Holds t) (gradient : ρ.Holds g)
    (constants : ∀ c ∈ f.constants, ρ.Carries δ (Element.real c) (Element.real c) ∧
      (δ.val (Element.real c)).snd = 0)
    (divisors : ∀ a b, f = .div → ts = [a, b] → ∀ p ∈ positions b.shape, ρ.entry b p ≠ 0) :
    ρ.Differentiates δ f.operator f.operator s.shape.extents ts g := by
  have binary {h : Joint} (arithmetic : h.IsArithmetic) (takes : ts.length = 2)
      (inferred : Operator.jointRule h signatures = .ok s)
      (divisors : ∀ a b, h = .div → ts = [a, b] → ∀ p ∈ positions b.shape, ρ.entry b p ≠ 0) :
      ρ.Differentiates δ (.joint h) (.joint h) s.shape.extents ts g := by
    obtain ⟨a, b, rfl⟩ := List.length_eq_two.mp takes
    have joined := Operator.jointRule_eq_ok inferred
    rw [← shapes] at joined
    exact Operator.joint_differentiates exact exact' divides divides' arithmetic s.shape.positive
      joined extents (holds a (by simp)) (holds b (by simp)) gradient
      fun quotient => divisors a b quotient rfl
  have single {h : Unary} (arithmetic : h.IsArithmetic) (takes : ts.length = 1)
      (inferred : (Operator.unary h : Operator α).infer signatures = .ok s)
      (constants : ∀ c ∈ h.constants, ρ.Carries δ (Element.real c) (Element.real c) ∧
        (δ.val (Element.real c)).snd = 0) :
      ρ.Differentiates δ (.unary h) (.unary h) s.shape.extents ts g := by
    obtain ⟨a, rfl⟩ := List.length_eq_one_iff.mp takes
    obtain ⟨given, only, inferred⟩ := bind_eq_ok.mp inferred
    obtain rfl := Operator.only_eq_ok only
    have same : s.shape.extents = a.shape := by
      rw [Operator.unaryRule_eq_ok inferred]
      exact (List.cons.inj shapes).1.symm
    rw [same] at extents ⊢
    exact Operator.unary_differentiates exact exact' arithmetic (same ▸ s.shape.positive) extents
      (holds a (by simp)) gradient constants
  cases f with
  | plus => exact binary (.inl rfl) takes inferred nofun
  | minus => exact binary (.inr (.inl rfl)) takes inferred nofun
  | mult => exact binary (.inr (.inr (.inl rfl))) takes inferred nofun
  | div => exact binary (.inr (.inr (.inr rfl))) takes inferred fun a b _ => divisors a b rfl
  | neg => exact single trivial takes inferred constants
  | square => exact single trivial takes inferred constants
  | addScalar c => exact single trivial takes inferred constants
  | mulScalar c => exact single trivial takes inferred constants

end Elementwise

namespace Sample

open Element.Reading

def stave : Signature := ⟨⟨[4, 1], by decide⟩, .float64⟩

def bar : Signature := ⟨⟨[5], by decide⟩, .float64⟩

def score : Signature := ⟨⟨[4, 5], by decide⟩, .float64⟩

/-- Four rational numbers below each other divided by five beside each other, both broadcast. -/
theorem quotients_differentiated :
    (Elementwise.div.operator : Operator ℚ).infer [stave, bar] = .ok score ∧
    ((Element.rationals .float64).Arithmetic ∧ (Element.infinitesimals .float64).Arithmetic) ∧
    ((Element.rationals .float64).Divides ∧ (Element.infinitesimals .float64).Divides) ∧
    (∀ p ∈ positions [5], (Element.rationals .float64).entry (.full [5] (2 : ℚ)) p ≠ 0) ∧
    (Element.rationals .float64).Differentiates (Element.infinitesimals .float64)
      Elementwise.div.operator Elementwise.div.operator [4, 5]
      [.full [4, 1] (5 : ℚ), .full [5] (2 : ℚ)] (.full [4, 5] (7 : ℚ)) := by
  have inferred : (Elementwise.div.operator : Operator ℚ).infer [stave, bar] = .ok score := rfl
  have exact := Element.rationals_arithmetic .float64
  have exact' := Element.infinitesimals_arithmetic .float64
  have divisors : ∀ p ∈ positions [5],
      (Element.rationals .float64).entry (.full [5] (2 : ℚ)) p ≠ 0 := by
    intro p inside
    rw [entry, Tensor.get_full inside]
    exact two_ne_zero
  have divides := Element.rationals_divides .float64
  have divides' := Element.infinitesimals_divides .float64
  refine ⟨inferred, ⟨exact, exact'⟩, ⟨divides, divides'⟩, divisors, ?_⟩
  refine Elementwise.differentiates exact exact' divides divides' .div rfl inferred rfl rfl
    (fun _ _ _ _ => trivial) (fun _ _ => trivial) (fun c mem => by cases mem) ?_
  intro a b _ same
  cases same
  exact divisors

end Sample

end ReverseMode
