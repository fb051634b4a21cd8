import ReverseMode.Proofs.Denotation
import ReverseMode.Proofs.Fractions
import ReverseMode.Proofs.IntegerArrays

/-!
Integer arithmetic of expressions.

A sum, a difference or a product of two nodes of integers is exact wherever it fits the type. A
number beside a node is folded into an operator of one input instead, and a matrix product is scaled
by a number: both go through doubles, which keep 53 digits. So they are exact for 32 bits, and for
64 bits where all numbers that take part are doubles.
-/

namespace ReverseMode

open scoped Element Scalar

open Number (Whole rounded)

/-- The operations on integers that operators of two inputs carry out. -/
def Joint.exact? : Joint → Option Scalar.Binary
  | .plus => some Scalar.addition
  | .minus => some Scalar.subtraction
  | .mult => some Scalar.multiplication
  | _ => none

/-! ### Nodes of integers -/

namespace Node

/-- A node of integers stands for an array of them. -/
structure Integral (leaf : Nat → Option (Tensor Scalar)) (n : Node Scalar) (u : IntegerType)
    (x : Tensor Int) : Prop where
  type : n.type.storage = .int u
  value : n.denote leaf = some (x.stored u)
  extents : x.shape = n.shape.extents
  fits : ∀ j ∈ x.toList, u.fits j = true

namespace Integral

variable {leaf : Nat → Option (Tensor Scalar)} {n m : Node Scalar} {u v w : IntegerType}
  {x y z : Tensor Int} {t : Stamp}

/-- An application whose operator answers is a node of integers. -/
theorem apply {op : Operator Scalar} {inputs : List (Node Scalar)} {ts : List (Tensor Scalar)}
    (values : Yields (denote leaf) inputs ts) (type : t.type.storage = .int w)
    (extents : z.shape = t.shape.extents) (fits : ∀ j ∈ z.toList, w.fits j = true)
    (owned : op.isView = false) (made : op.forward (.int w) z.shape ts = .ok (z.stored w)) :
    (Node.apply t op inputs).Integral leaf w z where
  type := type
  value := by
    refine denote_apply_eq_some.mpr ⟨ts, values, ?_⟩
    rw [Operator.result, owned, type, ← extents]
    exact made
  extents := extents
  fits := fits

/-- A function of every element. -/
theorem unary {f : Unary} {r : Int → Int} (is : n.Integral leaf u x) (same : t.shape = n.shape)
    (type : t.type = n.type)
    (each : ∀ j, u.fits j = true → (f.value (Scalar.int u j)).refusal? = none ∧
      (f.value (Scalar.int u j)).store (.int u) = .int u (r j) ∧ u.fits (r j) = true) :
    (Node.apply t (.unary f) [n]).Integral leaf u (x.map r) := by
  have values : Yields (denote leaf) [n] [x.stored u] := by simp [Yields, is.value]
  refine apply values (type ▸ is.type) (same ▸ is.extents) ?_ rfl ?_
  · intro k mem
    rw [Tensor.toList_map] at mem
    obtain ⟨j, inside, rfl⟩ := List.mem_map.mp mem
    exact (each j (is.fits j inside)).2.2
  · refine Tensor.assign_made ?_
    intro j inside
    obtain ⟨fine, stored, _⟩ := each j (is.fits j inside)
    exact ⟨fine, stored⟩

/-- A double that is an integer, added to every element. -/
theorem addScalar {c : Float} {k : Int} (is : n.Integral leaf u x) (same : t.shape = n.shape)
    (type : t.type = n.type) (whole : Whole c k) :
    (Node.apply t (.unary (.addScalar c)) [n]).Integral leaf u
      (x.map fun j => u.settle (rounded (rounded j + k))) := by
  refine is.unary same type fun _ fits => ⟨rfl, ?_, u.fits_settle _⟩
  have nears := (Scalar.whole_toFloat is.type fits).add whole
  exact congrArg (Scalar.int u) (Scalar.storeFloat_nears is.type nears)

/-- A double that is an integer, times every element. -/
theorem mulScalar {c : Float} {k : Int} (is : n.Integral leaf u x) (same : t.shape = n.shape)
    (type : t.type = n.type) (whole : Whole c k) :
    (Node.apply t (.unary (.mulScalar c)) [n]).Integral leaf u
      (x.map fun j => u.settle (rounded (rounded j * k))) := by
  refine is.unary same type fun _ fits => ⟨rfl, ?_, u.fits_settle _⟩
  have nears := (Scalar.whole_toFloat is.type fits).mul whole
  exact congrArg (Scalar.int u) (Scalar.storeFloat_nears is.type nears)

/-- The negation of every element, wrapped. -/
theorem neg (is : n.Integral leaf u x) (same : t.shape = n.shape) (type : t.type = n.type) :
    (Node.apply t (.unary .neg) [n]).Integral leaf u (x.map fun j => u.wrap (-j)) :=
  is.unary same type fun _ _ => ⟨rfl, congrArg (Scalar.int u) (u.wrap_wrap _), u.fits_wrap _⟩

theorem fits_map {r : Int → Int} (z : Tensor Int) (fits : ∀ j, w.fits (r j) = true) :
    ∀ k ∈ (z.map r).toList, w.fits k = true := by
  intro k mem
  rw [Tensor.toList_map] at mem
  obtain ⟨j, _, rfl⟩ := List.mem_map.mp mem
  exact fits j

/-- Sums, differences and products of two nodes are those of the integers, wrapped. -/
theorem joint {f : Joint} {b : Scalar.Binary} (does : f.exact? = some b)
    (first : n.Integral leaf u x) (second : m.Integral leaf v y)
    (inferred : (Operator.joint f : Operator Scalar).infer [n.signature, m.signature] =
      .ok ⟨t.shape, t.type⟩) :
    ∃ w z, t.type.storage = .int w ∧ x.combine b.onInt y = .ok z ∧
      (Node.apply t (.joint f) [n, m]).Integral leaf w (z.map w.wrap) := by
  obtain ⟨joined, common⟩ := Operator.broadcastRule_eq_ok (Operator.broadcastRule_of_joint inferred)
  obtain ⟨w, type, join⟩ := ElementType.common_int common first.type second.type
  have joined : broadcast? [x.shape, y.shape] = some t.shape.extents := by
    rw [first.extents, second.extents]
    exact joined
  obtain ⟨z, combined, extents⟩ : ∃ z, x.combine b.onInt y = .ok z ∧ z.shape = t.shape.extents := by
    unfold Tensor.combine
    rw [joined]
    exact ⟨_, rfl, rfl⟩
  have values : Yields (denote leaf) [n, m] [x.stored u, y.stored v] := by
    simp [Yields, first.value, second.value]
  refine ⟨w, z, type, combined, apply values type extents (fits_map z w.fits_wrap) rfl ?_⟩
  have modular : b.Modular := by
    cases f with
    | plus => cases does; exact Scalar.modular_addition
    | minus => cases does; exact Scalar.modular_subtraction
    | mult => cases does; exact Scalar.modular_multiplication
    | _ => cases does
  have applies (j k : Int) :
      f.value [.int u j, .int v k] = b.apply (.int u j) (.int v k) := by
    cases f <;> cases does <;> rfl
  have made : (Operator.joint f : Operator Scalar).value z.shape.length [x.stored u, y.stored v] =
      .ok ((z.map w.wrap).stored w) := by
    have answer := Tensor.combine_stored (x := x) (y := y) modular join
      (fun p q => f.value [p, q]) applies
    rw [combined] at answer
    cases f <;> cases does <;> exact answer
  change ((Operator.joint f : Operator Scalar).value z.shape.length [x.stored u, y.stored v] >>=
    fun r => r.assign (.int w) z.shape) = _
  rw [made]
  exact Tensor.assign_wrapped z w

/-- Products of matrices are those of the integers, wrapped, and then scaled as doubles. -/
theorem product {transA transB batched : Bool} (first : n.Integral leaf u x)
    (second : m.Integral leaf v y)
    (inferred : Operator.productRule transA transB batched n.signature m.signature =
      .ok ⟨t.shape, t.type⟩) :
    ∃ w z, t.type.storage = .int w ∧ (x.operand transA).product (y.operand transB) = .ok z ∧
      (Node.apply t (.matMul transA transB 1.0 batched) [n, m]).Integral leaf w
        (z.map fun j => w.settle (rounded (w.wrap j))) := by
  obtain ⟨left, right, inner, ⟨r, joined, extents⟩, common⟩ := Operator.productRule_eq_ok inferred
  obtain ⟨w, type, join⟩ := ElementType.common_int common first.type second.type
  have left' := Tensor.shape_operand transA (first.extents.trans (matrix_extents left))
  have right' := Tensor.shape_operand transB (second.extents.trans (matrix_extents right))
  have inner : (if transA then backExtent n.shape.extents 1 else backExtent n.shape.extents 0) =
      if transB then backExtent m.shape.extents 0 else backExtent m.shape.extents 1 := inner
  have positive : 0 < if transB then backExtent m.shape.extents 0
      else backExtent m.shape.extents 1 := by
    split <;> exact m.shape.extentBack_pos _
  rw [inner] at left'
  obtain ⟨z, made⟩ : ∃ z, (x.operand transA).product (y.operand transB) = .ok z :=
    ⟨_, Tensor.product_eq left' right' joined⟩
  have shape : z.shape = t.shape.extents := by
    rw [Tensor.product_eq left' right' joined] at made
    cases made
    exact extents.symm
  have products : (do
      (← Operator.operand transA (x.stored u)).product (← Operator.operand transB (y.stored v))) =
        .ok ((z.map w.wrap).stored w) := by
    rw [Tensor.stored, Tensor.operand_map transA (first.extents.trans (matrix_extents left)),
      Tensor.stored, Tensor.operand_map transB (second.extents.trans (matrix_extents right))]
    refine (Tensor.product_stored join left' right' joined positive).trans ?_
    rw [made]
    rfl
  have integers : ∀ s ∈ ((z.map w.wrap).stored w).toList, ∃ j, s = .int w j := by
    intro s mem
    obtain ⟨j, _, rfl⟩ := Tensor.mem_stored mem
    exact ⟨j, rfl⟩
  have scaled (j : Int) : Scalar.storeFloat w ((Scalar.int w (w.wrap j)).toFloat * 1.0) =
      w.settle (rounded (w.wrap j)) := by
    have held := Scalar.whole_toFloat type (w.fits_wrap j)
    have nears := held.mul (y := 1.0) (k := 1) (Number.whole_iff.mpr (by decide +kernel))
    rw [mul_one, Number.Means.rounded_eq held] at nears
    exact Scalar.storeFloat_nears type nears
  have stored : (((z.map w.wrap).stored w).map fun s => Scalar.int w
      (Scalar.storeFloat w (s.toFloat * 1.0))) =
        (z.map fun j => w.settle (rounded (w.wrap j))).stored w := by
    rw [Tensor.stored, Tensor.stored, Tensor.map_map, Tensor.map_map, Tensor.map_map]
    exact Tensor.map_congr fun j _ => congrArg (Scalar.int w) (scaled j)
  have values : Yields (denote leaf) [n, m] [x.stored u, y.stored v] := by
    simp [Yields, first.value, second.value]
  refine ⟨w, z, type, made,
    apply values type shape (fits_map z fun _ => w.fits_settle _) rfl ?_⟩
  exact (Expression.Combination.forward_scaled products integers).trans (congrArg Except.ok stored)

end Integral

end Node

/-! ### Numbers that are integers -/

namespace Argument

/-- A number that is an integer, as a call is given it. -/
inductive Integral : Argument Scalar → Int → Prop
  | int (k : Int) : Integral (.int k) k
  | real {x : Float} {k : Int} (whole : Number.isWhole x = true)
      (value : Number.truncate? x = some k) : Integral (.real x) k

variable {c : Argument Scalar} {k : Int} {x : Float} {e : Fault}

theorem intToReal_eq_ok : intToReal k = .ok x ↔ Number.ofInt? k = some x := by
  unfold intToReal
  cases Number.ofInt? k <;> simp

theorem intToReal_eq_error :
    intToReal k = .error e ↔ Number.ofInt? k = Option.none ∧ e = .plain .overflow := by
  unfold intToReal
  cases Number.ofInt? k <;> simp [eq_comm]

namespace Integral

/-- The double that an integer is read as. -/
theorem whole (is : c.Integral k) (read : c.toReal = .ok x) : Whole x (rounded k) := by
  cases is with
  | int => exact Number.whole_ofInt? (intToReal_eq_ok.mp read)
  | real whole value =>
    cases read
    have means := Number.whole_iff.mpr ⟨whole, value⟩
    rwa [Number.Means.rounded_eq means]

/-- Only integers beyond all doubles cannot be read as one. -/
theorem overflow (is : c.Integral k) (read : c.toReal = .error e) :
    e = .plain .overflow ∧ 2 ^ 64 ≤ k.natAbs := by
  cases is with
  | real => cases read
  | int =>
    obtain ⟨absent, rfl⟩ := intToReal_eq_error.mp read
    refine ⟨rfl, Nat.le_of_not_lt fun small => ?_⟩
    have held := Number.ofInt?_eq_some.mpr ⟨rfl, (Number.whole_ofInt small).isInf⟩
    cases absent.symm.trans held

theorem negated (is : c.Integral k) : c.negated.Integral (-k) := by
  cases is with
  | int => exact .int (-k)
  | real whole value =>
    have means := (Number.whole_iff.mpr ⟨whole, value⟩).neg
    obtain ⟨whole, value⟩ := Number.whole_iff.mp means
    exact .real whole value

/-- A number and its negation are read alike. -/
theorem toReal_negated (is : c.Integral k) :
    (∀ x, c.toReal = .ok x → ∃ y, c.negated.toReal = .ok y) ∧
      ∀ e, c.toReal = .error e → c.negated.toReal = .error e := by
  cases is with
  | real => exact ⟨fun x _ => ⟨_, rfl⟩, fun e read => by cases read⟩
  | int =>
    constructor
    · intro x read
      obtain ⟨y, held⟩ := Number.ofInt?_neg (intToReal_eq_ok.mp read)
      exact ⟨y, intToReal_eq_ok.mpr held⟩
    · intro e read
      obtain ⟨absent, rfl⟩ := intToReal_eq_error.mp read
      refine intToReal_eq_error.mpr ⟨?_, rfl⟩
      cases opposite : Number.ofInt? (-k) with
      | none => rfl
      | some y =>
        obtain ⟨x, held⟩ := Number.ofInt?_neg opposite
        rw [neg_neg] at held
        cases absent.symm.trans held

end Integral

end Argument

/-! ### Calls -/

namespace Expression

open Session (Accepts)

variable {s : Session Scalar} {w : World Scalar} {n : Node Scalar} {c : Argument Scalar} {x : Float}
  {make : Float → Unary}

theorem realOf_ok (read : c.toReal = .ok x) : realOf c s = .ok x s := by
  unfold realOf
  rw [read]
  rfl

theorem realOf_error {e : Fault} (read : c.toReal = .error e) : realOf c s = .error e s := by
  unfold realOf
  rw [read]
  rfl

theorem withReal_ok (read : c.toReal = .ok x) (a : Argument Scalar) :
    withReal make c a s = unary (.unary (make x)) a s :=
  run_bind (realOf_ok read)

theorem withReal_error {e : Fault} (read : c.toReal = .error e) (a : Argument Scalar) :
    withReal make c a s = .error e s :=
  raise_bind.mpr (.inl (realOf_error read))

/-- The functions that fold a number beside a node into an operator of one input. -/
inductive Folding where
  | add | sub | mul
deriving DecidableEq

namespace Folding

def combination : Folding → Combination Scalar
  | add => .add
  | sub => .sub
  | mul => .mul

def operation : Folding → Scalar.Binary
  | add => Scalar.addition
  | sub => Scalar.subtraction
  | mul => Scalar.multiplication

/-- A call of the function with two operands in this order, or in the other one. -/
def call (f : Folding) (exchanged : Bool) (a b : Argument Scalar) :
    SessionM Scalar (Argument Scalar) :=
  if exchanged then f.combination.call b a else f.combination.call a b

/-- What the function makes of two integers in this order, or in the other one. -/
def exact (f : Folding) (exchanged : Bool) (j k : Int) : Int :=
  if exchanged then f.operation.onInt k j else f.operation.onInt j k

/-- What becomes of an element and a number: both are doubles, and so is the result. A number minus
an element is added to the negated element. -/
def folded (u : IntegerType) : Folding → Bool → Int → Int → Int
  | add, _, j, k => rounded (rounded j + rounded k)
  | sub, false, j, k => rounded (rounded j + rounded (-k))
  | sub, true, j, k => rounded (rounded (u.wrap (-j)) + rounded k)
  | mul, _, j, k => rounded (rounded j * rounded k)

end Folding

/-! ### Numbers beside nodes -/

/-- A call answers a node, which holds these integers for the ones of another node. -/
def Answers (call : SessionM Scalar (Argument Scalar)) (s : Session Scalar) (n : Node Scalar)
    (u : IntegerType) (r : Int → Int) : Prop :=
  ∃ p s', call s = .ok (.node p) s' ∧
    ∀ leaf x, n.Integral leaf u x → p.Integral leaf u (x.map r)

/-- An operator that is alike up to its parameter is made of another number. -/
theorem made_of_blank {p : Operator Scalar} (makes : make = .addScalar ∨ make = .mulScalar)
    (blank : (Operator.unary (make x) : Operator Scalar).blank = p.blank) :
    ∃ y, p = .unary (make y) := by
  cases p with
  | unary f =>
    rcases makes with rfl | rfl <;> cases f <;> first | exact ⟨_, rfl⟩ | cases blank
  | _ => rcases makes with rfl | rfl <;> cases blank

/-- A double that a node accepts, as it accepts the other zero for a zero. The operator that is
applied has the double for its parameter, or the other zero. -/
theorem unary_alike (makes : make = .addScalar ∨ make = .mulScalar) (accepts : s.Accepts w n)
    (infers : ∀ y, x = y ∨ Zeros.Opposite x y →
      (Operator.unary (make y) : Operator Scalar).infer [n.signature] = .ok n.signature) :
    ∃ t y s' w',
      unary (.unary (make x)) (.node n) s = .ok (.node (.apply t (.unary (make y)) [n])) s' ∧
        t.shape = n.shape ∧ t.type = n.type ∧ (x = y ∨ Zeros.Opposite x y) ∧
        (w.graph.found? (.unary (make x)) [n] = none → x = y) ∧
        s'.Accepts w' (.apply t (.unary (make y)) [n]) := by
  have self : ∀ m ∈ [n], s.Accepts w m := by simpa using accepts
  obtain ⟨a, s', ran, fresh⟩ := applyOn_answers _ [n] accepts self (infers x (.inl rfl))
  obtain ⟨t, p, rfl, answered, alike, w', _, new⟩ := applyOn_alike [n] rfl accepts self ran
  obtain ⟨y, rfl, same⟩ : ∃ y, p = .unary (make y) ∧ (x = y ∨ Zeros.Opposite x y) := by
    rcases alike with rfl | ⟨memoize, blank, parameters⟩
    · exact ⟨x, rfl, .inl rfl⟩
    obtain ⟨y, rfl⟩ := made_of_blank makes blank
    have listed (z : Float) :
        (Operator.unary (make z) : Operator Scalar).parameters = [.real z] := by
      rcases makes with rfl | rfl <;> rfl
    refine ⟨y, rfl, ?_⟩
    rcases parameters with same | ⟨pair, mem, x', y', first, second, opposite⟩
    · rw [listed, listed] at same
      exact .inl (Parameter.real.inj (List.cons.inj same).1)
    · rw [listed, listed] at mem
      obtain rfl := List.mem_singleton.mp mem
      cases first
      cases second
      exact .inr opposite
  have signature := Except.ok.inj (answered.symm.trans (infers y same))
  refine ⟨t, y, s', w', ran, congrArg Signature.shape signature,
    congrArg Signature.type signature, same, fun none => ?_, new⟩
  obtain ⟨_, built⟩ := fresh none
  rcases makes with rfl | rfl <;> cases built <;> rfl

/-- A double that is an integer is accepted beside any node. -/
theorem unary_answers {k : Int} (makes : make = .addScalar ∨ make = .mulScalar)
    (accepts : s.Accepts w n) (whole : Whole x k) :
    ∃ t y s',
      unary (.unary (make x)) (.node n) s = .ok (.node (.apply t (.unary (make y)) [n])) s' ∧
        t.shape = n.shape ∧ t.type = n.type ∧ Whole y k := by
  have alike {y : Float} (same : x = y ∨ Zeros.Opposite x y) : Whole y k := by
    rcases same with rfl | opposite
    · exact whole
    · exact whole.opposite opposite
  have infers : ∀ y, x = y ∨ Zeros.Opposite x y →
      (Operator.unary (make y) : Operator Scalar).infer [n.signature] = .ok n.signature := by
    intro y same
    have whole := (Number.whole_iff.mp (alike same)).1
    rcases makes with rfl | rfl <;> exact if_pos (by simp [whole])
  obtain ⟨t, y, s', _, ran, shape, type, same, _, _⟩ := unary_alike makes accepts infers
  exact ⟨t, y, s', ran, shape, type, alike same⟩

theorem answers_addScalar {k : Int} (accepts : s.Accepts w n) (whole : Whole x k)
    (u : IntegerType) : Answers (unary (.unary (.addScalar x)) (.node n)) s n u fun j =>
      u.settle (rounded (rounded j + k)) := by
  obtain ⟨t, y, s', ran, shape, type, whole⟩ := unary_answers (.inl rfl) accepts whole
  exact ⟨_, s', ran, fun _ _ integers => integers.addScalar shape type whole⟩

theorem answers_mulScalar {k : Int} (accepts : s.Accepts w n) (whole : Whole x k)
    (u : IntegerType) : Answers (unary (.unary (.mulScalar x)) (.node n)) s n u fun j =>
      u.settle (rounded (rounded j * k)) := by
  obtain ⟨t, y, s', ran, shape, type, whole⟩ := unary_answers (.inr rfl) accepts whole
  exact ⟨_, s', ran, fun _ _ integers => integers.mulScalar shape type whole⟩

namespace Folding

section Calls

variable {k : Int} (is : c.Integral k)

include is

theorem call_add (exchanged : Bool) :
    add.call exchanged (.node n) c = withReal .addScalar c (.node n) := by
  cases is <;> cases exchanged <;> rfl

theorem call_mul (exchanged : Bool) :
    mul.call exchanged (.node n) c = withReal .mulScalar c (.node n) := by
  cases is <;> cases exchanged <;> rfl

theorem call_sub : sub.call false (.node n) c = withReal .addScalar c.negated (.node n) := by
  cases is <;> rfl

theorem call_sub_exchanged : sub.call true (.node n) c = (do
    let x ← realOf c
    unary (.unary (.addScalar x)) (← neg (.node n))) := by
  cases is <;> rfl

/-- A number that is an integer and the elements of a node become doubles. -/
theorem answers_folded (f : Folding) (exchanged : Bool) (accepts : s.Accepts w n)
    (read : c.toReal = .ok x) (u : IntegerType) :
    Answers (f.call exchanged (.node n) c) s n u fun j => u.settle (f.folded u exchanged j k) := by
  cases f with
  | add =>
    obtain ⟨p, s', ran, integers⟩ := answers_addScalar accepts (is.whole read) u
    exact ⟨p, s', by rw [call_add is, withReal_ok read, ran], integers⟩
  | mul =>
    obtain ⟨p, s', ran, integers⟩ := answers_mulScalar accepts (is.whole read) u
    exact ⟨p, s', by rw [call_mul is, withReal_ok read, ran], integers⟩
  | sub =>
    cases exchanged with
    | false =>
      obtain ⟨y, read⟩ := is.toReal_negated.1 x read
      obtain ⟨p, s', ran, integers⟩ := answers_addScalar accepts (is.negated.whole read) u
      exact ⟨p, s', by rw [call_sub is, withReal_ok read, ran], integers⟩
    | true =>
      obtain ⟨t, s₁, w₁, negated, shape, type, new⟩ := Combination.neg_accepted accepts
      obtain ⟨p, s', ran, sum⟩ := answers_addScalar new (is.whole read) u
      refine ⟨p, s', ?_, ?_⟩
      · rw [call_sub_exchanged is, run_bind (realOf_ok read), run_bind negated, ran]
      · intro leaf a integers
        have added := sum leaf _ (integers.neg shape type)
        rwa [Tensor.map_map] at added

/-- A number beyond all doubles is refused before anything changes. -/
theorem call_refused {e : Fault} (f : Folding) (exchanged : Bool) (read : c.toReal = .error e) :
    f.call exchanged (.node n) c s = .error e s := by
  cases f with
  | add => rw [call_add is, withReal_error read]
  | mul => rw [call_mul is, withReal_error read]
  | sub =>
    cases exchanged with
    | false => rw [call_sub is, withReal_error (is.toReal_negated.2 e read)]
    | true =>
      rw [call_sub_exchanged is]
      exact raise_bind.mpr (.inl (realOf_error read))

end Calls

/-! ### Nodes beside nodes -/

def joint : Folding → Joint
  | add => .plus
  | sub => .minus
  | mul => .mult

/-- The integers of two nodes are combined without doubles. -/
theorem answers_joint {a b : Node Scalar} {t : Signature} (f : Folding) (first : s.Accepts w a)
    (second : s.Accepts w b) (rule : Operator.broadcastRule [a.signature, b.signature] = .ok t) :
    ∃ p s', f.combination.call (.node a) (.node b) s = .ok (.node p) s' ∧ p.type = t.type ∧
      ∀ leaf u v x y, a.Integral leaf u x → b.Integral leaf v y →
        ∃ w z, x.combine f.operation.onInt y = .ok z ∧ p.Integral leaf w (z.map w.wrap) := by
  have others : ∀ m ∈ [a, b], s.Accepts w m := by simpa using ⟨first, second⟩
  have inferred : (Operator.joint f.joint : Operator Scalar).infer [a.signature, b.signature] =
      .ok t := by
    cases f <;> exact congrArg (fun e => e >>= fun s => pure s) rule
  have call : f.combination.call (.node a) (.node b) =
      applyOn a (.joint f.joint) [.node a, .node b] := by
    cases f <;> rfl
  have does : f.joint.exact? = some f.operation := by cases f <;> rfl
  obtain ⟨p, s', ran, _⟩ := applyOn_answers _ [a, b] first others inferred
  obtain ⟨st, rfl, inferred', _⟩ := applyOn_accepted [a, b] rfl rfl
    (fun p ⟨_, mem, _⟩ => by cases f <;> cases mem) first others ran
  refine ⟨_, s', call ▸ ran, ?_, ?_⟩
  · exact congrArg Signature.type (Except.ok.inj (inferred'.symm.trans inferred))
  · intro leaf u v x y integers integers'
    obtain ⟨w, z, _, combined, made⟩ := integers.joint does integers' inferred'
    exact ⟨w, z, combined, made⟩

/-- A node beside a constant without axes. -/
theorem answers_constant {m : Node Scalar} (f : Folding) (exchanged : Bool)
    (accepts : s.Accepts w n) (other : s.Accepts w m) (single : m.signature = ⟨.scalar, n.type⟩) :
    ∃ p s', f.call exchanged (.node n) (.node m) s = .ok (.node p) s' ∧
      ∀ leaf u x k, n.Integral leaf u x → m.Integral leaf u (.scalar k) →
        p.Integral leaf u (x.map fun j => u.wrap (f.exact exchanged j k)) := by
  obtain ⟨right, left⟩ := broadcastRule_scalar n.signature
  obtain ⟨p, s', ran, type, made⟩ : ∃ p s',
      f.call exchanged (.node n) (.node m) s = .ok (.node p) s' ∧ p.type = n.type ∧
        ∀ leaf u x k, n.Integral leaf u x → m.Integral leaf u (.scalar k) →
          ∃ v, p.Integral leaf v ((x.map fun j => f.exact exchanged j k).map v.wrap) := by
    cases exchanged with
    | false =>
      obtain ⟨p, s', ran, type, made⟩ := f.answers_joint accepts other (single ▸ right)
      refine ⟨p, s', ran, type, ?_⟩
      intro leaf u x k integers number
      obtain ⟨v, z, combined, values⟩ := made leaf u u x _ integers number
      rw [(Tensor.combine_number k x).2] at combined
      cases combined
      exact ⟨v, values⟩
    | true =>
      obtain ⟨p, s', ran, type, made⟩ := f.answers_joint other accepts (single ▸ left)
      refine ⟨p, s', ran, type, ?_⟩
      intro leaf u x k integers number
      obtain ⟨v, z, combined, values⟩ := made leaf u u _ x number integers
      rw [(Tensor.combine_number k x).1] at combined
      cases combined
      exact ⟨v, values⟩
  refine ⟨p, s', ran, ?_⟩
  intro leaf u x k integers number
  obtain ⟨v, values⟩ := made leaf u x k integers number
  have storage : StorageType.int u = .int v := by rw [← values.type, type, integers.type]
  cases storage
  rwa [Tensor.map_map] at values

end Folding

/-! ### Matrix products -/

/-- A matrix product of two nodes by the name of its function, with the default factor. -/
def matrixProduct (batched transA transB : Bool) (m n : Node Scalar) :
    SessionM Scalar (Argument Scalar) :=
  Expression.call (if batched then "bdot" else "dot")
    ⟨[.node m, .node n, .bool transA, .bool transB], []⟩

theorem matrixProduct_eq (batched transA transB : Bool) (m n : Node Scalar) :
    matrixProduct batched transA transB m n =
      applyOn m (.matMul transA transB 1.0 batched) [.node m, .node n] := by
  cases batched <;> rfl

/-- Matrices of integers that can be multiplied have a product. -/
theorem answers_product {m : Node Scalar} {u v : IntegerType} {batched transA transB : Bool}
    (accepts : s.Accepts w n) (other : s.Accepts w m) (left : n.type.storage = .int u)
    (right : m.type.storage = .int v)
    (shapes : n.shape.Multipliable transA transB batched m.shape) :
    ∃ p s', matrixProduct batched transA transB n m s = .ok (.node p) s' ∧
      ∀ leaf x y, n.Integral leaf u x → m.Integral leaf v y →
        ∃ w z, (x.operand transA).product (y.operand transB) = .ok z ∧
          p.Integral leaf w (z.map fun j => w.settle (rounded (w.wrap j))) := by
  have others : ∀ p ∈ [n, m], s.Accepts w p := by simpa using ⟨accepts, other⟩
  obtain ⟨type, common⟩ := ElementType.common_of_int left right
  obtain ⟨shape, inferred⟩ :=
    Operator.productRule_of (a := n.signature) (b := m.signature) shapes common
  have inferred : (Operator.matMul transA transB 1.0 batched : Operator Scalar).infer
      [n.signature, m.signature] = .ok ⟨shape, type⟩ := inferred
  obtain ⟨p, s', ran, _⟩ := applyOn_answers _ [n, m] accepts others inferred
  have one : ¬((1.0 : Float) = 0.0 ∨ (1.0 : Float) = -0.0) := by
    decide +kernel
  obtain ⟨st, rfl, inferred', _⟩ := applyOn_accepted [n, m] rfl rfl
    (Combination.matMul_zerosDiffer one) accepts others ran
  refine ⟨_, s', (matrixProduct_eq batched transA transB n m) ▸ ran, ?_⟩
  intro leaf x y integers integers'
  obtain ⟨w, z, _, made, values⟩ := integers.product integers' inferred'
  exact ⟨w, z, made, values⟩

/-! ### Integers that are doubles -/

theorem rounded_of_int32 {i : Int} (fits : IntegerType.int32.fits i = true) : rounded i = i := by
  have range := IntegerType.fits_int32.mp fits
  exact Number.rounded_short (by omega)

/-- What is too large once it is rounded becomes the least integer of the type. That one is a
double, so it does not pass for what has been rounded. -/
theorem settle_rounded {type : ElementType} {u : IntegerType} {i : Int}
    (is : type.storage = .int u) (fits : u.fits i = true) :
    u.settle (rounded i) = i ↔ rounded i = i := by
  by_cases small : u.fits (rounded i) = true
  · rw [IntegerType.settle_of_fits small]
  have apart : rounded i ≠ i := fun same => small (same.symm ▸ fits)
  refine iff_of_false (fun settled => ?_) apart
  rw [IntegerType.settle, if_neg small] at settled
  rcases ElementType.storage_int is with rfl | rfl
  · exact apart (rounded_of_int32 fits)
  · have least :
        IntegerType.int64.wrap (Int.pow 2 (IntegerType.int64.width.bits - 1)) = -2 ^ 63 := by
      decide
    rw [least] at settled
    refine apart (settled ▸ ?_)
    have power : Number.roundedNat (1 * 2 ^ 63) = 1 * 2 ^ 63 :=
      Number.roundedNat_short (by omega) 63
    have whole := Number.rounded_natCast (1 * 2 ^ 63)
    rw [power] at whole
    rw [Number.rounded_neg]
    exact congrArg Neg.neg whole

namespace Folding

variable {u : IntegerType} {j k : Int}

/-- Nothing but the result is rounded where an element and a number are doubles. A product with
zero does not depend on the number. -/
theorem folded_eq (f : Folding) (exchanged : Bool)
    (negation : f = .sub → exchanged = true → u.fits (-j) = true) (element : rounded j = j)
    (number : rounded k = k ∨ f = .mul ∧ j = 0) :
    f.folded u exchanged j k = rounded (f.exact exchanged j k) := by
  cases f with
  | add =>
    have number := number.resolve_right fun ⟨same, _⟩ => by cases same
    have sum : rounded j + rounded k = j + k := by rw [element, number]
    cases exchanged with
    | false => exact congrArg rounded sum
    | true => exact congrArg rounded (sum.trans (add_comm j k))
  | sub =>
    have number := number.resolve_right fun ⟨same, _⟩ => by cases same
    cases exchanged with
    | false =>
      have difference : rounded j + rounded (-k) = j - k := by
        rw [Number.rounded_neg, element, number, sub_eq_add_neg]
      exact congrArg rounded difference
    | true =>
      have difference : rounded (u.wrap (-j)) + rounded k = k - j := by
        rw [IntegerType.wrap_of_fits (negation rfl rfl), Number.rounded_neg, element, number,
          neg_add_eq_sub]
      exact congrArg rounded difference
  | mul =>
    have product : rounded j * rounded k = j * k := by
      rcases number with number | ⟨_, rfl⟩
      · rw [element, number]
      · rw [element, zero_mul, zero_mul]
    cases exchanged with
    | false => exact congrArg rounded product
    | true => exact congrArg rounded (product.trans (mul_comm j k))

/-- Beside an element of 32 bits a number is a double whose result fits. -/
theorem number_of_int32 (f : Folding) (exchanged : Bool) (held : IntegerType.int32.fits j = true)
    (fits : IntegerType.int32.fits (f.exact exchanged j k) = true) :
    rounded k = k ∨ f = .mul ∧ j = 0 := by
  have range := IntegerType.fits_int32.mp held
  have range' := IntegerType.fits_int32.mp fits
  cases f with
  | add =>
    have sum : add.exact exchanged j k = j + k := by
      cases exchanged with
      | false => rfl
      | true => exact add_comm k j
    rw [sum] at range'
    exact .inl (Number.rounded_short (by omega))
  | sub =>
    have difference : sub.exact exchanged j k = if exchanged then k - j else j - k := rfl
    rw [difference] at range'
    refine .inl (Number.rounded_short ?_)
    split at range' <;> omega
  | mul =>
    by_cases zero : j = 0
    · exact .inr ⟨rfl, zero⟩
    have product : (mul.exact exchanged j k).natAbs = j.natAbs * k.natAbs := by
      rw [← Int.natAbs_mul]
      cases exchanged with
      | false => rfl
      | true => exact congrArg Int.natAbs (mul_comm k j)
    have least : 1 * k.natAbs ≤ j.natAbs * k.natAbs :=
      Nat.mul_le_mul_right _ (Int.natAbs_pos.mpr zero)
    exact .inl (Number.rounded_short (by omega))

/-- A number that is folded gives the exact result for 32 bits, and for 64 bits where the numbers
that take part are doubles. -/
theorem settle_folded (f : Folding) (exchanged : Bool) (held : u.fits j = true)
    (fits : u.fits (f.exact exchanged j k) = true)
    (negation : f = .sub → exchanged = true → u.fits (-j) = true)
    (doubles : u = .int32 ∨ rounded j = j ∧ rounded k = k ∧
      rounded (f.exact exchanged j k) = f.exact exchanged j k) :
    u.settle (f.folded u exchanged j k) = f.exact exchanged j k := by
  obtain ⟨element, number, result⟩ : rounded j = j ∧ (rounded k = k ∨ f = .mul ∧ j = 0) ∧
      rounded (f.exact exchanged j k) = f.exact exchanged j k := by
    rcases doubles with rfl | ⟨element, number, result⟩
    · exact ⟨rounded_of_int32 held, number_of_int32 f exchanged held fits, rounded_of_int32 fits⟩
    · exact ⟨element, .inl number, result⟩
  rw [f.folded_eq exchanged negation element number, result, IntegerType.settle_of_fits fits]

end Folding

/-- What becomes of integers. A number beside a node gives the exact results, as a constant in its
place does, for 32 bits and where the numbers that take part are doubles; otherwise it gives the
results of doubles. A matrix product is the sum of products that fits the type, rounded to a double
once. -/
theorem integer_arithmetic {u : IntegerType} (accepts : s.Accepts w n)
    (integer : n.type.storage = .int u) :
    (∀ (f : Folding) exchanged c k, c.Integral k →
      (∀ x, c.toReal = .ok x → Answers (f.call exchanged (.node n) c) s n u fun j =>
        u.settle (f.folded u exchanged j k)) ∧
      ∀ e, c.toReal = .error e → f.call exchanged (.node n) c s = .error e s ∧
        e = .plain .overflow ∧ 2 ^ 64 ≤ k.natAbs) ∧
    (∀ (f : Folding) exchanged j k, u.fits j = true → u.fits (f.exact exchanged j k) = true →
      (f = .sub → exchanged = true → u.fits (-j) = true) →
      (u = .int32 ∨ rounded j = j ∧ rounded k = k ∧
        rounded (f.exact exchanged j k) = f.exact exchanged j k) →
      u.settle (f.folded u exchanged j k) = f.exact exchanged j k) ∧
    (∀ (f : Folding) exchanged m, s.Accepts w m → m.signature = ⟨.scalar, n.type⟩ →
      ∃ p s', f.call exchanged (.node n) (.node m) s = .ok (.node p) s' ∧
        ∀ leaf x k, n.Integral leaf u x → m.Integral leaf u (.scalar k) →
          p.Integral leaf u (x.map fun j => u.wrap (f.exact exchanged j k))) ∧
    ∀ batched transA transB m v, s.Accepts w m → m.type.storage = .int v →
      n.shape.Multipliable transA transB batched m.shape →
      ∃ p s', matrixProduct batched transA transB n m s = .ok (.node p) s' ∧
        ∀ leaf x y, n.Integral leaf u x → m.Integral leaf v y →
          ∃ t z, (x.operand transA).product (y.operand transB) = .ok z ∧
            p.Integral leaf t (z.map fun i => t.settle (rounded (t.wrap i))) ∧
            ∀ i, t.fits i = true → (t.settle (rounded (t.wrap i)) = i ↔ rounded i = i) ∧
              (t = .int32 → rounded i = i) := by
  refine ⟨?_, ?_, ?_, ?_⟩
  · intro f exchanged c k is
    constructor
    · intro x read
      exact f.answers_folded is exchanged accepts read u
    · intro e read
      exact ⟨f.call_refused is exchanged read, is.overflow read⟩
  · intro f exchanged j k held fits negation doubles
    exact f.settle_folded exchanged held fits negation doubles
  · intro f exchanged m other single
    obtain ⟨p, s', ran, values⟩ := f.answers_constant exchanged accepts other single
    exact ⟨p, s', ran, fun leaf => values leaf u⟩
  · intro batched transA transB m v other right shapes
    obtain ⟨p, s', ran, values⟩ := answers_product accepts other integer right shapes
    refine ⟨p, s', ran, ?_⟩
    intro leaf x y integers integers'
    obtain ⟨t, z, made, product⟩ := values leaf x y integers integers'
    refine ⟨t, z, made, product, ?_⟩
    intro i fits
    constructor
    · rw [IntegerType.wrap_of_fits fits]
      exact settle_rounded product.type fits
    · rintro rfl
      exact rounded_of_int32 fits

end Expression

namespace Sample

open Session (onGraph)
open Expression

/-- Five added to a matrix of one is six. -/
theorem five_beside_unit : ∃ p s',
    Folding.add.call false (.node unit) (.int 5) counting = .ok (.node p) s' ∧
      p.Integral (fun _ => some (.full [1, 1] (.int .int32 1))) .int32 (.full [1, 1] 6) := by
  obtain ⟨folds, exact, -⟩ := integer_arithmetic (u := .int32) counting_accepts rfl
  obtain ⟨p, s', ran, integers⟩ := (folds .add false _ _ (.int 5)).1 _ rfl
  refine ⟨p, s', ran, ?_⟩
  have ones : unit.Integral (fun _ => some (.full [1, 1] (.int .int32 1))) .int32
      (.full [1, 1] 1) := by
    refine ⟨rfl, ?_, rfl, by decide⟩
    rw [unit, Node.denote, Tensor.stored, Tensor.map_full]
  have six : IntegerType.int32.settle (Folding.add.folded .int32 false 1 5) = 6 :=
    exact .add false 1 5 (by decide) (by decide) (fun is => by cases is) (.inl rfl)
  have sum := integers _ _ ones
  rwa [Tensor.map_full, six] at sum

/-- What a call answers on two matrices of one integer each, after a forward pass. -/
def answeredBeside (type : ElementType) (j k : Int)
    (call : Argument Scalar → Argument Scalar → SessionM Scalar (Argument Scalar)) : List Int :=
  match (do
    let serial ← Session.addGraph { type := type }
    let matrix (i : Int) := onGraph serial (Graph.constant unit.shape
      (.ofLiteral ⟨.number (.int .int64), .full [1, 1] (.number (.int .int64 i))⟩) (.ok none) none)
    let n ← matrix j
    let m ← matrix k
    match ← call (.node n) (.node m) with
    | .node p => onGraph p.graph (do Graph.forward; Graph.value (.node p))
    | _ => throw .type : SessionM Scalar (Tensor Scalar)) {} with
  | .ok t _ => t.toList.map (Scalar.toInt .int64)
  | .error _ _ => []

/-- The first integer that is no double is changed where zero is added, where it is multiplied by
one and in a product with a matrix of one; beside constants it is not. A number minus the least
integer of 32 bits is that integer again. -/
theorem beyond_doubles :
    answeredBeside .int64 (2 ^ 53 + 1) 0 (fun n _ => Folding.add.call false n (.int 0)) =
      [2 ^ 53] ∧
    answeredBeside .int64 (2 ^ 53 + 1) 0 (Folding.add.call false) = [2 ^ 53 + 1] ∧
    answeredBeside .int64 (2 ^ 53 + 1) 1 (fun n _ => Folding.mul.call false n (.int 1)) =
      [2 ^ 53] ∧
    answeredBeside .int64 (2 ^ 53 + 1) 1 (Folding.mul.call false) = [2 ^ 53 + 1] ∧
    answeredBeside .int64 (2 ^ 53 + 1) 1 (fun n m => Expression.call "dot" ⟨[n, m], []⟩) =
      [2 ^ 53] ∧
    answeredBeside .int32 (-2 ^ 31) (-1) (fun n _ => Folding.sub.call true n (.int (-1))) =
      [-2 ^ 31] ∧
    answeredBeside .int32 (-2 ^ 31) (-1) (Folding.sub.call true) = [2 ^ 31 - 1] := by
  decide +kernel

end Sample

end ReverseMode
