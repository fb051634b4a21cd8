import Mathlib.Tactic.FieldSimp
import Mathlib.Tactic.Ring
import ReverseMode.Proofs.Additions
import ReverseMode.Proofs.RingElements

/-!
Derivatives along a direction.

An array of numbers with an infinitesimal part is an array together with a direction in which it
changes. What a forward step makes of it, to first order, is its result together with the direction
in which that changes. A backward step gives the derivative of the forward step if, for every
direction of the inputs, the products of the gradient of the output with the change of the output
are the products of what the inputs are given with their changes.
-/

namespace ReverseMode

open scoped Element DualNumber

namespace Element.Reading

variable {α β F : Type} [Element α] [Element β] [Field F] {type : StorageType}

/-! ### Elements with a direction -/

/-- An element with a direction: an element and an infinitesimal change of it. -/
structure Carries (ρ : Element.Reading α F type) (δ : Element.Reading β F[ε] type) (x : α)
    (u : β) : Prop where
  still : ρ.carrier x
  moving : δ.carrier u
  fst : (δ.val u).fst = ρ.val x

namespace Carries

variable {ρ : Element.Reading α F type} {δ : Element.Reading β F[ε] type} {x y : α} {u v : β}

theorem add (first : ρ.Carries δ x u) (second : ρ.Carries δ y v) :
    ρ.Carries δ (x + y) (u + v) ∧
      (δ.val (u + v)).snd = (δ.val u).snd + (δ.val v).snd := by
  obtain ⟨still, sum⟩ := ρ.add first.still second.still
  obtain ⟨moving, sum'⟩ := δ.add first.moving second.moving
  rw [sum']
  exact ⟨⟨still, moving, by rw [sum', sum, TrivSqZeroExt.fst_add, first.fst, second.fst]⟩, rfl⟩

theorem mul (first : ρ.Carries δ x u) (second : ρ.Carries δ y v) :
    ρ.Carries δ (x * y) (u * v) ∧
      (δ.val (u * v)).snd = ρ.val x * (δ.val v).snd + (δ.val u).snd * ρ.val y := by
  obtain ⟨still, product⟩ := ρ.mul first.still second.still
  obtain ⟨moving, product'⟩ := δ.mul first.moving second.moving
  rw [product', DualNumber.snd_mul, first.fst, second.fst]
  exact ⟨⟨still, moving, by rw [product', product, TrivSqZeroExt.fst_mul, first.fst, second.fst]⟩,
    rfl⟩

theorem neg (exact : ρ.Arithmetic) (exact' : δ.Arithmetic) (carried : ρ.Carries δ x u) :
    ρ.Carries δ (-x) (-u) ∧ (δ.val (-u)).snd = -(δ.val u).snd := by
  obtain ⟨still, turned⟩ := exact.neg carried.still
  obtain ⟨moving, turned'⟩ := exact'.neg carried.moving
  rw [turned']
  exact ⟨⟨still, moving, by rw [turned', turned, TrivSqZeroExt.fst_neg, carried.fst]⟩, rfl⟩

theorem sub (exact : ρ.Arithmetic) (exact' : δ.Arithmetic) (first : ρ.Carries δ x u)
    (second : ρ.Carries δ y v) :
    ρ.Carries δ (x - y) (u - v) ∧
      (δ.val (u - v)).snd = (δ.val u).snd - (δ.val v).snd := by
  obtain ⟨still, difference⟩ := exact.sub first.still second.still
  obtain ⟨moving, difference'⟩ := exact'.sub first.moving second.moving
  rw [difference']
  exact ⟨⟨still, moving,
    by rw [difference', difference, TrivSqZeroExt.fst_sub, first.fst, second.fst]⟩, rfl⟩

theorem div (divides : ρ.Divides) (divides' : δ.Divides) (first : ρ.Carries δ x u)
    (second : ρ.Carries δ y v) (divisor : ρ.val y ≠ 0) :
    ρ.Carries δ (x / y) (u / v) ∧ ρ.val (x / y) = ρ.val x / ρ.val y ∧
      (δ.val (u / v)).snd = (δ.val u).snd / ρ.val y -
        ρ.val x * (δ.val v).snd / (ρ.val y * ρ.val y) := by
  obtain ⟨still, value⟩ := divides.quotient first.still second.still divisor
  have unit : IsUnit (δ.val v) := by
    rw [TrivSqZeroExt.isUnit_iff_isUnit_fst, second.fst]
    exact IsUnit.mk0 _ divisor
  obtain ⟨moving, quotient'⟩ := divides'.div first.moving second.moving unit
  have finite := congrArg TrivSqZeroExt.fst quotient'
  have change := congrArg TrivSqZeroExt.snd quotient'
  rw [TrivSqZeroExt.fst_mul, first.fst, second.fst] at finite
  have finite : (δ.val (u / v)).fst = ρ.val x / ρ.val y :=
    eq_div_of_mul_eq divisor finite
  rw [DualNumber.snd_mul, second.fst, finite] at change
  refine ⟨⟨still, moving, finite.trans value.symm⟩, value, ?_⟩
  rw [← change]
  field_simp
  ring

end Carries

/-! ### Arrays with a direction -/

/-- An array with a direction: an array and an infinitesimal change of it. -/
structure Lifts (ρ : Element.Reading α F type) (δ : Element.Reading β F[ε] type) (t : Tensor α)
    (u : Tensor β) : Prop where
  shape : u.shape = t.shape
  carries : ∀ p ∈ positions t.shape, ρ.Carries δ (t.get p) (u.get p)

/-- The change of the element at a position. -/
def slope (δ : Element.Reading β F[ε] type) (u : Tensor β) (p : List Nat) : F := (δ.entry u p).snd

namespace Lifts

variable {ρ : Element.Reading α F type} {δ : Element.Reading β F[ε] type} {t : Tensor α}
variable {u : Tensor β} {shape : List Nat}

theorem still (lifts : ρ.Lifts δ t u) : ρ.Holds t := fun p inside => (lifts.carries p inside).still

theorem moving (lifts : ρ.Lifts δ t u) : δ.Holds u :=
  fun p inside => (lifts.carries p (lifts.shape ▸ inside)).moving

theorem ofFn {f : List Nat → α} {h : List Nat → β}
    (all : ∀ p ∈ positions shape, ρ.Carries δ (f p) (h p)) :
    ρ.Lifts δ (.ofFn shape f) (.ofFn shape h) := by
  refine ⟨rfl, fun p inside => ?_⟩
  have inside : p ∈ positions shape := inside
  rw [Tensor.get_ofFn inside, Tensor.get_ofFn inside]
  exact all p inside

theorem map {f : α → α} {h : β → β} (shape : u.shape = t.shape)
    (all : ∀ p ∈ positions t.shape, ρ.Carries δ (f (t.get p)) (h (u.get p))) :
    ρ.Lifts δ (t.map f) (u.map h) := by
  refine ⟨shape, fun p inside => ?_⟩
  have inside : p ∈ positions t.shape := inside
  rw [Tensor.get_map f inside, Tensor.get_map h (shape ▸ inside)]
  exact all p inside

/-- An array is read with its direction. -/
theorem read (lifts : ρ.Lifts δ t u) (fits : Fits t.shape shape) {q : List Nat}
    (inside : q ∈ positions shape) : ρ.Carries δ (t.read q) (u.read q) := by
  rw [Tensor.read, Tensor.read, lifts.shape]
  exact lifts.carries _ (Tensor.clamp_mem fits.broadcast (by simp) inside)

/-- An array is stored with its direction. -/
theorem assign (lifts : ρ.Lifts δ t u) : ∃ y y', t.assign type t.shape = .ok y ∧
    u.assign type t.shape = .ok y' ∧ y.shape = t.shape ∧ ρ.Lifts δ y y' ∧
    ∀ p ∈ positions t.shape, ρ.entry y p = ρ.entry t p ∧ δ.slope y' p = δ.slope u p := by
  obtain ⟨y, stored, extents, holds, same⟩ := lifts.still.assign
  obtain ⟨y', stored', extents', holds', same'⟩ := lifts.moving.assign
  rw [lifts.shape] at stored' extents' same'
  refine ⟨y, y', stored, stored', extents, ⟨extents'.trans extents.symm, fun p inside => ?_⟩,
    fun p inside => ⟨same p inside, congrArg TrivSqZeroExt.snd (same' p inside)⟩⟩
  rw [extents] at inside
  refine ⟨holds p (extents ▸ inside), holds' p (extents' ▸ inside), ?_⟩
  calc (δ.entry y' p).fst = (δ.entry u p).fst := by rw [same' p inside]
    _ = ρ.entry t p := (lifts.carries p inside).fst
    _ = ρ.entry y p := (same p inside).symm

end Lifts

/-! ### Derivatives -/

/-- The forward step of an operator gives a result of some extents, and its backward step adds to
every buffer of the extents of an input, for every direction of the inputs and of the result that
they make to first order, amounts whose products with the directions of the inputs are those of `g`
with the direction of the result. -/
def Differentiates (ρ : Element.Reading α F type) (δ : Element.Reading β F[ε] type)
    (op : Operator α) (op' : Operator β) (shape : List Nat) (ts : List (Tensor α))
    (g : Tensor α) : Prop :=
  ∃ y, op.forward type shape ts = .ok y ∧ y.shape = shape ∧
    ∃ (c : Fin ts.length → Contribution α) (amount : Fin ts.length → List Nat → F),
      (∀ out wanted, op.contributions ts out g wanted =
        List.ofFn fun i => ((i : Nat), Except.ok (c i))) ∧
      (∀ i, ρ.Adds (c i) ts[i].shape (amount i)) ∧
      ∀ us : Fin ts.length → Tensor β, (∀ i, ρ.Lifts δ ts[i] (us i)) →
        ∃ y', op'.forward type shape (List.ofFn us) = .ok y' ∧ ρ.Lifts δ y y' ∧
          ∑ q ∈ places shape, ρ.entry g q * δ.slope y' q =
            ∑ i, ∑ p ∈ places ts[i].shape, amount i p * δ.slope (us i) p

section Dense

variable {ρ : Element.Reading α F type} {δ : Element.Reading β F[ε] type} {op : Operator α}
variable {op' : Operator β} {shape : List Nat} {ts : List (Tensor α)} {g y : Tensor α}

/-- Gradients of the extents of the output, one for each input, summed back. The derivative is
right if it is at every position of the output. -/
theorem Differentiates.of_gradients (positive : ∀ e ∈ shape, 0 < e)
    (fits : ∀ i : Fin ts.length, Fits ts[i].shape shape) (ran : op.forward type shape ts = .ok y)
    (extents : y.shape = shape) {c : Fin ts.length → Tensor α} (holds : ∀ i, ρ.Holds (c i))
    (extents' : ∀ i, (c i).shape = shape)
    (made : ∀ out wanted, op.contributions ts out g wanted =
      List.ofFn fun i => ((i : Nat), Except.ok (.dense (c i))))
    (change : ∀ us : Fin ts.length → Tensor β, (∀ i, ρ.Lifts δ ts[i] (us i)) →
      ∃ y', op'.forward type shape (List.ofFn us) = .ok y' ∧ ρ.Lifts δ y y' ∧
        ∀ q ∈ positions shape, ρ.entry g q * δ.slope y' q =
          ∑ i, ρ.entry (c i) q * (δ.val ((us i).read q)).snd) :
    ρ.Differentiates δ op op' shape ts g := by
  refine ⟨y, ran, extents, fun i => .dense (c i), fun i p =>
    ∑ q ∈ places (c i).shape with Tensor.clamp ts[i].shape q = p, ρ.entry (c i) q, made, ?_, ?_⟩
  · intro i
    refine adds_dense (holds i) ?_ ?_
    · rw [extents' i]
      exact positive
    · rw [extents' i]
      exact fits i
  · intro us lifts
    obtain ⟨y', ran', lifted, slopes⟩ := change us lifts
    refine ⟨y', ran', lifted, ?_⟩
    calc ∑ q ∈ places shape, ρ.entry g q * δ.slope y' q
        = ∑ q ∈ places shape, ∑ i, ρ.entry (c i) q * (δ.val ((us i).read q)).snd :=
          Finset.sum_congr rfl fun q mem => slopes q (mem_places.mp mem)
      _ = ∑ i, ∑ q ∈ places shape, ρ.entry (c i) q * (δ.val ((us i).read q)).snd :=
          Finset.sum_comm
      _ = _ := ?_
    refine Finset.sum_congr rfl fun i _ => ?_
    have leads : ∀ q ∈ positions (c i).shape,
        Tensor.clamp ts[i].shape q ∈ positions ts[i].shape := by
      intro q inside
      rw [extents' i] at inside
      exact Tensor.clamp_mem (fits i).broadcast (by simp) inside
    have summed := sum_led leads (ρ.entry (c i)) (δ.slope (us i))
    rw [summed, extents' i]
    refine Finset.sum_congr rfl fun q _ => ?_
    rw [Tensor.read, (lifts i).shape]
    rfl

end Dense

end Element.Reading

end ReverseMode
