import Mathlib.Algebra.BigOperators.Field
import Mathlib.Algebra.BigOperators.Fin
import ReverseMode.Proofs.Directions
import ReverseMode.Proofs.Fibres
import ReverseMode.Proofs.Rules

/-!
Derivatives of reductions.

Sums, means, variances and products are polynomials of the elements of a fibre. What such a
reduction is in a ring says how it changes to first order, because numbers with an infinitesimal
part are a ring too: the change of the mean drops out of the change of a variance, and the change of
a product is the sum of the changes of its factors, each times all other factors. The backward step
multiplies with these partial derivatives, and finds the products of all other factors by running
products from both ends, so that factors that are zero do no harm.
-/

namespace ReverseMode

open scoped Element DualNumber

/-! ### Reductions in a ring -/

namespace Reduction

/-- The reductions that are polynomials of the elements they reduce. -/
def IsPolynomial (r : Reduction) : Prop := r = sum ∨ r = mean ∨ r = var ∨ r = prod

/-- Whether the number of elements is divided by. -/
def Averages (r : Reduction) : Prop := r = mean ∨ r = var

section Ring

variable {R : Type} [CommRing R]

/-- What a reduction leaves of `n` members of a ring. -/
def Reduces (r : Reduction) (n : Nat) (x : Nat → R) (y : R) : Prop :=
  match r with
  | sum => y = ∑ k ∈ Finset.range n, x k
  | mean => y * n = ∑ k ∈ Finset.range n, x k
  | var => ∃ m, m * n = ∑ k ∈ Finset.range n, x k ∧
      y * n = ∑ k ∈ Finset.range n, (x k - m) * (x k - m)
  | prod => y = ∏ k ∈ Finset.range n, x k
  | _ => False

end Ring

section Field

variable {F : Type} [Field F] {r : Reduction} {n : Nat}

/-- The partial derivative of a reduction in one of the elements. -/
def slope (r : Reduction) (n : Nat) (x : Nat → F) (k : Nat) : F :=
  match r with
  | sum => 1
  | mean => 1 / n
  | var => 2 * (x k - (∑ j ∈ Finset.range n, x j) / n) / n
  | prod => ∏ j ∈ (Finset.range n).erase k, x j
  | _ => 0

theorem Reduces.unique (count : (n : F) ≠ 0) {x : Nat → F} {y y' : F} (first : r.Reduces n x y)
    (second : r.Reduces n x y') : y = y' := by
  cases r with
  | sum => exact first.trans second.symm
  | mean => exact mul_right_cancel₀ count (first.trans second.symm)
  | var =>
    obtain ⟨m, mean, squares⟩ := first
    obtain ⟨m', mean', squares'⟩ := second
    obtain rfl : m = m' := mul_right_cancel₀ count (mean.trans mean'.symm)
    exact mul_right_cancel₀ count (squares.trans squares'.symm)
  | prod => exact first.trans second.symm
  | _ => exact first.elim

theorem Reduces.congr {R : Type} [CommRing R] {x x' : Nat → R} {y : R}
    (same : ∀ k < n, x k = x' k) (reduces : r.Reduces n x y) : r.Reduces n x' y := by
  have sums (f : R → R) : ∑ k ∈ Finset.range n, f (x k) = ∑ k ∈ Finset.range n, f (x' k) :=
    Finset.sum_congr rfl fun k mem => by rw [same k (Finset.mem_range.mp mem)]
  cases r with
  | sum => exact (show y = _ from reduces).trans (sums id)
  | mean => exact (show y * n = _ from reduces).trans (sums id)
  | var =>
    obtain ⟨m, mean, squares⟩ := reduces
    exact ⟨m, mean.trans (sums id), squares.trans (sums fun x => (x - m) * (x - m))⟩
  | prod =>
    refine (show y = _ from reduces).trans (Finset.prod_congr rfl fun k mem => ?_)
    exact same k (Finset.mem_range.mp mem)
  | _ => exact reduces.elim

theorem slope_congr {x x' : Nat → F} (same : ∀ k < n, x k = x' k) {k : Nat} (small : k < n) :
    r.slope n x k = r.slope n x' k := by
  cases r with
  | var =>
    have sums : ∑ j ∈ Finset.range n, x j = ∑ j ∈ Finset.range n, x' j :=
      Finset.sum_congr rfl fun j mem => same j (Finset.mem_range.mp mem)
    rw [slope, slope, same k small, sums]
  | prod =>
    refine Finset.prod_congr rfl fun j mem => ?_
    exact same j (Finset.mem_range.mp (Finset.mem_of_mem_erase mem))
  | _ => rfl

/-! ### Numbers with an infinitesimal part -/

theorem fst_prod (s : Finset Nat) (z : Nat → F[ε]) : (∏ k ∈ s, z k).fst = ∏ k ∈ s, (z k).fst :=
  map_prod (TrivSqZeroExt.fstHom F F F) z s

/-- The change of a product. -/
theorem snd_prod (s : Finset Nat) (z : Nat → F[ε]) : (∏ k ∈ s, z k).snd =
    ∑ k ∈ s, (∏ j ∈ s.erase k, (z j).fst) * (z k).snd := by
  classical
  induction s using Finset.induction_on with
  | empty => rfl
  | insert a s outside ih =>
    have others : ∀ k ∈ s, (∏ j ∈ (insert a s).erase k, (z j).fst) * (z k).snd =
        (z a).fst * ((∏ j ∈ s.erase k, (z j).fst) * (z k).snd) := by
      intro k mem
      have differ : a ≠ k := fun same => outside (same ▸ mem)
      rw [Finset.erase_insert_of_ne differ,
        Finset.prod_insert fun mem => outside (Finset.mem_of_mem_erase mem), mul_assoc]
    rw [Finset.prod_insert outside, DualNumber.snd_mul, ih, Finset.sum_insert outside,
      Finset.erase_insert outside, Finset.sum_congr rfl others, ← Finset.mul_sum, fst_prod]
    ring

/-- The products with the number of elements. -/
theorem mul_count {y w : F[ε]} (product : y * n = w) :
    y.fst * n = w.fst ∧ y.snd * n = w.snd := by
  constructor
  · rw [← product, TrivSqZeroExt.fst_mul, TrivSqZeroExt.fst_natCast]
  · rw [← product, DualNumber.snd_mul, TrivSqZeroExt.fst_natCast, TrivSqZeroExt.snd_natCast,
      mul_zero, zero_add]

/-- A reduction of numbers with an infinitesimal part reduces them, and to first order changes as
its partial derivatives say. -/
theorem Reduces.first_order (count : (n : F) ≠ 0) {z : Nat → F[ε]} {w : F[ε]}
    (reduces : r.Reduces n z w) : r.Reduces n (fun k => (z k).fst) w.fst ∧
      w.snd = ∑ k ∈ Finset.range n, r.slope n (fun j => (z j).fst) k * (z k).snd := by
  cases r with
  | sum =>
    have reduces : w = ∑ k ∈ Finset.range n, z k := reduces
    subst reduces
    refine ⟨TrivSqZeroExt.fst_sum _ z, (TrivSqZeroExt.snd_sum _ z).trans ?_⟩
    simp only [slope, one_mul]
  | mean =>
    obtain ⟨finite, change⟩ := mul_count (show w * n = _ from reduces)
    rw [TrivSqZeroExt.fst_sum] at finite
    rw [TrivSqZeroExt.snd_sum] at change
    refine ⟨finite, ?_⟩
    rw [eq_div_of_mul_eq count change, Finset.sum_div]
    refine Finset.sum_congr rfl fun k _ => ?_
    rw [slope]
    ring
  | var =>
    obtain ⟨m, mean, squares⟩ := reduces
    obtain ⟨mean, drift⟩ := mul_count mean
    obtain ⟨squares, change⟩ := mul_count squares
    rw [TrivSqZeroExt.fst_sum] at mean squares
    rw [TrivSqZeroExt.snd_sum] at drift change
    have centre : m.fst = (∑ k ∈ Finset.range n, (z k).fst) / n := eq_div_of_mul_eq count mean
    refine ⟨⟨m.fst, mean, squares⟩, ?_⟩
    -- the deviations add up to zero, so the mean may move
    have balanced : ∑ k ∈ Finset.range n, ((z k).fst - m.fst) * m.snd = 0 := by
      rw [← Finset.sum_mul, Finset.sum_sub_distrib, ← mean, Finset.sum_const, Finset.card_range,
        nsmul_eq_mul, mul_comm (n : F), sub_self, zero_mul]
    rw [eq_div_of_mul_eq count change]
    calc (∑ k ∈ Finset.range n, ((z k - m) * (z k - m)).snd) / n
        = (∑ k ∈ Finset.range n, 2 * ((z k).fst - m.fst) * (z k).snd -
            2 * ∑ k ∈ Finset.range n, ((z k).fst - m.fst) * m.snd) / n := by
          rw [Finset.mul_sum, ← Finset.sum_sub_distrib]
          congr 1
          refine Finset.sum_congr rfl fun k _ => ?_
          rw [DualNumber.snd_mul, TrivSqZeroExt.fst_sub, TrivSqZeroExt.snd_sub]
          ring
      _ = _ := by
          rw [balanced, mul_zero, sub_zero, Finset.sum_div]
          refine Finset.sum_congr rfl fun k _ => ?_
          rw [slope, centre]
          ring
  | prod =>
    have reduces : w = ∏ k ∈ Finset.range n, z k := reduces
    subst reduces
    exact ⟨fst_prod _ z, snd_prod _ z⟩
  | _ => exact reduces.elim

end Field

end Reduction

/-! ### Reductions of elements -/

namespace Element.Reading

section Range

variable {α R : Type} [Element α] [CommRing R] {type : StorageType}
variable {ρ : Element.Reading α R type} {n : Nat} {f : Nat → α}

theorem prod_range (exact : ρ.Arithmetic) (some : 0 < n) (all : ∀ k < n, ρ.carrier (f k))
    (dense : Bool) : ρ.carrier (Element.prod dense ((List.range n).map f)) ∧
      ρ.val (Element.prod dense ((List.range n).map f)) = ∏ k ∈ Finset.range n, ρ.val (f k) := by
  have nonempty : (List.range n).map f ≠ [] := by simpa using Nat.ne_of_gt some
  obtain ⟨carried, product⟩ := exact.prod nonempty
    (List.forall_mem_map.mpr fun k mem => all k (List.mem_range.mp mem))
  refine ⟨carried, product.trans ?_⟩
  rw [List.map_map, ← List.prod_toFinset _ List.nodup_range, List.toFinset_range]
  rfl

theorem mean_range (divides : ρ.Divides) (some : 0 < n) (count : IsUnit (n : R))
    (all : ∀ k < n, ρ.carrier (f k)) : ρ.carrier (Element.mean ((List.range n).map f)) ∧
      ρ.val (Element.mean ((List.range n).map f)) * n = ∑ k ∈ Finset.range n, ρ.val (f k) := by
  have nonempty : (List.range n).map f ≠ [] := by simpa using Nat.ne_of_gt some
  obtain ⟨carried, mean⟩ := divides.mean nonempty
    (List.forall_mem_map.mpr fun k mem => all k (List.mem_range.mp mem)) (by simpa using count)
  rw [List.length_map, List.length_range] at mean
  refine ⟨carried, mean.trans ?_⟩
  rw [List.map_map, ← List.sum_toFinset _ List.nodup_range, List.toFinset_range]
  rfl

/-- The variance of elements: every one is first divided by one. -/
theorem variance_range (exact : ρ.Arithmetic) (divides : ρ.Divides) (some : 0 < n)
    (count : IsUnit (n : R)) (all : ∀ k < n, ρ.carrier (f k)) (dense : Bool) :
    ρ.carrier (Fibre.variance dense ((List.range n).map f)) ∧
      Reduction.var.Reduces n (fun k => ρ.val (f k))
        (ρ.val (Fibre.variance dense ((List.range n).map f))) := by
  obtain ⟨number, value⟩ := exact.whole n
  obtain ⟨one, unit⟩ : ρ.carrier (Element.whole 1) ∧ ρ.val (Element.whole 1) = 1 := by
    simpa using exact.whole 1
  have whole : ∀ k < n, ρ.carrier (f k / Element.whole 1) ∧
      ρ.val (f k / Element.whole 1) = ρ.val (f k) := by
    intro k small
    obtain ⟨carried, quotient⟩ := divides.div (all k small) one (unit ▸ isUnit_one)
    rw [unit, mul_one] at quotient
    exact ⟨carried, quotient⟩
  obtain ⟨carried, total⟩ := ρ.total_range some (fun k small => (whole k small).1) dense
  obtain ⟨m, mean⟩ : ∃ m, m = Fibre.total dense
      ((List.range n).map fun k => f k / Element.whole 1) / Element.whole n := ⟨_, rfl⟩
  obtain ⟨middle, average⟩ := divides.div carried number (value ▸ count)
  rw [← mean, value, total] at average
  rw [← mean] at middle
  have square : ∀ k < n, ρ.carrier ((f k / Element.whole 1 - m) * (f k / Element.whole 1 - m)) ∧
      ρ.val ((f k / Element.whole 1 - m) * (f k / Element.whole 1 - m)) =
        (ρ.val (f k) - ρ.val m) * (ρ.val (f k) - ρ.val m) := by
    intro k small
    obtain ⟨apart, difference⟩ := exact.sub (whole k small).1 middle
    obtain ⟨squared, product⟩ := ρ.mul apart apart
    rw [product, difference, (whole k small).2]
    exact ⟨squared, rfl⟩
  obtain ⟨carried', total'⟩ := ρ.total_range some (fun k small => (square k small).1) dense
  obtain ⟨spread, quotient⟩ := divides.div carried' number (value ▸ count)
  have opened : Fibre.variance dense ((List.range n).map f) = Fibre.total dense
      ((List.range n).map fun k => (f k / Element.whole 1 - m) * (f k / Element.whole 1 - m)) /
        Element.whole n := by
    simp only [Fibre.variance, List.length_map, List.length_range, List.map_map, mean]
    rfl
  rw [opened]
  refine ⟨spread, ρ.val m, average.trans ?_, ?_⟩
  · exact Finset.sum_congr rfl fun k mem => (whole k (Finset.mem_range.mp mem)).2
  · rw [value, total'] at quotient
    refine quotient.trans ?_
    exact Finset.sum_congr rfl fun k mem => (square k (Finset.mem_range.mp mem)).2

/-- What a polynomial reduction leaves of elements is what it leaves in the ring. Only a mean or a
variance takes a division. -/
theorem reduce_range {r : Reduction} (polynomial : r.IsPolynomial) (exact : ρ.Arithmetic)
    (averages : r.Averages → ρ.Divides ∧ IsUnit (n : R)) (some : 0 < n)
    (all : ∀ k < n, ρ.carrier (f k)) (dense : Bool) :
    ρ.carrier (Fibre.reduce r dense ((List.range n).map f)) ∧
      r.Reduces n (fun k => ρ.val (f k)) (ρ.val (Fibre.reduce r dense ((List.range n).map f))) := by
  rcases polynomial with rfl | rfl | rfl | rfl
  · exact ρ.total_range some all dense
  · obtain ⟨divides, count⟩ := averages (.inl rfl)
    exact mean_range divides some count all
  · obtain ⟨divides, count⟩ := averages (.inr rfl)
    exact variance_range exact divides some count all dense
  · exact prod_range exact some all dense

/-- The products of the first one, two, … elements. -/
theorem getElem_runningProducts {xs : List α} {k : Nat}
    (bound : k < (Fibre.runningProducts xs).length) :
    (Fibre.runningProducts xs)[k] = Element.prod false (xs.take (k + 1)) := by
  simp [Fibre.runningProducts]

theorem length_runningProducts (xs : List α) : (Fibre.runningProducts xs).length = xs.length := by
  simp [Fibre.runningProducts]

/-- At every place the elements before it and the elements after it are multiplied. -/
theorem getD_productOfOthers {x : α} {rest : List α} {k : Nat} (bound : k < rest.length + 1) :
    (Fibre.productOfOthers (x :: rest)).getD k default =
      Element.prod false (Element.like x (Element.whole 1) :: (x :: rest).take k) *
        Element.prod false (Element.like x (Element.whole 1) :: (rest.drop k).reverse) := by
  obtain ⟨one, unit⟩ : ∃ one : α, one = Element.like x (Element.whole 1) := ⟨_, rfl⟩
  have before : (one :: (x :: rest).dropLast).take (k + 1) = one :: (x :: rest).take k := by
    rw [List.take_succ_cons, List.dropLast_eq_take, List.take_take, List.length_cons,
      Nat.add_sub_cancel, Nat.min_eq_left (by omega)]
  have after : (rest ++ [one]).reverse.take (rest.length - k + 1) =
      one :: (rest.drop k).reverse := by
    rw [List.reverse_append, List.reverse_singleton, List.singleton_append, List.take_succ_cons,
      List.take_reverse, Nat.sub_sub_self (by omega)]
  have left : k < (Fibre.runningProducts (one :: (x :: rest).dropLast)).length := by
    rw [length_runningProducts, List.length_cons, List.length_dropLast, List.length_cons]
    omega
  have right : k < (Fibre.runningProducts (rest ++ [one]).reverse).reverse.length := by
    rw [List.length_reverse, length_runningProducts, List.length_reverse, List.length_append,
      List.length_singleton]
    exact bound
  have place : (Fibre.runningProducts (rest ++ [one]).reverse).length - 1 - k =
      rest.length - k := by
    rw [length_runningProducts, List.length_reverse, List.length_append, List.length_singleton]
    omega
  rw [Fibre.productOfOthers, ← unit, List.getD_eq_getElem?_getD, List.getElem?_zipWith,
    List.getElem?_eq_getElem left, List.getElem?_eq_getElem right, List.getElem_reverse]
  simp only [Option.getD_some, getElem_runningProducts, place, before, after]

/-- The product of elements, with a one in front. -/
theorem prod_cons_one (exact : ρ.Arithmetic) {x : α} (like : ρ.carrier x) {xs : List α}
    (all : ∀ y ∈ xs, ρ.carrier y) :
    ρ.carrier (Element.prod false (Element.like x (Element.whole 1) :: xs)) ∧
      ρ.val (Element.prod false (Element.like x (Element.whole 1) :: xs)) =
        (xs.map ρ.val).prod := by
  obtain ⟨one, unit⟩ : ρ.carrier (Element.whole 1) ∧ ρ.val (Element.whole 1) = 1 := by
    simpa using exact.whole 1
  obtain ⟨carried, same⟩ := ρ.like like one
  obtain ⟨multiplied, product⟩ := exact.prod (List.cons_ne_nil _ xs)
    (List.forall_mem_cons.mpr ⟨carried, all⟩)
  refine ⟨multiplied, product.trans ?_⟩
  rw [List.map_cons, List.prod_cons, same, unit, one_mul]

/-- At every place stands the product of the elements at all other places. -/
theorem others_range (exact : ρ.Arithmetic) (all : ∀ k < n, ρ.carrier (f k)) {k : Nat}
    (small : k < n) : ρ.carrier ((Fibre.productOfOthers ((List.range n).map f)).getD k default) ∧
      ρ.val ((Fibre.productOfOthers ((List.range n).map f)).getD k default) =
        ∏ j ∈ (Finset.range n).erase k, ρ.val (f j) := by
  have carried : ∀ x ∈ (List.range n).map f, ρ.carrier x :=
    List.forall_mem_map.mpr fun k mem => all k (List.mem_range.mp mem)
  have others : ∏ j ∈ (Finset.range n).erase k, ρ.val (f j) =
      (((((List.range n).map f).take k).map ρ.val) ++
        ((((List.range n).map f).drop (k + 1)).map ρ.val)).prod := by
    have bound : k < (List.range n).length := by simpa using small
    have apart : (List.range n).eraseIdx k = (List.range n).erase k := by
      rw [← List.nodup_range.erase_getElem k bound, List.getElem_range]
    have places : (Finset.range n).erase k = ((List.range n).erase k).toFinset := by
      ext j
      rw [Finset.mem_erase, Finset.mem_range, List.mem_toFinset, List.nodup_range.mem_erase_iff,
        List.mem_range]
    rw [places, List.prod_toFinset _ (List.nodup_range.erase k), ← apart,
      List.eraseIdx_eq_take_drop_succ, List.map_append, ← List.map_take, ← List.map_drop,
      List.map_map, List.map_map]
    rfl
  obtain ⟨x, rest, fibre⟩ := List.exists_cons_of_ne_nil
    (show (List.range n).map f ≠ [] by simpa using by omega)
  have length : n = rest.length + 1 := by simpa using congrArg List.length fibre
  rw [others, fibre, getD_productOfOthers (length ▸ small), List.prod_append]
  rw [fibre] at carried
  obtain ⟨before, first⟩ := prod_cons_one exact (carried x (by simp))
    (fun y mem => carried y (List.mem_of_mem_take mem) : ∀ y ∈ (x :: rest).take k, ρ.carrier y)
  obtain ⟨after, last⟩ := prod_cons_one exact (carried x (by simp))
    (fun y mem => carried y (.tail _ (List.mem_of_mem_drop (List.mem_reverse.mp mem))) :
      ∀ y ∈ (rest.drop k).reverse, ρ.carrier y)
  obtain ⟨product, value⟩ := ρ.mul before after
  refine ⟨product, ?_⟩
  rw [value, first, last, List.map_reverse, List.prod_reverse]
  rfl

end Range

/-! ### Gradients of elements -/

end Element.Reading

/-- What is added for place `k` of a fibre `xs`, from the gradient `g` of what is left of it. -/
def Reduction.gradientAt {α : Type} [Element α] (r : Reduction) (xs : List α) (k : Nat) (g : α) :
    α :=
  match r with
  | .sum => g
  | .mean => g / Element.whole xs.length
  | .var => g * Element.real 2.0 * (Fibre.centered xs).getD k default / Element.whole xs.length
  | .prod => g * (Fibre.productOfOthers xs).getD k default
  | _ => default

namespace Operator

open Tensor

variable {α : Type} [Element α] {a g : Tensor α} {i : Nat} {axis : Axis}

/-- The backward step acts on each fibre by itself. -/
theorem reduceGradient_eq {r : Reduction} (polynomial : r.IsPolynomial)
    (resolved : axis.resolve a.rank = .ok i) (one : g.shape = a.shape.set i 1) (out : Tensor α) :
    reduceGradient r axis a out g = .ok (.ofFn a.shape fun q =>
      r.gradientAt (a.fibre i (q.set i 0)) (q.getD i 0) (g.get (q.set i 0))) := by
  have axial : i < a.shape.length := Axis.resolve_lt resolved
  have length (q : List Nat) : (a.fibre i (q.set i 0)).length = a.extent i := length_fibre
  have kept (f : List α → List α) : (a.mapFibres i f).shape = a.shape := set_getD a.shape i 1
  have combined (f : List α → List α) (h : α → α → α) : g.combine h (a.mapFibres i f) =
      .ok (.ofFn a.shape fun q => h (g.get (q.set i 0))
        ((f (a.fibre i (q.set i 0))).getD (q.getD i 0) default)) := by
    rw [combine_set (u := a.mapFibres i f) (kept f ▸ axial) (kept f ▸ one), kept f]
    refine congrArg Except.ok (ext_get rfl fun q inside => ?_)
    have inside : q ∈ positions a.shape := inside
    rw [get_ofFn inside, get_ofFn inside, get_mapFibres inside]
  rcases polynomial with rfl | rfl | rfl | rfl
  · exact bind_eq_ok.mpr ⟨i, resolved, broadcastTo_set axial one⟩
  · have spread := broadcastTo_set (t := g.map fun x => x / Element.whole (a.extent i)) axial one
    refine bind_eq_ok.mpr ⟨i, resolved, spread.trans ?_⟩
    refine congrArg Except.ok (ext_get rfl fun q inside => ?_)
    have inside : q ∈ positions a.shape := inside
    rw [get_ofFn inside, get_ofFn inside, get_map _ (one ▸ start_mem inside),
      Reduction.gradientAt, length]
  · refine bind_eq_ok.mpr ⟨i, resolved, (combined Fibre.centered _).trans ?_⟩
    simp only [Reduction.gradientAt, length]
  · exact bind_eq_ok.mpr ⟨i, resolved, combined Fibre.productOfOthers _⟩

end Operator

namespace Element.Reading

section Gradient

variable {α F : Type} [Element α] [Field F] {type : StorageType}
variable {ρ : Element.Reading α F type} {n : Nat} {f : Nat → α}

/-- Deviations from the mean. -/
theorem centered_range (exact : ρ.Arithmetic) (divides : ρ.Divides) (count : (n : F) ≠ 0)
    (all : ∀ k < n, ρ.carrier (f k)) {k : Nat} (small : k < n) :
    ρ.carrier ((Fibre.centered ((List.range n).map f)).getD k default) ∧
      ρ.val ((Fibre.centered ((List.range n).map f)).getD k default) =
        ρ.val (f k) - (∑ j ∈ Finset.range n, ρ.val (f j)) / n := by
  obtain ⟨carried, mean⟩ := mean_range divides (by omega) (IsUnit.mk0 _ count) all
  obtain ⟨apart, difference⟩ := exact.sub (all k small) carried
  have here : (Fibre.centered ((List.range n).map f)).getD k default =
      f k - Element.mean ((List.range n).map f) := by
    simp [Fibre.centered, small]
  rw [here]
  exact ⟨apart, difference.trans (by rw [eq_div_of_mul_eq count mean])⟩

/-- What is added for an element is the gradient times the partial derivative. -/
theorem gradientAt_range {r : Reduction} (polynomial : r.IsPolynomial) (exact : ρ.Arithmetic)
    (divides : r.Averages → ρ.Divides) (count : (n : F) ≠ 0) (all : ∀ k < n, ρ.carrier (f k))
    {k : Nat} (small : k < n) {g : α} (gradient : ρ.carrier g) :
    ρ.carrier (r.gradientAt ((List.range n).map f) k g) ∧
      ρ.val (r.gradientAt ((List.range n).map f) k g) =
        ρ.val g * r.slope n (fun j => ρ.val (f j)) k := by
  obtain ⟨number, value⟩ := exact.whole n
  have nonzero : ρ.val (Element.whole n) ≠ 0 := value ▸ count
  have length : ((List.range n).map f).length = n := by simp
  rcases polynomial with rfl | rfl | rfl | rfl
  · exact ⟨gradient, (mul_one _).symm⟩
  · rw [Reduction.gradientAt, length]
    obtain ⟨carried, quotient⟩ := (divides (.inl rfl)).quotient gradient number nonzero
    refine ⟨carried, quotient.trans ?_⟩
    rw [value, Reduction.slope, div_eq_mul_one_div]
  · have divides := divides (.inr rfl)
    rw [Reduction.gradientAt, length]
    obtain ⟨two, double⟩ := exact.two
    obtain ⟨apart, deviation⟩ := centered_range exact divides count all small
    obtain ⟨twice, first⟩ := ρ.mul gradient two
    obtain ⟨product, second⟩ := ρ.mul twice apart
    obtain ⟨carried, quotient⟩ := divides.quotient product number nonzero
    refine ⟨carried, quotient.trans ?_⟩
    rw [second, first, double, deviation, value, Reduction.slope]
    ring
  · obtain ⟨carried, others⟩ := others_range exact all small
    obtain ⟨product, value⟩ := ρ.mul gradient carried
    exact ⟨product, value.trans (congrArg _ others)⟩

end Gradient

end Element.Reading

namespace Element.Reading

section Directions

variable {α β F : Type} [Element α] [Element β] [Field F] {type : StorageType}
variable {ρ : Element.Reading α F type} {δ : Element.Reading β F[ε] type}

/-- What is left of elements with directions, and its direction. -/
theorem Carries.reduce {r : Reduction} (polynomial : r.IsPolynomial) (exact : ρ.Arithmetic)
    (exact' : δ.Arithmetic) (divides : r.Averages → ρ.Divides ∧ δ.Divides) {n : Nat} (some : 0 < n)
    (count : (n : F) ≠ 0) {f : Nat → α} {h : Nat → β}
    (carries : ∀ k < n, ρ.Carries δ (f k) (h k)) (dense : Bool) :
    ρ.Carries δ (Fibre.reduce r dense ((List.range n).map f))
        (Fibre.reduce r dense ((List.range n).map h)) ∧
      (δ.val (Fibre.reduce r dense ((List.range n).map h))).snd = ∑ k ∈ Finset.range n,
        r.slope n (fun j => ρ.val (f j)) k * (δ.val (h k)).snd := by
  have unit : IsUnit (n : F[ε]) := by
    rw [TrivSqZeroExt.isUnit_iff_isUnit_fst, TrivSqZeroExt.fst_natCast]
    exact IsUnit.mk0 _ count
  obtain ⟨still, value⟩ := reduce_range polynomial exact
    (fun averages => ⟨(divides averages).1, IsUnit.mk0 _ count⟩) some
    (fun k small => (carries k small).still) dense
  obtain ⟨moving, value'⟩ := reduce_range polynomial exact'
    (fun averages => ⟨(divides averages).2, unit⟩) some
    (fun k small => (carries k small).moving) dense
  obtain ⟨finite, change⟩ := value'.first_order count
  have same : ∀ k < n, (δ.val (h k)).fst = ρ.val (f k) := fun k small => (carries k small).fst
  refine ⟨⟨still, moving, (finite.congr same).unique count value⟩, change.trans ?_⟩
  refine Finset.sum_congr rfl fun k mem => ?_
  rw [Reduction.slope_congr same (Finset.mem_range.mp mem)]

/-- An array with a direction is reduced with its direction. -/
theorem Lifts.reduce {r : Reduction} (polynomial : r.IsPolynomial) (exact : ρ.Arithmetic)
    (exact' : δ.Arithmetic) (divides : r.Averages → ρ.Divides ∧ δ.Divides) {t : Tensor α}
    {u : Tensor β} {i : Nat} (some : 0 < t.extent i) (count : (t.extent i : F) ≠ 0)
    (lifts : ρ.Lifts δ t u) :
    ρ.Lifts δ (t.reduceAxis i (Fibre.reduce r (Tensor.dense t.shape i)))
        (u.reduceAxis i (Fibre.reduce r (Tensor.dense u.shape i))) ∧
      ∀ p ∈ positions (t.shape.set i 1),
        δ.slope (u.reduceAxis i (Fibre.reduce r (Tensor.dense u.shape i))) p =
          ∑ k ∈ Finset.range (t.extent i), r.slope (t.extent i)
            (fun j => ρ.entry t (p.set i j)) k * δ.slope u (p.set i k) := by
  have extent : u.extent i = t.extent i := by rw [Tensor.extent, Tensor.extent, lifts.shape]
  have each : ∀ p ∈ positions (t.shape.set i 1), ρ.Carries δ
      (Fibre.reduce r (Tensor.dense t.shape i) (t.fibre i p))
      (Fibre.reduce r (Tensor.dense t.shape i) (u.fibre i p)) ∧
      (δ.val (Fibre.reduce r (Tensor.dense t.shape i) (u.fibre i p))).snd =
        ∑ k ∈ Finset.range (t.extent i), r.slope (t.extent i)
          (fun j => ρ.entry t (p.set i j)) k * δ.slope u (p.set i k) := by
    intro p inside
    have carries : ∀ k < t.extent i, ρ.Carries δ (t.get (p.set i k)) (u.get (p.set i k)) :=
      fun k small => lifts.carries _ (place_mem inside small)
    rw [Tensor.fibre, Tensor.fibre, extent]
    exact Carries.reduce polynomial exact exact' divides some count carries _
  rw [Tensor.reduceAxis, Tensor.reduceAxis, lifts.shape]
  refine ⟨.ofFn fun p inside => (each p inside).1, fun p inside => ?_⟩
  rw [slope, entry_ofFn inside]
  exact (each p inside).2

end Directions

end Element.Reading

namespace Operator

open Tensor Element.Reading

variable {α β F : Type} [Element α] [Element β] [Field F] [CharZero F] {type : StorageType}
variable {ρ : Element.Reading α F type} {δ : Element.Reading β F[ε] type}
variable {r : Reduction} {axis : Axis} {sa s : Signature} {a g : Tensor α}

section Inferred

variable (polynomial : r.IsPolynomial) (inferred : (reduce r axis : Operator α).infer [sa] = .ok s)
  (shapes : a.shape = sa.shape.extents ∧ g.shape = s.shape.extents)

include inferred shapes in
omit [Element α] [CharZero F] in
/-- Where a reduction is inferred, its axis is one of the input, and one place of it is left. -/
theorem reduce_extents : ∃ i, axis.resolve a.rank = .ok i ∧ i < a.shape.length ∧
    0 < a.extent i ∧ s.shape.extents = a.shape.set i 1 ∧ g.shape = a.shape.set i 1 := by
  obtain ⟨_, given, inferred⟩ := bind_eq_ok.mp inferred
  cases given
  obtain ⟨i, resolved, extents⟩ := reduceRule_eq_ok inferred
  obtain ⟨first, second⟩ := shapes
  rw [Shape.rank, ← first] at resolved
  rw [← first] at extents
  have axial : i < a.shape.length := Axis.resolve_lt resolved
  have some : 0 < a.extent i := by
    simpa [Tensor.extent, axial] using sa.shape.positive _ (first ▸ List.getElem_mem axial)
  exact ⟨i, resolved, axial, some, extents, second.trans extents⟩

include polynomial inferred shapes in
/-- The input is given, at every place of a fibre, the gradient of what is left of the fibre times
the partial derivative there. -/
theorem reduce_gradient (holds : ρ.Holds a) (gradient : ρ.Holds g) (exact : ρ.Arithmetic)
    (divides : r.Averages → ρ.Divides) : ∃ i c, axis.resolve a.rank = .ok i ∧
      (∀ out wanted, (reduce r axis).contributions [a] out g wanted = [(0, .ok c)]) ∧
      ρ.Adds c a.shape fun q => ρ.entry g (q.set i 0) *
        r.slope (a.extent i) (fun k => ρ.entry a (q.set i k)) (q.getD i 0) := by
  obtain ⟨i, resolved, axial, some, -, one⟩ := reduce_extents inferred shapes
  have count : (a.extent i : F) ≠ 0 := Nat.cast_ne_zero.mpr (by omega)
  have positive : ∀ e ∈ a.shape, 0 < e := shapes.1 ▸ sa.shape.positive
  have given : ∀ q ∈ positions a.shape, _ := fun q inside =>
    gradientAt_range polynomial exact divides count
      (fun k small => holds.fibre (start_mem inside) small)
      ((mem_positions_getD.mp inside).2 i axial) (gradient _ (one ▸ start_mem inside))
  have held : ρ.Holds (.ofFn a.shape fun q =>
      r.gradientAt (a.fibre i (q.set i 0)) (q.getD i 0) (g.get (q.set i 0))) :=
    holds_ofFn fun q inside => (given q inside).1
  refine ⟨i, .dense _, resolved, fun out wanted => ?_, (adds_same held positive).congr ?_⟩
  · have made := held.asDense (reduceGradient_eq polynomial resolved one out)
    exact congrArg (fun c => [((0 : Nat), c)]) made
  · intro q inside
    refine (entry_ofFn inside).trans ((given q inside).2.trans ?_)
    simp only [List.set_set]
    rfl

/-- Polynomial reductions are differentiated exactly: in a field of characteristic zero, along every
axis. Where a fibre is multiplied, every place is given the gradient times the product of the
elements at all other places, and no division is asked for. -/
theorem reduce_differentiates (polynomial : r.IsPolynomial)
    (inferred : (reduce r axis : Operator α).infer [sa] = .ok s)
    (shapes : a.shape = sa.shape.extents ∧ g.shape = s.shape.extents) (holds : ρ.Holds a)
    (gradient : ρ.Holds g) (exact : ρ.Arithmetic) (exact' : δ.Arithmetic)
    (divides : r.Averages → ρ.Divides ∧ δ.Divides) :
    ρ.Differentiates δ (reduce r axis) (reduce r axis) s.shape.extents [a] g ∧
    (r = .prod → ∃ i c, axis.resolve a.rank = .ok i ∧
      (∀ out wanted, (reduce r axis).contributions [a] out g wanted = [(0, .ok c)]) ∧
      ρ.Adds c a.shape fun q => ρ.entry g (q.set i 0) *
        ∏ k ∈ (Finset.range (a.extent i)).erase (q.getD i 0), ρ.entry a (q.set i k)) := by
  obtain ⟨i, c, resolved, made, adds⟩ := reduce_gradient polynomial inferred shapes holds gradient
    exact fun averages => (divides averages).1
  constructor
  · obtain ⟨i', resolved', axial, some, extents, -⟩ := reduce_extents inferred shapes
    obtain rfl : i' = i := Except.ok.inj (resolved'.symm.trans resolved)
    have count : (a.extent i' : F) ≠ 0 := Nat.cast_ne_zero.mpr (by omega)
    let t : Tensor α := a.reduceAxis i' (Fibre.reduce r (Tensor.dense a.shape i'))
    have read : ρ.Holds t := holds_ofFn fun p inside =>
      (reduce_range polynomial exact (fun averages => ⟨(divides averages).1, IsUnit.mk0 _ count⟩)
        some (fun k small => holds.fibre inside small) _).1
    obtain ⟨y, stored, same, -, -⟩ := read.assign
    rw [extents]
    refine ⟨y, ?_, same, fun _ => c, fun _ => _, made, Fin.forall_fin_one.mpr adds, ?_⟩
    · exact bind_eq_ok.mpr ⟨t, bind_eq_ok.mpr ⟨a, rfl, bind_eq_ok.mpr ⟨i', resolved, rfl⟩⟩, stored⟩
    · intro us lifts
      have lift : ρ.Lifts δ a (us 0) := lifts 0
      have along : axis.resolve (us 0).rank = .ok i' := by
        rw [Tensor.rank, lift.shape]
        exact resolved
      obtain ⟨reduced, change⟩ := lift.reduce polynomial exact exact' divides some count
      obtain ⟨z, y', stored', ran, -, together, slopes⟩ := reduced.assign
      obtain rfl : z = y := Except.ok.inj (stored'.symm.trans stored)
      refine ⟨y', bind_eq_ok.mpr ⟨_, bind_eq_ok.mpr ⟨us 0, rfl, bind_eq_ok.mpr
        ⟨i', along, rfl⟩⟩, ran⟩, together, ?_⟩
      refine Eq.trans ?_ (Fin.sum_univ_one _).symm
      refine Eq.trans ?_ (sum_fibres axial _).symm
      refine Finset.sum_congr rfl fun p mem => ?_
      have inside := mem_places.mp mem
      have length : i' < p.length := by
        rw [(mem_positions_getD.mp inside).1, List.length_set]
        exact axial
      rw [(slopes p inside).2, change p inside, Finset.mul_sum]
      refine Finset.sum_congr rfl fun k _ => ?_
      have here : (p.set i' k).getD i' 0 = k := by rw [getD_set length, if_pos rfl]
      simp only [List.set_set, set_start axial inside, here, mul_assoc]
  · rintro rfl
    exact ⟨i, c, resolved, made, adds⟩

end Inferred

end Operator

namespace Sample

open Operator

def grid : Signature := ⟨⟨[5, 4], by decide⟩, .float64⟩

def margin : Signature := ⟨⟨[5, 1], by decide⟩, .float64⟩

/-- Rows, one of them with a zero, are multiplied, and their variances are taken. -/
theorem rows_differentiated :
    ((reduce .prod .last : Operator ℚ).infer [grid] = .ok margin ∧
      (reduce .var .last : Operator ℚ).infer [grid] = .ok margin) ∧
    ((Element.rationals .float64).Arithmetic ∧ (Element.infinitesimals .float64).Arithmetic) ∧
    ((Element.rationals .float64).Divides ∧ (Element.infinitesimals .float64).Divides) ∧
    (Element.rationals .float64).Differentiates (Element.infinitesimals .float64)
      (reduce .prod .last) (reduce .prod .last) [5, 1] [numbered [5, 4]]
      (numbered [5, 1]) ∧
    (Element.rationals .float64).Differentiates (Element.infinitesimals .float64)
      (reduce .var .last) (reduce .var .last) [5, 1] [numbered [5, 4]]
      (numbered [5, 1]) := by
  have exact := Element.rationals_arithmetic .float64
  have exact' := Element.infinitesimals_arithmetic .float64
  have divides := Element.rationals_divides .float64
  have divides' := Element.infinitesimals_divides .float64
  have inferred : (reduce .prod .last : Operator ℚ).infer [grid] = .ok margin := rfl
  have inferred' : (reduce .var .last : Operator ℚ).infer [grid] = .ok margin := rfl
  refine ⟨⟨inferred, inferred'⟩, ⟨exact, exact'⟩, ⟨divides, divides'⟩, ?_, ?_⟩
  · exact (reduce_differentiates (.inr (.inr (.inr rfl))) inferred ⟨rfl, rfl⟩ (fun _ _ => trivial)
      (fun _ _ => trivial) exact exact' fun _ => ⟨divides, divides'⟩).1
  · exact (reduce_differentiates (.inr (.inr (.inl rfl))) inferred' ⟨rfl, rfl⟩ (fun _ _ => trivial)
      (fun _ _ => trivial) exact exact' fun _ => ⟨divides, divides'⟩).1

end Sample

end ReverseMode
