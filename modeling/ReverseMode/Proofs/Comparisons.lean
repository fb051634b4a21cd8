import Mathlib.Algebra.Order.Ring.Defs
import ReverseMode.Proofs.Fibres
import ReverseMode.Proofs.Ranking
import ReverseMode.Proofs.RingElements

/-!
Elements that are compared.

Where elements are read in an ordered ring and compare as its members do, none of them differs from
itself. Then the largest and the smallest element of a fibre bound all of its elements and are among
them, and a ranking of a fibre is one by what its elements stand for.
-/

namespace ReverseMode

open scoped Element

namespace Element.Reading

variable {α R : Type} [Element α] [CommRing R] [LinearOrder R] {type : StorageType}
variable {ρ : Element.Reading α R type} {n : Nat} {f : Nat → α}

/-- Elements compare as members of an ordered ring do, and a truth value is a factor. -/
structure Compares (ρ : Element.Reading α R type) : Prop where
  lt {x y : α} : ρ.carrier x → ρ.carrier y → Element.lt x y = decide (ρ.val x < ρ.val y)
  le {x y : α} : ρ.carrier x → ρ.carrier y → Element.le x y = decide (ρ.val x ≤ ρ.val y)
  eq {x y : α} : ρ.carrier x → ρ.carrier y → Element.eq x y = decide (ρ.val x = ρ.val y)
  max {x y : α} : ρ.carrier x → ρ.carrier y →
    ρ.carrier (Element.max x y) ∧ ρ.val (Element.max x y) = Max.max (ρ.val x) (ρ.val y)
  min {x y : α} : ρ.carrier x → ρ.carrier y →
    ρ.carrier (Element.min x y) ∧ ρ.val (Element.min x y) = Min.min (ρ.val x) (ρ.val y)
  mask {x : α} (b : Bool) : ρ.carrier x →
    ρ.carrier (x * Element.mask b) ∧ ρ.val (x * Element.mask b) = if b then ρ.val x else 0

/-! ### Extremes -/

omit [LinearOrder R] in
/-- Keeping one of two elements that bounds both of them, one keeps an element that bounds all. -/
theorem foldl_extreme (pick : α → α → α) (bounds : R → R → Prop) (refl : ∀ x, bounds x x)
    (trans : ∀ {x y z}, bounds x y → bounds y z → bounds x z)
    (keeps : ∀ {x y}, ρ.carrier x → ρ.carrier y → ρ.carrier (pick x y) ∧
      (bounds (ρ.val (pick x y)) (ρ.val x) ∧ bounds (ρ.val (pick x y)) (ρ.val y)) ∧
      (ρ.val (pick x y) = ρ.val x ∨ ρ.val (pick x y) = ρ.val y))
    {x : α} (first : ρ.carrier x) {xs : List α} (all : ∀ y ∈ xs, ρ.carrier y) :
    ρ.carrier (xs.foldl pick x) ∧ (∀ y ∈ x :: xs, bounds (ρ.val (xs.foldl pick x)) (ρ.val y)) ∧
      ∃ y ∈ x :: xs, ρ.val y = ρ.val (xs.foldl pick x) := by
  induction xs generalizing x with
  | nil => exact ⟨first, by simpa using refl _, x, by simp, rfl⟩
  | cons z xs ih =>
    obtain ⟨second, all⟩ := List.forall_mem_cons.mp all
    obtain ⟨kept, ⟨left, right⟩, either⟩ := keeps first second
    obtain ⟨last, bound, y, mem, same⟩ := ih kept all
    have here := bound _ List.mem_cons_self
    rw [List.foldl_cons]
    refine ⟨last, ?_, ?_⟩
    · intro w mem
      rcases List.mem_cons.mp mem with rfl | mem
      · exact trans here left
      rcases List.mem_cons.mp mem with rfl | mem
      · exact trans here right
      · exact bound w (List.mem_cons_of_mem _ mem)
    · rcases List.mem_cons.mp mem with rfl | mem
      · rcases either with chosen | chosen
        · exact ⟨x, by simp, chosen.symm.trans same⟩
        · exact ⟨z, by simp, chosen.symm.trans same⟩
      · exact ⟨y, by simp [mem], same⟩

end Element.Reading

namespace Reduction

/-- The reductions that leave an element of the fibre. -/
def IsExtreme (r : Reduction) : Prop := r = max ∨ r = min

section Order

variable {R : Type} [LinearOrder R] {r : Reduction} {x y z : R}

/-- What a largest element is to the others, or a smallest one. -/
def Bounds (r : Reduction) (x y : R) : Prop := if r = max then y ≤ x else x ≤ y

theorem Bounds.refl (r : Reduction) (x : R) : r.Bounds x x := by
  unfold Bounds
  split <;> exact le_rfl

theorem Bounds.trans (first : r.Bounds x y) (second : r.Bounds y z) : r.Bounds x z := by
  unfold Bounds at *
  split
  next largest =>
    rw [if_pos largest] at first second
    exact second.trans first
  next smallest =>
    rw [if_neg smallest] at first second
    exact first.trans second

theorem Bounds.antisymm (first : r.Bounds x y) (second : r.Bounds y x) : x = y := by
  unfold Bounds at *
  split at first
  next largest =>
    rw [if_pos largest] at second
    exact le_antisymm second first
  next smallest =>
    rw [if_neg smallest] at second
    exact le_antisymm first second

theorem Bounds.add [CommRing R] [IsOrderedRing R] (bounds : r.Bounds x y) (c : R) :
    r.Bounds (x + c) (y + c) := by
  unfold Bounds at *
  split
  next largest =>
    rw [if_pos largest] at bounds
    exact add_le_add_left bounds c
  next smallest =>
    rw [if_neg smallest] at bounds
    exact add_le_add_left bounds c

end Order

end Reduction

namespace Element.Reading

variable {α R : Type} [Element α] [CommRing R] [LinearOrder R] {type : StorageType}
variable {ρ : Element.Reading α R type} {n : Nat} {f : Nat → α}

theorem extreme_cons (compares : ρ.Compares) {r : Reduction} (extreme : r.IsExtreme) {x : α}
    (first : ρ.carrier x) {xs : List α} (all : ∀ y ∈ xs, ρ.carrier y) (dense : Bool) :
    ρ.carrier (Fibre.reduce r dense (x :: xs)) ∧
      (∀ y ∈ x :: xs, r.Bounds (ρ.val (Fibre.reduce r dense (x :: xs))) (ρ.val y)) ∧
      ∃ y ∈ x :: xs, ρ.val y = ρ.val (Fibre.reduce r dense (x :: xs)) := by
  rcases extreme with rfl | rfl
  · refine foldl_extreme Element.max Reduction.max.Bounds
      (Reduction.Bounds.refl _) Reduction.Bounds.trans (fun first second => ?_) first all
    obtain ⟨carried, value⟩ := compares.max first second
    rw [value]
    exact ⟨carried, ⟨le_max_left _ _, le_max_right _ _⟩, max_choice _ _⟩
  · refine foldl_extreme Element.min Reduction.min.Bounds
      (Reduction.Bounds.refl _) Reduction.Bounds.trans (fun first second => ?_) first all
    obtain ⟨carried, value⟩ := compares.min first second
    rw [value]
    exact ⟨carried, ⟨min_le_left _ _, min_le_right _ _⟩, min_choice _ _⟩

/-- The largest or smallest element of a fibre bounds its elements, and is one of them. -/
theorem extreme_range (compares : ρ.Compares) {r : Reduction} (extreme : r.IsExtreme) (some : 0 < n)
    (all : ∀ k < n, ρ.carrier (f k)) (dense : Bool) :
    ρ.carrier (Fibre.reduce r dense ((List.range n).map f)) ∧
      (∀ k < n, r.Bounds (ρ.val (Fibre.reduce r dense ((List.range n).map f))) (ρ.val (f k))) ∧
      ∃ k < n, ρ.val (f k) = ρ.val (Fibre.reduce r dense ((List.range n).map f)) := by
  have carried : ∀ y ∈ (List.range n).map f, ρ.carrier y :=
    List.forall_mem_map.mpr fun k mem => all k (List.mem_range.mp mem)
  have nonempty : (List.range n).map f ≠ [] := by simpa using Nat.ne_of_gt some
  have listed : ∀ k < n, f k ∈ (List.range n).map f := fun k small =>
    List.mem_map_of_mem (List.mem_range.mpr small)
  have taken : ∀ y ∈ (List.range n).map f, ∃ k < n, f k = y := fun y mem => by
    simpa using mem
  generalize (List.range n).map f = xs at *
  obtain ⟨x, rest, rfl⟩ := List.exists_cons_of_ne_nil nonempty
  obtain ⟨first, others⟩ := List.forall_mem_cons.mp carried
  obtain ⟨kept, bounds, y, mem, same⟩ := extreme_cons compares extreme first others dense
  obtain ⟨k, small, rfl⟩ := taken y mem
  exact ⟨kept, fun k small => bounds _ (listed k small), k, small, same⟩

theorem largest_range (compares : ρ.Compares) (some : 0 < n) (all : ∀ k < n, ρ.carrier (f k)) :
    ρ.carrier (Fibre.largest ((List.range n).map f)) :=
  (extreme_range compares (.inl rfl) some all true).1

/-! ### Rankings -/

/-- What the keys of a ranking stand for. -/
def rankOf (descending : Bool) (x : Nat → R) (k : Nat) : R := if descending then -x k else x k

/-- Elements are ranked by what they stand for. -/
theorem ranked_range (compares : ρ.Compares) (exact : ρ.Arithmetic) (descending : Bool)
    (all : ∀ k < n, ρ.carrier (f k)) :
    Ranked (rankOf descending fun k => ρ.val (f k))
      (((List.range n).map f).map (Fibre.rankingKey descending)) := by
  have key : ∀ k < n, ρ.carrier (Fibre.rankingKey descending (f k)) ∧
      ρ.val (Fibre.rankingKey descending (f k)) = rankOf descending (fun k => ρ.val (f k)) k := by
    intro k small
    cases descending with
    | true => exact exact.neg (all k small)
    | false => exact ⟨all k small, rfl⟩
  intro i hi j hj
  simp only [List.length_map, List.length_range] at hi hj
  obtain ⟨first, value⟩ := key i hi
  obtain ⟨second, value'⟩ := key j hj
  have number {x : α} (carried : ρ.carrier x) : Tensor.isNaN x = false := by
    simp [Tensor.isNaN, compares.eq carried carried]
  simp only [List.getElem_map, List.getElem_range]
  simp only [Tensor.ranksBefore, number first, number second, compares.lt second first, value,
    value', Bool.false_eq_true, if_false, ← decide_not, not_lt]

end Element.Reading

end ReverseMode
