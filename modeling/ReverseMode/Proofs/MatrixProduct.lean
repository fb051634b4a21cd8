import Mathlib.Tactic.Ring
import ReverseMode.Proofs.Additions
import ReverseMode.Proofs.Matrices
import ReverseMode.Proofs.RingElements

/-!
Matrix products and their backward step.

The sum of the products of a gradient with a product of matrices is a sum of products of three
entries. Grouped by the entries of one operand it is the sum of the products of that operand with
the gradient times the other operand turned, which is what the backward step adds. Exchanging the
axes of both operand and gradient, reading matrices for axes in front that combine, and summing the
gradient back over these axes leave such sums as they are, so that the step is adjoint to the
forward step in every setting.
-/

namespace ReverseMode

open scoped Element

/-! ### Positions of matrices -/

theorem Fits.append {front r : List Nat} (fits : Fits front r) (last : List Nat) :
    Fits (front ++ last) (r ++ last) := by
  refine ⟨by simpa using fits.length, fun j => ?_⟩
  by_cases inner : j < last.length
  · refine .inr ?_
    simp [backExtent, List.getD_eq_getElem?_getD, List.getElem?_append, inner]
  · have agree := fits.agree (j - last.length)
    simpa [backExtent, List.getD_eq_getElem?_getD, List.getElem?_append, inner] using agree

/-- The matrix is read for a position in front, its own places where they are. -/
theorem clamp_matrix {front r p : List Nat} (fits : Fits front r) (inside : p ∈ positions r)
    {m k i j : Nat} (row : i < m) (column : j < k) :
    Tensor.clamp (front ++ [m, k]) (p ++ [i, j]) = Tensor.clamp front p ++ [i, j] := by
  have length := (mem_positions_getD.mp inside).1
  have short := fits.length
  have cut : (p ++ [i, j]).drop ((p ++ [i, j]).length - (front ++ [m, k]).length) =
      p.drop (p.length - front.length) ++ [i, j] := by
    simp only [List.length_append, List.length_cons, List.length_nil]
    rw [Nat.add_sub_add_right, List.drop_append_of_le_length (by omega)]
  rw [Tensor.clamp, cut, List.zipWith_append (by simp; omega)]
  have last : List.zipWith (fun e i => if e = 1 then 0 else i) [m, k] [i, j] = [i, j] := by
    simp only [List.zipWith_cons_cons, List.zipWith_nil_right]
    congr 1
    · split <;> omega
    · congr 1
      split <;> omega
  rw [last]
  rfl

/-- A sum over the places of matrices. -/
theorem sum_places_matrix {R : Type} [AddCommMonoid R] (front : List Nat) (m k : Nat)
    (f : List Nat → R) : ∑ q ∈ places (front ++ [m, k]), f q =
      ∑ p ∈ places front, ∑ i ∈ Finset.range m, ∑ j ∈ Finset.range k, f (p ++ [i, j]) := by
  have image : places (front ++ [m, k]) =
      (places front ×ˢ Finset.range m ×ˢ Finset.range k).image
        fun x => x.1 ++ [x.2.1, x.2.2] := by
    ext q
    simp only [mem_places, mem_positions_matrix, Finset.mem_image, Finset.mem_product,
      Finset.mem_range, Prod.exists]
    constructor
    · rintro ⟨p, inside, i, row, j, column, rfl⟩
      exact ⟨p, i, j, ⟨inside, row, column⟩, rfl⟩
    · rintro ⟨p, i, j, ⟨inside, row, column⟩, rfl⟩
      exact ⟨p, inside, i, row, j, column, rfl⟩
  rw [image, Finset.sum_image, Finset.sum_product]
  · exact Finset.sum_congr rfl fun p _ => Finset.sum_product ..
  · rintro ⟨p, i, j⟩ _ ⟨p', i', j'⟩ _ same
    obtain ⟨rfl, last⟩ := List.append_inj' same rfl
    cases last
    rfl

namespace Tensor

section Operands

variable {α : Type} [Element α] {a : Tensor α} {front p : List Nat} {m k i j : Nat}

theorem idxOf_swapped (n : Nat) : (∀ x < n, (List.range n ++ [n + 1, n]).idxOf x = x) ∧
    (List.range n ++ [n + 1, n]).idxOf n = n + 1 ∧
    (List.range n ++ [n + 1, n]).idxOf (n + 1) = n := by
  refine ⟨fun x bound => ?_, ?_, ?_⟩
  · have inside : x ∈ List.range n := List.mem_range.mpr bound
    rw [List.idxOf_append_of_mem inside]
    have place := List.getElem_idxOf (List.idxOf_lt_length_iff.mpr inside)
    rwa [List.getElem_range] at place
  · rw [List.idxOf_append_of_notMem (by simp)]
    simp
  · rw [List.idxOf_append_of_notMem (by simp)]
    simp

/-- Where the last axes are exchanged, so are the last coordinates. -/
theorem get_swapLast (is : a.shape = front ++ [m, k]) (inside : p ∈ positions front) (row : i < k)
    (column : j < m) : a.swapLast.get (p ++ [i, j]) = a.get (p ++ [j, i]) := by
  have rank : a.rank = front.length + 2 := (last_extents is).1
  have length := (mem_positions_getD.mp inside).1
  have placed : p ++ [i, j] ∈ positions a.swapLast.shape := by
    rw [shape_swapLast is]
    exact mem_positions_matrix.mpr ⟨p, inside, i, row, j, column, rfl⟩
  have axes : List.range (a.rank - 2) ++ [a.rank - 1, a.rank - 2] =
      List.range p.length ++ [p.length + 1, p.length] := by
    rw [rank, length]
    rfl
  obtain ⟨first, last, last'⟩ := idxOf_swapped p.length
  refine (get_ofFn placed).trans (congrArg a.get ?_)
  rw [axes, rank, ← length]
  refine ext_getD (by simp) fun x bound => ?_
  have bound : x < p.length + 2 := by simpa using bound
  rw [getD_map_range _ _ bound]
  rcases Nat.lt_or_ge x p.length with inner | outer
  · simp [first x inner, List.getElem?_append, inner]
  · obtain rfl | rfl : x = p.length ∨ x = p.length + 1 := by omega
    · simp [last]
    · simp [last']

/-- The extents of a matrix of `m` rows and `k` columns before its axes are exchanged. -/
def unexchanged (exchanged : Bool) (m k : Nat) : List Nat :=
  [if exchanged then k else m, if exchanged then m else k]

theorem shape_exchanged {exchanged : Bool} (is : a.shape = front ++ unexchanged exchanged m k) :
    (a.operand exchanged).shape = front ++ [m, k] := by
  cases exchanged with
  | false => exact is
  | true => exact shape_swapLast is

/-- The matrices of an operand are those of the array, exchanged or not. -/
theorem entry_operand (exchanged : Bool) (is : a.shape = front ++ unexchanged exchanged m k)
    (inside : clamp front p ∈ positions front) (row : i < m) (column : j < k) :
    (a.operand exchanged).entry p i j = if exchanged then a.entry p j i else a.entry p i j := by
  cases exchanged with
  | false => rfl
  | true =>
    have is : a.shape = front ++ [k, m] := is
    change a.swapLast.entry p i j = a.entry p j i
    rw [Tensor.entry, Tensor.entry, batch_eq is, batch_eq (shape_swapLast is)]
    exact get_swapLast is inside row column

end Operands

end Tensor

/-! ### Products read in a ring -/

namespace Element.Reading

open Tensor

variable {α R : Type} [Element α] [CommRing R] {type : StorageType}
variable {ρ : Element.Reading α R type} {a b : Tensor α} {front front' r : List Nat} {m k n : Nat}

theorem Dots.range (dots : ρ.Dots) {f h : Nat → α} (some : 0 < k)
    (read : ∀ l < k, ρ.carrier (f l) ∧ ρ.carrier (h l)) :
    ρ.carrier (Element.dot ((List.range k).map f) ((List.range k).map h)) ∧
      ρ.val (Element.dot ((List.range k).map f) ((List.range k).map h)) =
        ∑ l ∈ Finset.range k, ρ.val (f l) * ρ.val (h l) := by
  have same : ((List.range k).map f).length = ((List.range k).map h).length := by simp
  obtain ⟨carried, total⟩ := dots same (by simp; omega)
    (List.forall_mem_map.mpr fun l mem => (read l (List.mem_range.mp mem)).1)
    (List.forall_mem_map.mpr fun l mem => (read l (List.mem_range.mp mem)).2)
  refine ⟨carried, total.trans ?_⟩
  rw [List.zipWith_map, List.zipWith_self, ← List.sum_toFinset _ List.nodup_range,
    List.toFinset_range]

/-- The matrices of an array are read where the array is. -/
theorem Holds.matrix (holds : ρ.Holds a) (is : a.shape = front ++ [m, k]) {p : List Nat}
    (inside : Tensor.clamp front p ∈ positions front) {i j : Nat} (row : i < m) (column : j < k) :
    ρ.carrier (a.entry p i j) := by
  rw [Tensor.entry, batch_eq is]
  refine holds _ ?_
  rw [is]
  exact mem_positions_matrix.mpr ⟨_, inside, i, row, j, column, rfl⟩

theorem Holds.operand (exchanged : Bool) (holds : ρ.Holds a) (is : a.shape = front ++ [m, k]) :
    ρ.Holds (a.operand exchanged) := by
  cases exchanged with
  | false => exact holds
  | true =>
    intro q placed
    have placed : q ∈ positions a.swapLast.shape := placed
    rw [shape_swapLast is] at placed
    obtain ⟨p, inside, i, row, j, column, rfl⟩ := mem_positions_matrix.mp placed
    change ρ.carrier (a.swapLast.get _)
    rw [get_swapLast is inside row column]
    refine holds _ ?_
    rw [is]
    exact mem_positions_matrix.mpr ⟨p, inside, j, column, i, row, rfl⟩

/-- The product of arrays of matrices, entry by entry. -/
theorem product (dots : ρ.Dots) (first : ρ.Holds a) (second : ρ.Holds b)
    (left : a.shape = front ++ [m, k]) (right : b.shape = front' ++ [k, n])
    (joined : broadcast? [front, front'] = some r) (inner : 0 < k) :
    ∃ c, a.product b = .ok c ∧ c.shape = r ++ [m, n] ∧ ρ.Holds c ∧
      ∀ p ∈ positions r, ∀ i < m, ∀ j < n, ρ.entry c (p ++ [i, j]) =
        ∑ l ∈ Finset.range k, ρ.val (a.entry p i l) * ρ.val (b.entry p l j) := by
  have multiplied := product_eq left right joined
  have entries : ∀ p ∈ positions r, ∀ i < m, ∀ j < n,
      ρ.carrier (Element.dot (a.row p i) (b.col p j)) ∧
        ρ.val (Element.dot (a.row p i) (b.col p j)) =
          ∑ l ∈ Finset.range k, ρ.val (a.entry p i l) * ρ.val (b.entry p l j) := by
    intro p inside i row j column
    have here : Tensor.clamp front p ∈ positions front := clamp_mem joined (by simp) inside
    have there : Tensor.clamp front' p ∈ positions front' := clamp_mem joined (by simp) inside
    rw [Tensor.row, Tensor.col, (last_extents left).2.2, (last_extents right).2.1]
    exact dots.range inner fun l bound =>
      ⟨first.matrix left here row bound, second.matrix right there bound column⟩
  have cut : ∀ p ∈ positions r, ∀ i j, (p ++ [i, j]).take r.length = p ∧
      (p ++ [i, j]).getD r.length 0 = i ∧ (p ++ [i, j]).getD (r.length + 1) 0 = j := by
    intro p inside i j
    have length := (mem_positions_getD.mp inside).1
    refine ⟨?_, ?_, ?_⟩
    · rw [← length, List.take_left]
    all_goals simp [← length]
  refine ⟨_, multiplied, rfl, holds_ofFn fun q placed => ?_, fun p inside i row j column => ?_⟩
  · obtain ⟨p, inside, i, row, j, column, rfl⟩ := mem_positions_matrix.mp placed
    obtain ⟨batch, place, place'⟩ := cut p inside i j
    rw [batch, place, place']
    exact (entries p inside i row j column).1
  · obtain ⟨batch, place, place'⟩ := cut p inside i j
    rw [entry_ofFn (mem_positions_matrix.mpr ⟨p, inside, i, row, j, column, rfl⟩), batch, place,
      place']
    exact (entries p inside i row j column).2

/-! ### The steps -/

section Steps

variable {g : Tensor α} {transA transB : Bool} {c : Float}

/-- The products of entries that belong together in the product of `a` and `b` and at a place of
it. -/
def triple (ρ : Element.Reading α R type) (r : List Nat) (m k n : Nat) (g a b : Tensor α) : R :=
  ∑ p ∈ places r, ∑ i ∈ Finset.range m, ∑ j ∈ Finset.range n, ∑ l ∈ Finset.range k,
    ρ.entry g (p ++ [i, j]) * (ρ.val (a.entry p i l) * ρ.val (b.entry p l j))

/-- The products grouped by the entries of the first array. -/
theorem triple_first (ρ : Element.Reading α R type) (g a b : Tensor α) : ρ.triple r m k n g a b =
    ∑ p ∈ places r, ∑ i ∈ Finset.range m, ∑ l ∈ Finset.range k,
      (∑ j ∈ Finset.range n, ρ.entry g (p ++ [i, j]) * ρ.val (b.entry p l j)) *
        ρ.val (a.entry p i l) := by
  refine Finset.sum_congr rfl fun p _ => Finset.sum_congr rfl fun i _ => ?_
  rw [Finset.sum_comm]
  refine Finset.sum_congr rfl fun l _ => ?_
  rw [Finset.sum_mul]
  exact Finset.sum_congr rfl fun j _ => by ring

/-- The products grouped by the entries of the second array. -/
theorem triple_second (ρ : Element.Reading α R type) (g a b : Tensor α) : ρ.triple r m k n g a b =
    ∑ p ∈ places r, ∑ l ∈ Finset.range k, ∑ j ∈ Finset.range n,
      (∑ i ∈ Finset.range m, ρ.val (a.entry p i l) * ρ.entry g (p ++ [i, j])) *
        ρ.val (b.entry p l j) := by
  refine Finset.sum_congr rfl fun p _ => ?_
  calc ∑ i ∈ Finset.range m, ∑ j ∈ Finset.range n, ∑ l ∈ Finset.range k,
        ρ.entry g (p ++ [i, j]) * (ρ.val (a.entry p i l) * ρ.val (b.entry p l j))
      = ∑ i ∈ Finset.range m, ∑ l ∈ Finset.range k, ∑ j ∈ Finset.range n,
        ρ.entry g (p ++ [i, j]) * (ρ.val (a.entry p i l) * ρ.val (b.entry p l j)) :=
        Finset.sum_congr rfl fun i _ => Finset.sum_comm
    _ = ∑ l ∈ Finset.range k, ∑ i ∈ Finset.range m, ∑ j ∈ Finset.range n,
        ρ.entry g (p ++ [i, j]) * (ρ.val (a.entry p i l) * ρ.val (b.entry p l j)) :=
        Finset.sum_comm
    _ = _ := by
        refine Finset.sum_congr rfl fun l _ => ?_
        rw [Finset.sum_comm]
        refine Finset.sum_congr rfl fun j _ => ?_
        rw [Finset.sum_mul]
        exact Finset.sum_congr rfl fun i _ => by ring

/-- An array multiplied with a number. -/
theorem Holds.scaled {t : Tensor α} (holds : ρ.Holds t) (factor : ρ.carrier (Element.real c)) :
    ρ.Holds (t.map fun x => x * Element.real c) ∧ ∀ q ∈ positions t.shape,
      ρ.entry (t.map fun x => x * Element.real c) q = ρ.entry t q * ρ.val (Element.real c) := by
  constructor
  · intro q inside
    have inside : q ∈ positions t.shape := inside
    rw [get_map _ inside]
    exact (ρ.mul (holds q inside) factor).1
  · intro q inside
    rw [entry, get_map _ inside]
    exact (ρ.mul (holds q inside) factor).2

/-- The matrix read for a position of the extents in front is the one there. -/
theorem entry_matrix {t : Tensor α} (is : t.shape = r ++ [m, n]) {p : List Nat}
    (inside : p ∈ positions r) (i j : Nat) : ρ.val (t.entry p i j) = ρ.entry t (p ++ [i, j]) := by
  rw [Tensor.entry, batch_eq is, clamp_self inside]
  rfl

/-- Exchanging the axes of both arrays leaves the sum of their products as it is. -/
theorem sum_operand {exchanged : Bool} {u d : Tensor α} (is : u.shape = r ++ [m, k])
    (along : d.shape = front ++ unexchanged exchanged m k) (fits : Fits front r) :
    ∑ q ∈ places (u.operand exchanged).shape,
        ρ.entry (u.operand exchanged) q * ρ.val (d.read q) =
      ∑ p ∈ places r, ∑ i ∈ Finset.range m, ∑ l ∈ Finset.range k,
        ρ.entry u (p ++ [i, l]) * ρ.val ((d.operand exchanged).entry p i l) := by
  have here : ∀ p ∈ places r, Tensor.clamp front p ∈ positions front := fun p mem =>
    clamp_mem fits.broadcast (by simp) (mem_places.mp mem)
  cases exchanged with
  | false =>
    have along : d.shape = front ++ [m, k] := along
    change ∑ q ∈ places u.shape, ρ.entry u q * ρ.val (d.read q) = _
    rw [is, sum_places_matrix]
    refine Finset.sum_congr rfl fun p mem => Finset.sum_congr rfl fun i row =>
      Finset.sum_congr rfl fun l column => ?_
    rw [Tensor.read, along, clamp_matrix fits (mem_places.mp mem) (Finset.mem_range.mp row)
      (Finset.mem_range.mp column), ← batch_eq along]
    rfl
  | true =>
    have along : d.shape = front ++ [k, m] := along
    change ∑ q ∈ places u.swapLast.shape, ρ.entry u.swapLast q * ρ.val (d.read q) = _
    rw [shape_swapLast is, sum_places_matrix]
    refine Finset.sum_congr rfl fun p mem => ?_
    rw [Finset.sum_comm]
    refine Finset.sum_congr rfl fun i row => Finset.sum_congr rfl fun l column => ?_
    have row := Finset.mem_range.mp row
    have column := Finset.mem_range.mp column
    rw [Tensor.read, along, clamp_matrix fits (mem_places.mp mem) column row, entry,
      get_swapLast is (mem_places.mp mem) column row,
      entry_operand true along (here p mem) row column, ← batch_eq along]
    rfl

variable (dots : ρ.Dots) (factor : ρ.carrier (Element.real c)) (first : ρ.Holds a)
  (second : ρ.Holds b) (left : a.shape = front ++ unexchanged transA m k)
  (right : b.shape = front' ++ unexchanged transB k n)
  (joined : broadcast? [front, front'] = some r)

include dots factor first second left right joined

/-- The forward step: every matrix of the output is the scaled product of the matrices that are read
for it. -/
theorem matMul_forward (inner : 0 < k) (batched : Bool) :
    ∃ y, (Operator.matMul transA transB c batched).forward type (r ++ [m, n]) [a, b] = .ok y ∧
      y.shape = r ++ [m, n] ∧ ρ.Holds y ∧ ∀ p ∈ positions r, ∀ i < m, ∀ j < n,
        ρ.entry y (p ++ [i, j]) = (∑ l ∈ Finset.range k, ρ.val ((a.operand transA).entry p i l) *
          ρ.val ((b.operand transB).entry p l j)) * ρ.val (Element.real c) := by
  obtain ⟨u, multiplied, extents, holds, entries⟩ := product dots (first.operand transA left)
    (second.operand transB right) (shape_exchanged left) (shape_exchanged right) joined inner
  obtain ⟨scaled, scales⟩ := holds.scaled factor
  obtain ⟨y, stored, same, read, keeps⟩ := scaled.assign
  refine ⟨y, ?_, same.trans extents, read, fun p inside i row j column => ?_⟩
  · refine bind_eq_ok.mpr ⟨u.map fun x => x * Element.real c, ?_, ?_⟩
    · refine bind_eq_ok.mpr ⟨(a, b), rfl, ?_⟩
      refine bind_eq_ok.mpr ⟨_, operand_eq transA left, ?_⟩
      refine bind_eq_ok.mpr ⟨_, operand_eq transB right, ?_⟩
      exact bind_eq_ok.mpr ⟨u, multiplied, rfl⟩
    · rw [← extents]
      exact stored
  · have placed : p ++ [i, j] ∈ positions u.shape :=
      extents ▸ mem_positions_matrix.mpr ⟨p, inside, i, row, j, column, rfl⟩
    rw [keeps _ placed, scales _ placed, entries p inside i row j column]

/-- The products of an array with the output of the forward step. -/
theorem matMul_pairing (inner : 0 < k) (batched : Bool) (extents : g.shape = r ++ [m, n]) :
    ∃ y, (Operator.matMul transA transB c batched).forward type (r ++ [m, n]) [a, b] = .ok y ∧
      y.shape = g.shape ∧ ρ.pairing g y =
        ρ.triple r m k n g (a.operand transA) (b.operand transB) * ρ.val (Element.real c) := by
  obtain ⟨y, ran, shape, -, entries⟩ :=
    matMul_forward dots factor first second left right joined inner batched
  refine ⟨y, ran, shape.trans extents.symm, ?_⟩
  rw [pairing, extents, sum_places_matrix, triple]
  simp only [Finset.sum_mul]
  refine Finset.sum_congr rfl fun p mem => Finset.sum_congr rfl fun i row =>
    Finset.sum_congr rfl fun j column => ?_
  rw [entries p (mem_places.mp mem) i (Finset.mem_range.mp row) j (Finset.mem_range.mp column),
    ← mul_assoc, Finset.mul_sum, Finset.sum_mul]

end Steps

section Slots

variable {g u : Tensor α} {exchanged : Bool} {c : Float}

/-- A gradient of an operand, its axes exchanged back, adds the adjoint of a step whose products
with `g` are those of the gradient with the direction, exchanged or not. -/
theorem adjoint_operand (holds : ρ.Holds u) (is : u.shape = r ++ [m, k])
    (positive : ∀ e ∈ r ++ unexchanged exchanged m k, 0 < e) (fits : Fits front r)
    {along : Tensor α → Except Fault (Tensor α)}
    (forward : ∀ d : Tensor α, d.shape = front ++ unexchanged exchanged m k → ρ.Holds d →
      ∃ y, along d = .ok y ∧ y.shape = g.shape ∧ ρ.pairing g y =
        ∑ p ∈ places r, ∑ i ∈ Finset.range m, ∑ l ∈ Finset.range k,
          ρ.entry u (p ++ [i, l]) * ρ.val ((d.operand exchanged).entry p i l)) :
    ρ.AddsAdjoint (.dense (u.operand exchanged)) (front ++ unexchanged exchanged m k) g along := by
  have back : (u.operand exchanged).shape = r ++ unexchanged exchanged m k :=
    shape_operand exchanged is
  intro target same buffer
  have fits' : Fits target.shape (u.operand exchanged).shape := by
    rw [same, back]
    exact fits.append _
  obtain ⟨t, added, shape, sum, products⟩ :=
    accumulate buffer (holds.operand exchanged is) (back ▸ positive) fits'
  refine ⟨t, added, shape.trans same, sum, fun d extents direction => ?_⟩
  obtain ⟨y, ran, shape', paired⟩ := forward d extents direction
  refine ⟨y, ran, shape', ?_⟩
  rw [products d (extents.trans same.symm), paired, sum_operand is extents fits]

end Slots

section Backward

variable {g : Tensor α} {transA transB : Bool} {c : Float} (dots : ρ.Dots)
  (factor : ρ.carrier (Element.real c)) (gradient : ρ.Holds g)
  (left : a.shape = front ++ unexchanged transA m k)
  (right : b.shape = front' ++ unexchanged transB k n) (extents : g.shape = r ++ [m, n])
  (joined : broadcast? [front, front'] = some r) (positive : ∀ e ∈ r ++ [m, k, n], 0 < e)

/-- The gradient times the factor, matrix by matrix. -/
theorem Holds.scaled_matrix (gradient : ρ.Holds g) (factor : ρ.carrier (Element.real c))
    (extents : g.shape = r ++ [m, n]) {p : List Nat} (inside : p ∈ positions r) {i j : Nat}
    (row : i < m) (column : j < n) :
    ρ.val ((g.map fun x => x * Element.real c).entry p i j) =
      ρ.entry g (p ++ [i, j]) * ρ.val (Element.real c) := by
  have placed : p ++ [i, j] ∈ positions g.shape :=
    extents ▸ mem_positions_matrix.mpr ⟨p, inside, i, row, j, column, rfl⟩
  rw [entry_matrix (t := g.map _) extents inside, (gradient.scaled factor).2 _ placed]

include dots factor gradient left right extents joined positive

/-- The step for the first input: the gradient times the second operand turned, turned back. -/
theorem matMul_first (second : ρ.Holds b) (batched : Bool) : ∃ u : Tensor α,
    (do Operator.operand transA (← (g.map fun x => x * Element.real c).product
      (← Operator.transposed (← Operator.operand transB b)))) = .ok u ∧ ρ.Holds u ∧
    ρ.AddsAdjoint (.dense u) a.shape g fun da =>
      (Operator.matMul transA transB c batched).forward type (r ++ [m, n]) [da, b] := by
  have fits : Fits front r := .of_broadcast joined (by simp)
  have absorbs : broadcast? [r, front'] = some r := broadcast?_absorb joined (by simp)
  have matrices : (b.operand transB).shape = front' ++ [k, n] := shape_exchanged right
  have turned : ((b.operand transB).operand true).shape = front' ++ [n, k] :=
    shape_operand true matrices
  obtain ⟨u, multiplied, shape, holds, entries⟩ := product dots (gradient.scaled factor).1
    ((second.operand transB right).operand true matrices) extents turned absorbs
    (positive n (by simp))
  have made : (do Operator.operand transA (← (g.map fun x => x * Element.real c).product
      (← Operator.transposed (← Operator.operand transB b)))) = .ok (u.operand transA) := by
    refine bind_eq_ok.mpr ⟨_, operand_eq transB right, ?_⟩
    refine bind_eq_ok.mpr ⟨_, operand_eq true matrices, ?_⟩
    exact bind_eq_ok.mpr ⟨u, multiplied, operand_eq transA shape⟩
  refine ⟨_, made, holds.operand transA shape, left ▸ adjoint_operand holds shape ?_ fits ?_⟩
  · intro e mem
    refine positive e ?_
    cases transA <;> simp [unexchanged] at mem ⊢ <;> tauto
  · intro d along direction
    obtain ⟨y, ran, same, paired⟩ := matMul_pairing dots factor direction second along right joined
      (positive k (by simp)) batched extents
    refine ⟨y, ran, same, ?_⟩
    rw [paired, triple_first]
    simp only [Finset.sum_mul]
    refine Finset.sum_congr rfl fun p mem => Finset.sum_congr rfl fun i row =>
      Finset.sum_congr rfl fun l middle => ?_
    have inside := mem_places.mp mem
    have row := Finset.mem_range.mp row
    have middle := Finset.mem_range.mp middle
    have there : Tensor.clamp front' p ∈ positions front' := clamp_mem joined (by simp) inside
    rw [entries p inside i row l middle, Finset.sum_mul]
    refine Finset.sum_congr rfl fun j column => ?_
    have column := Finset.mem_range.mp column
    rw [entry_operand true matrices there column middle, if_pos rfl,
      gradient.scaled_matrix factor extents inside row column]
    ring

/-- The step for the second input: the first operand turned times the gradient, turned back. -/
theorem matMul_second (first : ρ.Holds a) (batched : Bool) : ∃ u : Tensor α,
    (do Operator.operand transB (← (← Operator.transposed (← Operator.operand transA a)).product
      (g.map fun x => x * Element.real c))) = .ok u ∧ ρ.Holds u ∧
    ρ.AddsAdjoint (.dense u) b.shape g fun db =>
      (Operator.matMul transA transB c batched).forward type (r ++ [m, n]) [a, db] := by
  have fits : Fits front' r := .of_broadcast joined (by simp)
  have absorbs : broadcast? [front, r] = some r :=
    (Fits.of_broadcast joined (by simp)).broadcast
  have matrices : (a.operand transA).shape = front ++ [m, k] := shape_exchanged left
  have turned : ((a.operand transA).operand true).shape = front ++ [k, m] :=
    shape_operand true matrices
  obtain ⟨u, multiplied, shape, holds, entries⟩ := product dots
    ((first.operand transA left).operand true matrices) (gradient.scaled factor).1 turned extents
    absorbs (positive m (by simp))
  have made : (do Operator.operand transB (← (← Operator.transposed
      (← Operator.operand transA a)).product (g.map fun x => x * Element.real c))) =
        .ok (u.operand transB) := by
    refine bind_eq_ok.mpr ⟨_, operand_eq transA left, ?_⟩
    refine bind_eq_ok.mpr ⟨_, operand_eq true matrices, ?_⟩
    exact bind_eq_ok.mpr ⟨u, multiplied, operand_eq transB shape⟩
  refine ⟨_, made, holds.operand transB shape, right ▸ adjoint_operand holds shape ?_ fits ?_⟩
  · intro e mem
    refine positive e ?_
    cases transB <;> simp [unexchanged] at mem ⊢ <;> tauto
  · intro d along direction
    obtain ⟨y, ran, same, paired⟩ := matMul_pairing dots factor first direction left along joined
      (positive k (by simp)) batched extents
    refine ⟨y, ran, same, ?_⟩
    rw [paired, triple_second]
    simp only [Finset.sum_mul]
    refine Finset.sum_congr rfl fun p mem => Finset.sum_congr rfl fun l middle =>
      Finset.sum_congr rfl fun j column => ?_
    have inside := mem_places.mp mem
    have middle := Finset.mem_range.mp middle
    have column := Finset.mem_range.mp column
    have here : Tensor.clamp front p ∈ positions front := clamp_mem joined (by simp) inside
    rw [entries p inside l middle j column, Finset.sum_mul]
    refine Finset.sum_congr rfl fun i row => ?_
    have row := Finset.mem_range.mp row
    rw [entry_operand true matrices here middle row, if_pos rfl,
      gradient.scaled_matrix factor extents inside row column]
    ring

end Backward

end Element.Reading

namespace Operator

open Element.Reading Tensor

variable {α R : Type} [Element α] [CommRing R] {type : StorageType} {ρ : Element.Reading α R type}
variable {transA transB batched : Bool} {c : Float} {sa sb s : Signature} {a b g : Tensor α}

omit [Element α] in
/-- Extents that a matrix product is inferred for: matrices that can be multiplied, and axes in
front that combine. -/
theorem matMul_extents (inferred : (matMul transA transB c batched : Operator α).infer [sa, sb] =
    .ok s) : ∃ (front front' r : List Nat) (m k n : Nat),
      sa.shape.extents = front ++ unexchanged transA m k ∧
      sb.shape.extents = front' ++ unexchanged transB k n ∧
      broadcast? [front, front'] = some r ∧ s.shape.extents = r ++ [m, n] := by
  obtain ⟨_, given, inferred⟩ := bind_eq_ok.mp inferred
  cases given
  obtain ⟨first, second, inner, ⟨r, joined, extents⟩, _⟩ := productRule_eq_ok inferred
  refine ⟨_, _, r, _, if transA then sa.shape.extentBack 1 else sa.shape.extentBack 0, _,
    (matrix_extents first).trans ?_, (matrix_extents second).trans ?_, joined, extents⟩
  · cases transA <;> rfl
  · rw [inner]
    cases transB <;> rfl

/-- The product of matrices, in every setting of exchanged axes and for all extents in front that
combine. The output has the inferred extents, and each of its entries is the scaled sum of products
of a row and a column of the matrices that are read for it. Each wanted input is given the adjoint
of the forward step along it, in a buffer that keeps its extents, and an input that is not wanted is
given nothing. Buffers of zeros then hold the derivative of the forward step. -/
theorem matMul_adjoint (inferred : (matMul transA transB c batched : Operator α).infer [sa, sb] =
      .ok s)
    (shapes : a.shape = sa.shape.extents ∧ b.shape = sb.shape.extents ∧ g.shape = s.shape.extents)
    (holds : ρ.Holds a ∧ ρ.Holds b ∧ ρ.Holds g) (dots : ρ.Dots)
    (factor : ρ.carrier (Element.real c)) :
    (∃ y, (matMul transA transB c batched).forward type s.shape.extents [a, b] = .ok y ∧
      y.shape = s.shape.extents ∧ ρ.Holds y ∧
      ∀ p i j, p ++ [i, j] ∈ positions s.shape.extents → ρ.entry y (p ++ [i, j]) =
        (∑ l ∈ Finset.range (if transA then sa.shape.extentBack 1 else sa.shape.extentBack 0),
          ρ.val (if transA then a.entry p l i else a.entry p i l) *
            ρ.val (if transB then b.entry p j l else b.entry p l j)) * ρ.val (Element.real c)) ∧
    ∃ ca cb,
      (∀ out wa wb, (matMul transA transB c batched).contributions [a, b] out g [wa, wb] =
        (if wa then [(0, .ok ca)] else []) ++ (if wb then [(1, .ok cb)] else [])) ∧
      (ρ.AddsAdjoint ca a.shape g fun da =>
        (matMul transA transB c batched).forward type s.shape.extents [da, b]) ∧
      (ρ.AddsAdjoint cb b.shape g fun db =>
        (matMul transA transB c batched).forward type s.shape.extents [a, db]) ∧
      ∃ ta tb, ca.addTo (.full a.shape (Element.store type (Element.whole 0))) = .ok ta ∧
        cb.addTo (.full b.shape (Element.store type (Element.whole 0))) = .ok tb ∧
        ta.shape = a.shape ∧ tb.shape = b.shape ∧
        ∀ da db : Tensor α, da.shape = a.shape → db.shape = b.shape → ρ.Holds da → ρ.Holds db →
          ∃ y y', (matMul transA transB c batched).forward type s.shape.extents [da, b] = .ok y ∧
            (matMul transA transB c batched).forward type s.shape.extents [a, db] = .ok y' ∧
            ρ.pairing g y + ρ.pairing g y' = ρ.pairing ta da + ρ.pairing tb db := by
  obtain ⟨front, front', r, m, k, n, left, right, joined, extents⟩ := matMul_extents inferred
  obtain ⟨first, second, third⟩ := shapes
  obtain ⟨read, read', gradient⟩ := holds
  rw [extents] at third
  have inner : (if transA then sa.shape.extentBack 1 else sa.shape.extentBack 0) = k := by
    cases transA <;> simp [Shape.extentBack, left, unexchanged]
  have positive : ∀ e ∈ r ++ [m, k, n], 0 < e := by
    have known : ∀ e ∈ r ++ [m, n], 0 < e := extents ▸ s.shape.positive
    have between : 0 < k := by
      rw [← inner]
      cases transA <;> exact sa.shape.extentBack_pos _
    simp only [List.mem_append, List.mem_cons, List.not_mem_nil, or_false] at known ⊢
    rintro e (mem | rfl | rfl | rfl)
    · exact known e (.inl mem)
    · exact known e (.inr (.inl rfl))
    · exact between
    · exact known e (.inr (.inr rfl))
  have left := first.trans left
  have right := second.trans right
  obtain ⟨ua, made, holds, adds⟩ := matMul_first dots factor gradient left right third joined
    positive read' batched
  obtain ⟨ub, made', holds', adds'⟩ := matMul_second dots factor gradient left right third joined
    positive read batched
  rw [← extents] at adds adds'
  refine ⟨?_, .dense ua, .dense ub, ?_, adds, adds', adds.both adds'⟩
  · obtain ⟨y, ran, shape, stored, entries⟩ := matMul_forward dots factor read read' left right
      joined (positive k (by simp)) batched
    rw [extents, inner]
    refine ⟨y, ran, shape, stored, fun p i j placed => ?_⟩
    obtain ⟨p', inside, i', row, j', column, same⟩ := mem_positions_matrix.mp placed
    obtain ⟨rfl, last⟩ := List.append_inj' same rfl
    cases last
    have here : clamp front p ∈ positions front := clamp_mem joined (by simp) inside
    have there : clamp front' p ∈ positions front' := clamp_mem joined (by simp) inside
    rw [entries p inside i row j column]
    congr 1
    refine Finset.sum_congr rfl fun l middle => ?_
    have middle := Finset.mem_range.mp middle
    rw [entry_operand transA left here row middle, entry_operand transB right there middle column]
  · intro out wa wb
    have operands : (do pure (← operand transA a, ← operand transB b)) =
        Except.ok (a.operand transA, b.operand transB) := by
      rw [operand_eq transA left, operand_eq transB right]
      rfl
    rw [operand_eq transB right] at made
    rw [operand_eq transA left] at made'
    rw [contributions, productContributions, operands]
    refine congrArg₂ (· ++ ·)
      ((congrArg (ifWanted [wa, wb] 0) (holds.asDense made)).trans ?_)
      ((congrArg (ifWanted [wa, wb] 1) (holds'.asDense made')).trans ?_)
    · cases wa <;> rfl
    · cases wb <;> rfl

end Operator

namespace Sample

open Operator

def leaflet : Signature := ⟨⟨[2, 3, 2], by decide⟩, .float64⟩

def spine : Signature := ⟨⟨[3, 1], by decide⟩, .float64⟩

def folios : Signature := ⟨⟨[2, 2, 1], by decide⟩, .float64⟩

/-- Two matrices whose axes are exchanged are multiplied with one column, and halved. -/
theorem leaflet_adjoint :
    (matMul true false 0.5 false : Operator ℚ).infer [leaflet, spine] = .ok folios ∧
    (Element.rationals .float64).Dots ∧ (Element.rationals .float64).carrier (Element.real 0.5) ∧
    ∃ ca cb, (matMul true false 0.5 false).contributions [numbered [2, 3, 2], numbered [3, 1]]
        (numbered [2, 2, 1]) (numbered [2, 2, 1]) [true, true] = [(0, .ok ca), (1, .ok cb)] ∧
      (matMul true false 0.5 false).contributions [numbered [2, 3, 2], numbered [3, 1]]
        (numbered [2, 2, 1]) (numbered [2, 2, 1]) [true, false] = [(0, .ok ca)] ∧
    ∃ ta tb, ca.addTo (.full [2, 3, 2] 0) = .ok ta ∧ cb.addTo (.full [3, 1] 0) = .ok tb ∧
      ta.shape = [2, 3, 2] ∧ tb.shape = [3, 1] ∧
      ∃ y y', (matMul true false 0.5 false).forward .float64 [2, 2, 1]
          [.full [2, 3, 2] 1, numbered [3, 1]] = .ok y ∧
        (matMul true false 0.5 false).forward .float64 [2, 2, 1]
          [numbered [2, 3, 2], .full [3, 1] 1] = .ok y' ∧
        (Element.rationals .float64).pairing (numbered [2, 2, 1]) y +
            (Element.rationals .float64).pairing (numbered [2, 2, 1]) y' =
          (Element.rationals .float64).pairing ta (.full [2, 3, 2] 1) +
            (Element.rationals .float64).pairing tb (.full [3, 1] 1) := by
  have inferred : (matMul true false 0.5 false : Operator ℚ).infer [leaflet, spine] = .ok folios :=
    rfl
  have dots : (Element.rationals .float64).Dots := Element.Reading.dots_ofRing .float64
  refine ⟨inferred, dots, trivial, ?_⟩
  obtain ⟨-, ca, cb, made, -, -, both⟩ := matMul_adjoint (a := numbered [2, 3, 2])
    (b := numbered [3, 1]) (g := numbered [2, 2, 1]) inferred ⟨rfl, rfl, rfl⟩
    ⟨fun _ _ => trivial, fun _ _ => trivial, fun _ _ => trivial⟩ dots trivial
  obtain ⟨ta, tb, added, added', extents, extents', derivative⟩ := both
  exact ⟨ca, cb, made _ true true, made _ true false, ta, tb, added, added', extents, extents',
    derivative (.full [2, 3, 2] 1) (.full [3, 1] 1) rfl rfl (fun _ _ => trivial)
      fun _ _ => trivial⟩

end Sample

end ReverseMode
