import ReverseMode.Operator.Value
import ReverseMode.Proofs.Outcome
import ReverseMode.Proofs.Reading
import ReverseMode.Proofs.Rules

/-!
Arrays of matrices.

The extents of a matrix product, and what a function of the elements does to it: where sums of
products of images are images of sums of products, the product of images is the image of the
product.
-/

namespace ReverseMode

open scoped Element

/-- Extents of matrices: those in front, rows and columns. -/
theorem matrix_extents {extents : List Nat} (matrices : 2 ≤ extents.length) :
    extents =
      extents.take (extents.length - 2) ++ [backExtent extents 1, backExtent extents 0] := by
  obtain ⟨front, y, rfl⟩ := (List.eq_nil_or_concat extents).resolve_left (by
    rintro rfl
    simp at matrices)
  obtain ⟨front, x, rfl⟩ := (List.eq_nil_or_concat front).resolve_left (by
    rintro rfl
    simp at matrices)
  simp [backExtent]

namespace Shape

/-- Matrices that can be multiplied: the second one alone, or both in batches that combine. -/
def Multipliable (transA transB batched : Bool) (a b : Shape) : Prop :=
  ∃ front front' r m k k' n, a.extents = extents front ++ [m, k] ∧
    b.extents = extents front' ++ [k', n] ∧ (batched = false → front' = scalar) ∧
    (if transA then m else k) = (if transB then n else k') ∧ broadcast [front, front'] = .ok r

end Shape

/-- Matrices that can be multiplied are accepted. -/
theorem Operator.productRule_of {transA transB batched : Bool} {a b : Signature}
    {type : ElementType} (shapes : a.shape.Multipliable transA transB batched b.shape)
    (common : ElementType.common [a.type, b.type] = .ok type) :
    ∃ shape, productRule transA transB batched a b = .ok ⟨shape, type⟩ := by
  obtain ⟨front, front', r, m, k, k', n, left, right, single, inner, joined⟩ := shapes
  have ranks : a.shape.rank = front.rank + 2 ∧ b.shape.rank = front'.rank + 2 := by
    simp [Shape.rank, left, right]
  have back : a.shape.extentBack 0 = k ∧ a.shape.extentBack 1 = m ∧ b.shape.extentBack 0 = n ∧
      b.shape.extentBack 1 = k' := by
    simp [Shape.extentBack, left, right]
  have fronts : a.shape.extents.take (a.shape.extents.length - 2) = front.extents ∧
      b.shape.extents.take (b.shape.extents.length - 2) = front'.extents := by
    simp [left, right]
  have matrix : ¬((!batched && decide (b.shape.rank ≠ 2)) = true) := by
    cases batched with
    | true => simp
    | false =>
      rw [ranks.2, single rfl]
      decide
  let rows := if transA then a.shape.extentBack 0 else a.shape.extentBack 1
  let cols := if transB then b.shape.extentBack 1 else b.shape.extentBack 0
  have positive : ∀ e ∈ r.extents ++ [rows, cols], 0 < e := by
    intro e mem
    rcases List.mem_append.mp mem with mem | mem
    · exact r.positive e mem
    · rcases List.mem_pair.mp mem with rfl | rfl
      · cases transA <;> exact a.shape.extentBack_pos _
      · cases transB <;> exact b.shape.extentBack_pos _
  refine ⟨⟨_, positive⟩, ?_⟩
  unfold productRule
  dsimp only
  refine throw_unless.mpr ⟨by omega, throw_unless.mpr ⟨matrix, throw_unless.mpr ⟨?_, ?_⟩⟩⟩
  · rw [back.1, back.2.1, back.2.2.1, back.2.2.2]
    exact not_not.mpr inner
  · rw [fronts.1, fronts.2]
    exact bind_eq_ok.mpr ⟨_, Shape.ofNats_eq_ok.mpr rfl, bind_eq_ok.mpr ⟨_,
      Shape.ofNats_eq_ok.mpr rfl, bind_eq_ok.mpr ⟨r, joined, bind_eq_ok.mpr ⟨type, common,
        bind_eq_ok.mpr ⟨_, Shape.ofNats_eq_ok.mpr rfl, rfl⟩⟩⟩⟩⟩

/-- A position of matrices: one in front, a row and a column. -/
theorem mem_positions_matrix {front pos : List Nat} {m k : Nat} :
    pos ∈ positions (front ++ [m, k]) ↔
      ∃ p ∈ positions front, ∃ i < m, ∃ j < k, pos = p ++ [i, j] := by
  simp only [mem_positions]
  constructor
  · intro inside
    have p := List.forall₂_take_append pos front [m, k] inside
    have q := List.forall₂_drop_append pos front [m, k] inside
    obtain ⟨i, rest, row, q', cut⟩ := List.forall₂_cons_right_iff.mp q
    obtain ⟨j, last, column, q'', rfl⟩ := List.forall₂_cons_right_iff.mp q'
    obtain rfl := List.forall₂_nil_right_iff.mp q''
    refine ⟨_, p, i, row, j, column, ?_⟩
    rw [← cut, List.take_append_drop]
  · rintro ⟨p, inside, i, row, j, column, rfl⟩
    exact List.rel_append inside (.cons row (.cons column .nil))

namespace Tensor

section Extents

variable {α : Type} {a : Tensor α} {front : List Nat} {m k : Nat}

/-- The last extents of an array of matrices. -/
theorem last_extents (is : a.shape = front ++ [m, k]) :
    a.rank = front.length + 2 ∧ a.extent (a.rank - 2) = m ∧ a.extent (a.rank - 1) = k := by
  have rank : a.rank = front.length + 2 := by simp [Tensor.rank, is]
  refine ⟨rank, ?_, ?_⟩ <;> simp [Tensor.extent, rank, is]

theorem batch_eq (is : a.shape = front ++ [m, k]) : a.batch = front := by
  rw [batch, (last_extents is).1, is]
  simp

theorem shape_swapLast [Inhabited α] (is : a.shape = front ++ [m, k]) :
    a.swapLast.shape = front ++ [k, m] := by
  obtain ⟨rank, rows, columns⟩ := last_extents is
  have kept : (List.range (a.rank - 2)).map a.extent = front := by
    rw [rank, Nat.add_sub_cancel]
    refine List.ext_getElem (by simp) fun i _ bound => ?_
    simp [Tensor.extent, is, List.getElem?_append_left bound, List.getElem?_eq_getElem bound]
  change (List.range (a.rank - 2) ++ [a.rank - 1, a.rank - 2]).map a.extent = _
  rw [List.map_append, kept, List.map_cons, List.map_cons, List.map_nil, rows, columns]

/-- Where a permuted array is read. -/
theorem permute_mem {axes pos : List Nat} (all : ∀ x < a.rank, x ∈ axes)
    (inside : pos ∈ positions (axes.map a.extent)) :
    ((List.range a.rank).map fun x => pos.getD (axes.idxOf x) 0) ∈ positions a.shape := by
  obtain ⟨length, below⟩ := List.forall₂_iff_get.mp (mem_positions.mp inside)
  rw [List.length_map] at length
  refine mem_positions.mpr (List.forall₂_iff_get.mpr ⟨by simp [rank], fun x first second => ?_⟩)
  have bound : axes.idxOf x < axes.length := List.idxOf_lt_length_iff.mpr (all x second)
  have less := below (axes.idxOf x) (by omega) (by simpa using bound)
  simpa [List.getElem?_eq_getElem (length ▸ bound), extent,
    List.getElem?_eq_getElem second] using less

end Extents

section Products

variable {α : Type} [Element α] {a b : Tensor α} {front front' r : List Nat} {m k n : Nat}

/-- An operand of a product, its last axes exchanged or not. -/
def operand (exchanged : Bool) (a : Tensor α) : Tensor α := if exchanged then a.swapLast else a

theorem operand_eq (exchanged : Bool) (is : a.shape = front ++ [m, k]) :
    Operator.operand exchanged a = .ok (a.operand exchanged) := by
  cases exchanged with
  | false => rfl
  | true =>
    change Operator.transposed a = .ok a.swapLast
    rw [Operator.transposed, if_neg (by have := (last_extents is).1; omega)]

theorem shape_operand (exchanged : Bool) (is : a.shape = front ++ [m, k]) :
    (a.operand exchanged).shape =
      front ++ [if exchanged then k else m, if exchanged then m else k] := by
  cases exchanged with
  | false => exact is
  | true => exact shape_swapLast is

/-- The product of matrices, element by element. -/
theorem product_eq (left : a.shape = front ++ [m, k]) (right : b.shape = front' ++ [k, n])
    (joined : broadcast? [front, front'] = some r) :
    a.product b = .ok (.ofFn (r ++ [m, n]) fun pos =>
      Element.dot (a.row (pos.take r.length) (pos.getD r.length 0))
        (b.col (pos.take r.length) (pos.getD (r.length + 1) 0))) := by
  obtain ⟨rankA, rowsA, columnsA⟩ := last_extents left
  obtain ⟨rankB, rowsB, columnsB⟩ := last_extents right
  let p : Tensor α := .ofFn (r ++ [m, n]) fun pos =>
    Element.dot (a.row (pos.take r.length) (pos.getD r.length 0))
      (b.col (pos.take r.length) (pos.getD (r.length + 1) 0))
  have made : a.matrixProduct b = .ok p := by
    unfold Tensor.matrixProduct
    rw [rowsA, columnsA, rowsB, columnsB, batch_eq left, batch_eq right, joined, if_neg (by simp)]
  have kept : p.shape.take (p.rank - 2) ++ [p.extent (p.rank - 2)] ++ [p.extent (p.rank - 1)] =
      p.shape := by
    obtain ⟨rank, rows, columns⟩ := last_extents (show p.shape = r ++ [m, n] from rfl)
    rw [rows, columns, rank]
    change (r ++ [m, n]).take _ ++ [m] ++ [n] = r ++ [m, n]
    simp
  have ranked : ¬(a.rank = 0 ∨ b.rank = 0) := by omega
  have matrices : a.rank ≠ 1 ∧ b.rank ≠ 1 := by omega
  unfold Tensor.product
  rw [if_neg ranked, if_neg matrices.1]
  refine bind_eq_ok.mpr ⟨a, rfl, ?_⟩
  dsimp only
  rw [if_neg matrices.2]
  refine bind_eq_ok.mpr ⟨b, rfl, bind_eq_ok.mpr ⟨p, made, ?_⟩⟩
  have listed : (a.rank == 1) = false ∧ (b.rank == 1) = false := by
    simp [rankA, rankB]
  rw [listed.1, listed.2]
  exact (congrArg p.reshape kept).trans (Tensor.reshape_self p)

end Products

/-! ### Images -/

section Images

variable {α β : Type} [Element α] [Element β] {a b : Tensor α} {f g h : α → β}
  {front front' r p : List Nat} {m k n i : Nat}

theorem entry_map (is : a.shape = front ++ [m, k]) (f : α → β)
    (inside : clamp front p ∈ positions front) {i j : Nat} (row : i < m) (column : j < k) :
    (a.map f).entry p i j = f (a.entry p i j) := by
  have batch : (a.map f).batch = front := batch_eq is
  rw [entry, entry, batch, batch_eq is, get_map]
  rw [is]
  exact mem_positions_matrix.mpr ⟨_, inside, i, row, j, column, rfl⟩

theorem row_map (is : a.shape = front ++ [m, k]) (f : α → β)
    (inside : clamp front p ∈ positions front) (row : i < m) :
    (a.map f).row p i = (a.row p i).map f := by
  have columns : (a.map f).extent ((a.map f).rank - 1) = k := (last_extents is).2.2
  unfold Tensor.row
  rw [columns, (last_extents is).2.2, List.map_map]
  exact List.map_congr_left fun j mem => entry_map is f inside row (List.mem_range.mp mem)

theorem col_map (is : a.shape = front ++ [m, k]) (f : α → β)
    (inside : clamp front p ∈ positions front) {j : Nat} (column : j < k) :
    (a.map f).col p j = (a.col p j).map f := by
  have rows : (a.map f).extent ((a.map f).rank - 2) = m := (last_extents is).2.1
  unfold Tensor.col
  rw [rows, (last_extents is).2.1, List.map_map]
  exact List.map_congr_left fun i mem => entry_map is f inside (List.mem_range.mp mem) column

/-- The product of images is the image of the product. -/
theorem product_map (left : a.shape = front ++ [m, k]) (right : b.shape = front' ++ [k, n])
    (joined : broadcast? [front, front'] = some r) (inner : 0 < k)
    (dot : ∀ xs ys : List α, xs ≠ [] → ys ≠ [] →
      Element.dot (xs.map f) (ys.map g) = h (Element.dot xs ys)) :
    (a.map f).product (b.map g) = (a.product b).map (Tensor.map h) := by
  rw [product_eq (a := a.map f) (b := b.map g) left right joined, product_eq left right joined]
  refine congrArg Except.ok (ext_get rfl fun pos inside => ?_)
  have inside : pos ∈ positions (r ++ [m, n]) := inside
  rw [get_map h inside, get_ofFn inside, get_ofFn inside]
  obtain ⟨p, front, i, row, j, column, rfl⟩ := mem_positions_matrix.mp inside
  have length : p.length = r.length := (mem_positions.mp front).length_eq
  have cut : (p ++ [i, j]).take r.length = p := by rw [← length, List.take_left]
  have row' : (p ++ [i, j]).getD r.length 0 = i := by simp [← length]
  have column' : (p ++ [i, j]).getD (r.length + 1) 0 = j := by simp [← length]
  rw [cut, row', column', row_map left f (clamp_mem joined (by simp) front) row,
    col_map right g (clamp_mem joined (by simp) front) column, dot]
  · simp [Tensor.row, (last_extents left).2.2, Nat.ne_of_gt inner]
  · simp [Tensor.col, (last_extents right).2.1, Nat.ne_of_gt inner]

theorem permute_map {axes : List Nat} (all : ∀ x < a.rank, x ∈ axes) (f : α → β) :
    (a.map f).permute axes = (a.permute axes).map f := by
  refine ext_get rfl fun pos inside => ?_
  have inside : pos ∈ positions (axes.map a.extent) := inside
  rw [get_map f inside, permute, permute, get_ofFn inside]
  exact (get_ofFn inside).trans (get_map f (permute_mem all inside))

theorem swapLast_map (is : a.shape = front ++ [m, k]) (f : α → β) :
    (a.map f).swapLast = a.swapLast.map f := by
  have rank : (a.map f).rank = front.length + 2 := (last_extents is).1
  have bounds : a.rank = front.length + 2 := (last_extents is).1
  refine permute_map (fun x bound => ?_) f
  simp only [List.mem_append, List.mem_range, List.mem_cons, List.not_mem_nil, or_false]
  omega

/-- The operand of an image is the image of the operand. -/
theorem operand_map (exchanged : Bool) (is : a.shape = front ++ [m, k]) (f : α → β) :
    Operator.operand exchanged (a.map f) = .ok ((a.operand exchanged).map f) := by
  rw [operand_eq exchanged (a := a.map f) is]
  cases exchanged with
  | false => rfl
  | true => exact congrArg Except.ok (swapLast_map is f)

end Images

end Tensor

end ReverseMode
