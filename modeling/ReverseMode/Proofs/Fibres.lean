import ReverseMode.Operator.Fibres
import ReverseMode.Proofs.Collapse

/-!
Fibres of arrays that are read in a ring.

Every position of an array is a place of one fibre along an axis: the one that starts where the
position has the first place of the axis. A sum over the positions is a sum over the fibres, and
what is made of fibres is made of functions of the places of the axis.
-/

namespace ReverseMode

open scoped Element

/-! ### Places along an axis -/

theorem getD_set {s : List Nat} {i : Nat} (bound : i < s.length) (x d l : Nat) :
    (s.set i x).getD l d = if l = i then x else s.getD l d := by
  rw [List.getD_eq_getElem?_getD, List.getElem?_set]
  by_cases here : i = l
  · subst here
    simp [bound]
  · simp [here, Ne.symm here]

section Axis

variable {s p q : List Nat} {i k : Nat}

/-- A position of a shape whose axis has been given an extent has a place of it on the axis. -/
theorem getD_lt_of_set {extent : Nat} (axial : i < s.length)
    (inside : q ∈ positions (s.set i extent)) : q.getD i 0 < extent := by
  have less := (mem_positions_getD.mp inside).2 i (by rwa [List.length_set])
  rwa [getD_set axial, if_pos rfl] at less

theorem fits_set (s : List Nat) (i : Nat) : Fits (s.set i 1) s :=
  .of_broadcast (broadcast?_set s i) (by simp)

/-- The fibre of a position starts at the first place of the axis. -/
theorem start_mem (inside : q ∈ positions s) : q.set i 0 ∈ positions (s.set i 1) :=
  Tensor.set_mem_positions inside Nat.one_pos

/-- The places of a fibre. -/
theorem place_mem (inside : p ∈ positions (s.set i 1)) (small : k < s.getD i 1) :
    p.set i k ∈ positions s := by
  have placed : (p.set i k) ∈ positions ((s.set i 1).set i (s.getD i 1)) :=
    Tensor.set_mem_positions inside small
  rwa [List.set_set, Tensor.set_getD] at placed

/-- A fibre starts at the first place of the axis. -/
theorem set_start (axial : i < s.length) (inside : p ∈ positions (s.set i 1)) :
    p.set i 0 = p := by
  have first := getD_lt_of_set axial inside
  have length : p.length = s.length := by simpa using (mem_positions_getD.mp inside).1
  refine ext_getD (by simp) fun l _ => ?_
  rw [getD_set (length.symm ▸ axial)]
  split
  next here =>
    subst here
    omega
  · rfl

/-- An array that is one wide on an axis is read where the fibre starts. -/
theorem clamp_set (axial : i < s.length) (inside : q ∈ positions s) :
    Tensor.clamp (s.set i 1) q = q.set i 0 := by
  obtain ⟨length, less⟩ := mem_positions_getD.mp inside
  have length' := Tensor.length_clamp (fits_set s i) length
  rw [List.length_set] at length'
  refine ext_getD (by rw [length', List.length_set, length]) fun l bound => ?_
  have bound : l < s.length := length' ▸ bound
  have less := less l bound
  rw [Tensor.getD_clamp (fits_set s i) length (by simpa using bound), List.length_set, Nat.sub_self,
    List.drop_zero, getD_set axial, getD_set (length.symm ▸ axial)]
  by_cases here : l = i
  · rw [if_pos here, if_pos rfl, if_pos here]
  · rw [if_neg here, if_neg here]
    split
    · omega
    · rfl

variable {R : Type} [AddCommMonoid R]

/-- A sum over the positions whose fibre starts at a place is one along the axis. -/
theorem sum_fibre (axial : i < s.length) (inside : p ∈ positions (s.set i 1))
    (f : List Nat → R) : ∑ q ∈ places s with Tensor.clamp (s.set i 1) q = p, f q =
      ∑ k ∈ Finset.range (s.getD i 1), f (p.set i k) := by
  have length : i < p.length := by
    have length := (mem_positions_getD.mp inside).1
    rw [List.length_set] at length
    exact length.symm ▸ axial
  have along : (places s).filter (fun q => Tensor.clamp (s.set i 1) q = p) =
      (Finset.range (s.getD i 1)).image fun k => p.set i k := by
    ext q
    simp only [Finset.mem_filter, mem_places, Finset.mem_image, Finset.mem_range]
    constructor
    · rintro ⟨placed, rfl⟩
      obtain ⟨length', less⟩ := mem_positions_getD.mp placed
      refine ⟨q.getD i 0, less i axial, ?_⟩
      rw [clamp_set axial placed, List.set_set]
      exact Tensor.set_getD q i 0
    · rintro ⟨k, small, rfl⟩
      have placed := place_mem inside small
      refine ⟨placed, ?_⟩
      rw [clamp_set axial placed, List.set_set, set_start axial inside]
  rw [along, Finset.sum_image]
  intro k _ k' _ same
  have place := congrArg (fun q => q.getD i 0) same
  simpa only [getD_set length, if_true] using place

/-- A sum over all positions is one over the fibres. -/
theorem sum_fibres (axial : i < s.length) (f : List Nat → R) : ∑ q ∈ places s, f q =
    ∑ p ∈ places (s.set i 1), ∑ k ∈ Finset.range (s.getD i 1), f (p.set i k) := by
  have leads : ∀ q ∈ places s, Tensor.clamp (s.set i 1) q ∈ places (s.set i 1) := by
    intro q mem
    rw [clamp_set axial (mem_places.mp mem), mem_places]
    exact start_mem (mem_places.mp mem)
  rw [← Finset.sum_fiberwise_of_maps_to leads]
  exact Finset.sum_congr rfl fun p mem => sum_fibre axial (mem_places.mp mem) f

end Axis

/-! ### What is made of fibres -/

namespace Tensor

section Fibre

variable {α β : Type} [Inhabited α] [Inhabited β] {t : Tensor α} {i : Nat} {p q : List Nat}

/-- Where fibres are replaced, each element is one of the list that its fibre is replaced by. -/
theorem get_mapAxisAt {e : Nat} {f : List Nat → List α → List β}
    (inside : q ∈ positions (t.shape.set i e)) : (t.mapAxisAt i e f).get q =
      (f (q.set i 0) (t.fibre i (q.set i 0))).getD (q.getD i 0) default := by
  have start : q.set i 0 ∈ positions (t.shape.set i 1) := by
    have start := start_mem (i := i) inside
    rwa [List.set_set] at start
  rw [mapAxisAt, get_ofFn inside, get_ofFn start, Array.getD_eq_getD_getElem?,
    List.getElem?_toArray]
  exact (List.getD_eq_getElem?_getD ..).symm

/-- The one element that is left of a fibre. -/
theorem get_leave {f : List Nat → List α → β} (axial : i < t.shape.length)
    (inside : p ∈ positions (t.shape.set i 1)) :
    (t.mapAxisAt i 1 fun p xs => [f p xs]).get p = f p (t.fibre i p) := by
  have first := getD_lt_of_set axial inside
  rw [get_mapAxisAt inside, set_start axial inside, Nat.lt_one_iff.mp first]
  rfl

/-- A fibre is what it has been replaced by. -/
theorem fibre_mapAxisAt {e : Nat} {f : List Nat → List α → List β} (axial : i < t.shape.length)
    (inside : p ∈ positions (t.shape.set i 1)) (length : (f p (t.fibre i p)).length = e) :
    (t.mapAxisAt i e f).fibre i p = f p (t.fibre i p) := by
  have extent : (t.mapAxisAt i e f).extent i = e := by
    change (t.shape.set i e).getD i 1 = e
    rw [getD_set axial, if_pos rfl]
  have within : i < p.length := by
    rw [(mem_positions_getD.mp inside).1, List.length_set]
    exact axial
  refine List.ext_getElem (by rw [fibre, List.length_map, List.length_range, extent, length])
    fun k bound bound' => ?_
  have small : k < e := length ▸ bound'
  have placed : p.set i k ∈ positions (t.shape.set i e) := by
    refine place_mem ?_ (by rwa [getD_set axial, if_pos rfl])
    rwa [List.set_set]
  have element : ((t.mapAxisAt i e f).fibre i p)[k] = (t.mapAxisAt i e f).get (p.set i k) := by
    simp only [fibre, List.getElem_map, List.getElem_range]
  rw [element, get_mapAxisAt placed, List.set_set, set_start axial inside, getD_set within,
    if_pos rfl, List.getD_eq_getElem?_getD, List.getElem?_eq_getElem bound', Option.getD_some]

end Fibre

variable {α β : Type} [Element α] [Element β] {t : Tensor α} {i : Nat} {p q : List Nat}

theorem get_mapFibres {f : List α → List β} (inside : q ∈ positions t.shape) :
    (t.mapFibres i f).get q = (f (t.fibre i (q.set i 0))).getD (q.getD i 0) default := by
  have same : t.shape.set i (t.extent i) = t.shape := set_getD t.shape i 1
  exact get_mapAxisAt (same.symm ▸ inside)

/-- An array that is one wide on an axis is read where fibres start. -/
theorem read_start {shape : List Nat} (axial : i < shape.length) (one : t.shape = shape.set i 1)
    (inside : q ∈ positions shape) : t.read q = t.get (q.set i 0) := by
  rw [Tensor.read, one, clamp_set axial inside]

/-- An array that is one wide on an axis, combined with one that is not. -/
theorem combine_set {u : Tensor α} (axial : i < u.shape.length) (one : t.shape = u.shape.set i 1)
    (h : α → α → β) : t.combine h u =
      .ok (.ofFn u.shape fun q => h (t.get (q.set i 0)) (u.get q)) := by
  have joined : broadcast? [t.shape, u.shape] = some u.shape := by
    rw [one]
    exact (fits_set u.shape i).broadcast
  rw [combine, joined]
  refine congrArg Except.ok (ext_get rfl fun q inside => ?_)
  have inside : q ∈ positions u.shape := inside
  rw [get_ofFn inside, get_ofFn inside, read_self inside, read_start axial one inside]

/-- An array combined with one that is one wide on an axis. -/
theorem combine_set_right {u : Tensor α} (axial : i < t.shape.length)
    (one : u.shape = t.shape.set i 1) (h : α → α → β) : t.combine h u =
      .ok (.ofFn t.shape fun q => h (t.get q) (u.get (q.set i 0))) := by
  have joined : broadcast? [t.shape, u.shape] = some t.shape := by
    rw [one]
    refine Fits.broadcast_all (List.mem_cons_self) ?_
    simp only [List.mem_cons, List.not_mem_nil, or_false]
    rintro s (rfl | rfl)
    · exact .refl _
    · exact fits_set _ i
  rw [combine, joined]
  refine congrArg Except.ok (ext_get rfl fun q inside => ?_)
  have inside : q ∈ positions t.shape := inside
  rw [get_ofFn inside, get_ofFn inside, read_self inside, read_start axial one inside]

/-- An array that is one wide on an axis, repeated along it. -/
theorem broadcastTo_set {shape : List Nat} (axial : i < shape.length)
    (one : t.shape = shape.set i 1) :
    t.broadcastTo shape = .ok (.ofFn shape fun q => t.get (q.set i 0)) := by
  have joined : broadcastsTo t.shape shape = true := by
    rw [broadcastsTo, one, (fits_set shape i).broadcast]
    exact decide_eq_true rfl
  rw [broadcastTo, if_pos joined]
  refine congrArg Except.ok (ext_get rfl fun q inside => ?_)
  have inside : q ∈ positions shape := inside
  rw [expand, get_ofFn inside, get_ofFn inside, read_start axial one inside]

end Tensor

namespace Element.Reading

open Tensor

variable {α R : Type} [Element α] [CommRing R] {type : StorageType}
variable {ρ : Element.Reading α R type} {t : Tensor α} {n : Nat} {f : Nat → α}

/-- The elements of fibres are read where the array is. -/
theorem Holds.fibre (holds : ρ.Holds t) {i k : Nat} {p : List Nat}
    (inside : p ∈ positions (t.shape.set i 1)) (small : k < t.extent i) :
    ρ.carrier (t.get (p.set i k)) := holds _ (place_mem inside small)

/-- The sum of a function of the places of an axis. -/
theorem total_range (some : 0 < n) (all : ∀ k < n, ρ.carrier (f k)) (dense : Bool) :
    ρ.carrier (Fibre.total dense ((List.range n).map f)) ∧
      ρ.val (Fibre.total dense ((List.range n).map f)) = ∑ k ∈ Finset.range n, ρ.val (f k) := by
  have nonempty : (List.range n).map f ≠ [] := by simpa using Nat.ne_of_gt some
  obtain ⟨carried, sum⟩ := ρ.total nonempty
    (List.forall_mem_map.mpr fun k mem => all k (List.mem_range.mp mem)) dense
  refine ⟨carried, sum.trans ?_⟩
  rw [List.map_map, ← List.sum_toFinset _ List.nodup_range, List.toFinset_range]
  rfl

end Element.Reading

end ReverseMode
