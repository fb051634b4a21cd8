import ReverseMode.Proofs.Additions
import ReverseMode.Proofs.Fibres

/-!
Arrays that represent functions.

An array whose elements are read in a ring represents a function of positions, and its fibres along
an axis represent functions of the places of the axis. What is computed from arrays, by combining
them or fibre by fibre, then represents what the formula says. So a formula of arrays is followed
step by step, and each step is told by the function that its result represents.
-/

namespace ReverseMode

open scoped Element

/-! ### Functions of fibres -/

section Along

variable {R : Type} {s p : List Nat} {i : Nat}

/-- A function of the fibres along an axis and of the places in them, as one of positions. -/
def fibrewise (i : Nat) (v : List Nat → Nat → R) (q : List Nat) : R := v (q.set i 0) (q.getD i 0)

theorem fibrewise_set (axial : i < s.length) (inside : p ∈ positions (s.set i 1))
    (v : List Nat → Nat → R) (k : Nat) : fibrewise i v (p.set i k) = v p k := by
  have length : i < p.length := by
    rw [(mem_positions_getD.mp inside).1, List.length_set]
    exact axial
  rw [fibrewise, List.set_set, set_start axial inside, getD_set length, if_pos rfl]

theorem width_pos (positive : ∀ e ∈ s, 0 < e) (axial : i < s.length) : 0 < s.getD i 1 := by
  rw [List.getD_eq_getElem?_getD, List.getElem?_eq_getElem axial, Option.getD_some]
  exact positive _ (List.getElem_mem axial)

/-- Every function of positions is one of fibres. -/
theorem fibrewise_self (v : List Nat → R) (q : List Nat) :
    fibrewise i (fun p k => v (p.set i k)) q = v q := by
  rw [fibrewise, List.set_set, Tensor.set_getD]

end Along

namespace Element.Reading

open Tensor

variable {α R : Type} [Element α] [CommRing R] {type : StorageType}
variable {ρ : Element.Reading α R type}

/-! ### Fibres -/

/-- A fibre of `n` elements that represents a function of its places. -/
structure Lists (ρ : Element.Reading α R type) (n : Nat) (v : Nat → R) (xs : List α) : Prop where
  length : xs.length = n
  carried : ∀ k < n, ρ.carrier (xs.getD k default)
  value : ∀ k < n, ρ.val (xs.getD k default) = v k

namespace Lists

variable {n : Nat} {v w : Nat → R} {xs : List α}

theorem range {f : Nat → α} (each : ∀ k < n, ρ.carrier (f k) ∧ ρ.val (f k) = v k) :
    ρ.Lists n v ((List.range n).map f) := by
  have element : ∀ k < n, ((List.range n).map f).getD k default = f k := fun k small => by
    simp [small]
  refine ⟨by simp, fun k small => ?_, fun k small => ?_⟩
  · rw [element k small]
    exact (each k small).1
  · rw [element k small]
    exact (each k small).2

theorem eq_range (lists : ρ.Lists n v xs) :
    xs = (List.range n).map fun k => xs.getD k default := by
  refine List.ext_getElem (by simp [lists.length]) fun k bound _ => ?_
  simp [bound]

/-- Where every element is replaced, the fibre represents what the elements are replaced by. -/
theorem map {h : α → α} (lists : ρ.Lists n v xs)
    (each : ∀ k < n, ∀ x, ρ.carrier x → ρ.val x = v k → ρ.carrier (h x) ∧ ρ.val (h x) = w k) :
    ρ.Lists n w (xs.map h) := by
  rw [lists.eq_range, List.map_map]
  exact range fun k small => each k small _ (lists.carried k small) (lists.value k small)

theorem total (lists : ρ.Lists n v xs) (some : 0 < n) (dense : Bool) :
    ρ.carrier (Fibre.total dense xs) ∧
      ρ.val (Fibre.total dense xs) = ∑ k ∈ Finset.range n, v k := by
  obtain ⟨carried, sum⟩ := ρ.total_range some lists.carried dense
  rw [← lists.eq_range] at carried sum
  refine ⟨carried, sum.trans (Finset.sum_congr rfl fun k mem => ?_)⟩
  exact lists.value k (Finset.mem_range.mp mem)

end Lists

/-! ### Arrays -/

/-- An array of some extents that represents a function of their positions. -/
structure Represents (ρ : Element.Reading α R type) (extents : List Nat) (v : List Nat → R)
    (t : Tensor α) : Prop where
  shape : t.shape = extents
  holds : ρ.Holds t
  entry : ∀ q ∈ positions extents, ρ.entry t q = v q

variable {s p q : List Nat} {i : Nat} {v w : List Nat → R} {t u : Tensor α}

theorem represents_ofFn {f : List Nat → α}
    (each : ∀ q ∈ positions s, ρ.carrier (f q) ∧ ρ.val (f q) = v q) :
    ρ.Represents s v (.ofFn s f) :=
  ⟨rfl, holds_ofFn fun q inside => (each q inside).1,
    fun q inside => (entry_ofFn inside).trans (each q inside).2⟩

/-- An array that is read represents the functions of places that its fibres are. -/
theorem Holds.fibrewise (holds : ρ.Holds t) (shape : t.shape = s) (i : Nat) :
    ρ.Represents s (fibrewise i fun p k => ρ.entry t (p.set i k)) t :=
  ⟨shape, holds, fun q _ => (fibrewise_self (ρ.entry t) q).symm⟩

/-- Any number of arrays combined element by element in some extents. -/
theorem represents_combineAll {f : List α → α} {ts : List (Tensor α)}
    (joined : broadcast? (ts.map Tensor.shape) = some s)
    (each : ∀ q ∈ positions s, ρ.carrier (f (ts.map fun t => t.read q)) ∧
      ρ.val (f (ts.map fun t => t.read q)) = v q) :
    ∃ c, combineAll f ts = .ok c ∧ ρ.Represents s v c := by
  refine ⟨.ofFn s fun q => f (ts.map fun t => t.read q), ?_, represents_ofFn each⟩
  rw [combineAll, joined]

/-- Two arrays combined element by element, each read in the extents of both. -/
theorem represents_combine {h : α → α → α} (z : R → R → R)
    (joined : broadcast? [t.shape, u.shape] = some s)
    (first : ∀ q ∈ positions s, ρ.carrier (t.read q) ∧ ρ.val (t.read q) = v q)
    (second : ∀ q ∈ positions s, ρ.carrier (u.read q) ∧ ρ.val (u.read q) = w q)
    (each : ∀ {x y}, ρ.carrier x → ρ.carrier y →
      ρ.carrier (h x y) ∧ ρ.val (h x y) = z (ρ.val x) (ρ.val y)) :
    ∃ c, t.combine h u = .ok c ∧ ρ.Represents s (fun q => z (v q) (w q)) c := by
  refine ⟨.ofFn s fun q => h (t.read q) (u.read q), ?_, represents_ofFn fun q inside => ?_⟩
  · rw [combine, joined]
  · obtain ⟨left, value⟩ := first q inside
    obtain ⟨right, value'⟩ := second q inside
    obtain ⟨carried, made⟩ := each left right
    exact ⟨carried, by rw [made, value, value']⟩

namespace Represents

theorem congr (represents : ρ.Represents s v t) (same : ∀ q ∈ positions s, v q = w q) :
    ρ.Represents s w t :=
  ⟨represents.shape, represents.holds,
    fun q inside => (represents.entry q inside).trans (same q inside)⟩

/-- An array that represents the same function has the same entries. -/
theorem alike (first : ρ.Represents s v t) (second : ρ.Represents s w u)
    (same : ∀ q ∈ positions s, w q = v q) : ρ.Represents s (ρ.entry t) u :=
  second.congr fun q inside => (same q inside).trans (first.entry q inside).symm

/-- An axis of the extents is one of the array. -/
theorem resolve (represents : ρ.Represents s v t) {axis : Axis}
    (resolved : axis.resolve s.length = .ok i) : axis.resolve t.rank = .ok i := by
  rwa [Tensor.rank, represents.shape]

/-- An array is read in extents that it fits. -/
theorem read (represents : ρ.Represents s v t) {r : List Nat} (fits : Fits s r)
    (inside : q ∈ positions r) :
    ρ.carrier (t.read q) ∧ ρ.val (t.read q) = v (Tensor.clamp s q) := by
  have placed : Tensor.clamp s q ∈ positions s := clamp_mem fits.broadcast (.head _) inside
  rw [Tensor.read, represents.shape]
  exact ⟨represents.holds _ (represents.shape.symm ▸ placed), represents.entry _ placed⟩

/-- An array is read in its own extents. -/
theorem here (represents : ρ.Represents s v t) (inside : q ∈ positions s) :
    ρ.carrier (t.read q) ∧ ρ.val (t.read q) = v q := by
  have read := represents.read (.refl s) inside
  rwa [clamp_self inside] at read

/-- An array that is one wide on an axis is read where fibres start. -/
theorem start (represents : ρ.Represents (s.set i 1) v t) (axial : i < s.length)
    (inside : q ∈ positions s) : ρ.carrier (t.read q) ∧ ρ.val (t.read q) = v (q.set i 0) := by
  have read := represents.read (fits_set s i) inside
  rwa [clamp_set axial inside] at read

/-- The fibres of an array represent functions of the places of the axis. -/
theorem fibre {v : List Nat → Nat → R} (represents : ρ.Represents s (fibrewise i v) t)
    (axial : i < s.length) (inside : p ∈ positions (s.set i 1)) :
    ρ.Lists (s.getD i 1) (v p) (t.fibre i p) := by
  rw [Tensor.fibre, Tensor.extent, represents.shape]
  refine .range fun k small => ?_
  have placed : p.set i k ∈ positions s := place_mem inside small
  refine ⟨represents.holds _ (represents.shape.symm ▸ placed), ?_⟩
  exact (represents.entry _ placed).trans (fibrewise_set axial inside v k)

/-- One element is left of every fibre. -/
theorem reduceAxis {f : List α → α} (shape : t.shape = s)
    (each : ∀ p ∈ positions (s.set i 1), ρ.carrier (f (t.fibre i p)) ∧
      ρ.val (f (t.fibre i p)) = v p) :
    ρ.Represents (s.set i 1) v (t.reduceAxis i f) := by
  subst shape
  exact represents_ofFn each

/-- The sums of fibres. -/
theorem total {v : List Nat → Nat → R} (represents : ρ.Represents s (fibrewise i v) t)
    (positive : ∀ e ∈ s, 0 < e) (axial : i < s.length) (dense : Bool) :
    ρ.Represents (s.set i 1) (fun p => ∑ k ∈ Finset.range (s.getD i 1), v p k)
      (t.reduceAxis i (Fibre.total dense)) :=
  .reduceAxis represents.shape fun _ inside =>
    (represents.fibre axial inside).total (width_pos positive axial) dense

/-- One element is left of every fibre, which may depend on where the fibre starts. -/
theorem leave {f : List Nat → List α → α} (shape : t.shape = s) (axial : i < s.length)
    (each : ∀ p ∈ positions (s.set i 1), ρ.carrier (f p (t.fibre i p)) ∧
      ρ.val (f p (t.fibre i p)) = v p) :
    ρ.Represents (s.set i 1) v (t.mapAxisAt i 1 fun p xs => [f p xs]) := by
  subst shape
  refine ⟨rfl, fun p inside => ?_, fun p inside => ?_⟩
  · rw [get_leave axial inside]
    exact (each p inside).1
  · rw [Element.Reading.entry, get_leave axial inside]
    exact (each p inside).2

/-- Every fibre is replaced, in a way that may depend on where the fibre starts. -/
theorem mapFibres {f : List Nat → List α → List α} {v w : List Nat → Nat → R}
    (represents : ρ.Represents s (fibrewise i v) t) (axial : i < s.length)
    (replaces : ∀ p ∈ positions (s.set i 1), ∀ xs, ρ.Lists (s.getD i 1) (v p) xs →
      ρ.Lists (s.getD i 1) (w p) (f p xs)) :
    ρ.Represents s (fibrewise i w) (t.mapFibresAt i f) := by
  have each : ∀ p ∈ positions (s.set i 1), ρ.Lists (s.getD i 1) (w p) (f p (t.fibre i p)) :=
    fun p inside => replaces p inside _ (represents.fibre axial inside)
  obtain rfl := represents.shape
  have same : t.shape.set i (t.extent i) = t.shape := set_getD t.shape i 1
  have element : ∀ q ∈ positions t.shape, (t.mapFibresAt i f).get q =
      (f (q.set i 0) (t.fibre i (q.set i 0))).getD (q.getD i 0) default :=
    fun q inside => get_mapAxisAt (same.symm ▸ inside)
  have small : ∀ q ∈ positions t.shape, q.getD i 0 < t.shape.getD i 1 :=
    fun q inside => (mem_positions_getD.mp inside).2 i axial
  refine ⟨same, fun q inside => ?_, fun q inside => ?_⟩
  · have inside : q ∈ positions t.shape := same ▸ inside
    rw [element q inside]
    exact (each _ (start_mem inside)).carried _ (small q inside)
  · rw [Element.Reading.entry, element q inside]
    exact (each _ (start_mem inside)).value _ (small q inside)

section Combined

variable {v w : List Nat → Nat → R} {b : List Nat → R} {h : α → α → α}

/-- Arrays are combined fibre by fibre. -/
theorem combine (first : ρ.Represents s (fibrewise i v) t) (z : R → R → R)
    (second : ρ.Represents s (fibrewise i w) u)
    (each : ∀ {x y}, ρ.carrier x → ρ.carrier y →
      ρ.carrier (h x y) ∧ ρ.val (h x y) = z (ρ.val x) (ρ.val y)) :
    ∃ c, t.combine h u = .ok c ∧ ρ.Represents s (fibrewise i fun p k => z (v p k) (w p k)) c := by
  have joined : broadcast? [t.shape, u.shape] = some s := by
    rw [first.shape, second.shape]
    exact (Fits.refl s).broadcast
  exact represents_combine z joined (fun _ => first.here) (fun _ => second.here) each

/-- An array is combined with one that is one wide on the axis. -/
theorem combine_start (first : ρ.Represents s (fibrewise i v) t) (z : R → R → R)
    (second : ρ.Represents (s.set i 1) b u) (axial : i < s.length)
    (each : ∀ {x y}, ρ.carrier x → ρ.carrier y →
      ρ.carrier (h x y) ∧ ρ.val (h x y) = z (ρ.val x) (ρ.val y)) :
    ∃ c, t.combine h u = .ok c ∧ ρ.Represents s (fibrewise i fun p k => z (v p k) (b p)) c := by
  have joined : broadcast? [t.shape, u.shape] = some s := by
    rw [first.shape, second.shape]
    exact Fits.broadcast_all (.head _) (by simpa using ⟨.refl s, fits_set s i⟩)
  exact represents_combine z joined (fun _ => first.here) (fun _ => second.start axial) each

/-- An array that is one wide on the axis is combined with one that is not. -/
theorem start_combine (first : ρ.Represents (s.set i 1) b t) (z : R → R → R)
    (second : ρ.Represents s (fibrewise i w) u) (axial : i < s.length)
    (each : ∀ {x y}, ρ.carrier x → ρ.carrier y →
      ρ.carrier (h x y) ∧ ρ.val (h x y) = z (ρ.val x) (ρ.val y)) :
    ∃ c, t.combine h u = .ok c ∧ ρ.Represents s (fibrewise i fun p k => z (b p) (w p k)) c := by
  have joined : broadcast? [t.shape, u.shape] = some s := by
    rw [first.shape, second.shape]
    exact (fits_set s i).broadcast
  exact represents_combine z joined (fun _ => first.start axial) (fun _ => second.here) each

/-- An array is combined with one that fits it. -/
theorem combine_fitting (first : ρ.Represents s (fibrewise i v) t) (z : R → R → R)
    (second : ρ.Holds u) (fits : Fits u.shape s)
    (each : ∀ {x y}, ρ.carrier x → ρ.carrier y →
      ρ.carrier (h x y) ∧ ρ.val (h x y) = z (ρ.val x) (ρ.val y)) :
    ∃ c, t.combine h u = .ok c ∧
      ρ.Represents s (fibrewise i fun p k => z (v p k) (ρ.val (u.read (p.set i k)))) c := by
  have joined : broadcast? [t.shape, u.shape] = some s := by
    rw [first.shape]
    exact Fits.broadcast_all (.head _) (by simpa using ⟨.refl s, fits⟩)
  have right : ∀ q ∈ positions s, ρ.carrier (u.read q) ∧ ρ.val (u.read q) = ρ.val (u.read q) :=
    fun q inside => ⟨second _ (clamp_mem fits.broadcast (.head _) inside), rfl⟩
  obtain ⟨c, made, represents⟩ := represents_combine z joined (fun _ => first.here) right each
  refine ⟨c, made, represents.congr fun q _ => ?_⟩
  rw [fibrewise, fibrewise, List.set_set, set_getD]

end Combined

/-- An array is stored in a buffer of its extents. -/
theorem assign (represents : ρ.Represents s v t) :
    ∃ y, t.assign type s = .ok y ∧ ρ.Represents s v y := by
  obtain ⟨y, stored, shape, holds, entry⟩ := represents.holds.assign
  rw [represents.shape] at stored shape entry
  exact ⟨y, stored, shape, holds, fun q inside =>
    (entry q inside).trans (represents.entry q inside)⟩

/-- An operator stores the array that it computes. -/
theorem stored {op : Operator α} {ts : List (Tensor α)} (represents : ρ.Represents s v t)
    (stores : op.forward type s ts = op.value s.length ts >>= fun t => t.assign type s)
    (value : op.value s.length ts = .ok t) :
    ∃ y, op.forward type s ts = .ok y ∧ ρ.Represents s v y := by
  obtain ⟨y, assigned, kept⟩ := represents.assign
  exact ⟨y, stores.trans (bind_eq_ok.mpr ⟨t, value, assigned⟩), kept⟩

/-- An array that is computed as a gradient is added to a buffer of its extents. -/
theorem adds (represents : ρ.Represents s v t) (positive : ∀ e ∈ s, 0 < e)
    {gradient : Except Fault (Tensor α)} (made : gradient = .ok t) :
    Operator.asDense gradient = .ok (.dense t) ∧ ρ.Adds (.dense t) s v := by
  obtain ⟨rfl, holds, entry⟩ := represents
  exact ⟨holds.asDense made, (adds_same holds positive).congr entry⟩

end Represents

end Element.Reading

namespace Operator

open Element.Reading

variable {α R : Type} [Element α] [CommRing R] {type : StorageType}
variable {ρ : Element.Reading α R type} {axis : Axis} {i : Nat} {s : List Nat} {v b : List Nat → R}
variable {a : Tensor α}

/-- A reduction stores what it leaves of every fibre. -/
theorem reduce_forward {r : Reduction} (resolved : axis.resolve s.length = .ok i)
    (input : ρ.Represents s v a)
    (each : ∀ p ∈ positions (s.set i 1),
      ρ.carrier (Fibre.reduce r (Tensor.dense a.shape i) (a.fibre i p)) ∧
        ρ.val (Fibre.reduce r (Tensor.dense a.shape i) (a.fibre i p)) = b p) :
    ∃ y, (reduce r axis).forward type (s.set i 1) [a] = .ok y ∧
      ρ.Represents (s.set i 1) b y :=
  (Represents.reduceAxis input.shape each).stored rfl
    (bind_eq_ok.mpr ⟨a, rfl, bind_eq_ok.mpr ⟨i, input.resolve resolved, rfl⟩⟩)

end Operator

end ReverseMode
