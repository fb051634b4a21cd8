import Mathlib.Data.List.GetD
import ReverseMode.Proofs.CommonShape
import ReverseMode.Proofs.RingElements

/-!
Summing back, in one step or in two.

Broadcasting reads each place of a small array at some positions of the large one, and summing
back adds up, at each place, what stands at the positions where it is read. The places that are
read in two steps of broadcasting are those that are read in one, so an array that is summed back
to some extents, and then further, is the array that is summed back at once. In a ring this needs
no extent to be positive: a place that is read nowhere is left with zero.
-/

namespace ReverseMode

open scoped Element

variable {r s t : List Nat}

/-! ### Places that are read -/

theorem Fits.one_or_mem (fits : Fits s t) : ∀ e ∈ s, e = 1 ∨ e ∈ t := by
  intro e mem
  obtain ⟨i, bound, rfl⟩ := List.getElem_of_mem mem
  have bound' : i < (aligned s t).length := fits.length_aligned.symm ▸ bound
  have extent := fits.extent bound
  rw [List.getD_eq_getElem _ _ bound, List.getD_eq_getElem _ _ bound'] at extent
  refine extent.imp_right fun same => ?_
  rw [same]
  exact List.mem_of_mem_drop (List.getElem_mem bound')

theorem getD_drop {β : Type} (l : List β) (n i : Nat) (d : β) :
    (l.drop n).getD i d = l.getD (n + i) d := by
  rw [List.getD_eq_getElem?_getD, List.getD_eq_getElem?_getD, List.getElem?_drop]

namespace Tensor

/-- An array that is broadcast in two steps is read where it is read in one. -/
theorem clamp_clamp (inner : Fits s t) (outer : Fits t r) {q : List Nat}
    (length : q.length = r.length) : clamp s (clamp t q) = clamp s q := by
  have middle := length_clamp outer length
  refine ext_getD ((length_clamp inner middle).trans
    (length_clamp (inner.trans outer) length).symm) fun i bound => ?_
  rw [length_clamp inner middle] at bound
  have short := inner.length
  have short' := outer.length
  rw [getD_clamp inner middle bound, getD_clamp (inner.trans outer) length bound]
  split
  next one => rfl
  next several =>
    -- an axis of the source that is not widened is none of the target in between
    have kept : t.getD (t.length - s.length + i) 1 ≠ 1 := by
      have same := (inner.extent bound).resolve_left several
      rw [Fits.aligned, getD_drop] at same
      exact same ▸ several
    have place : r.length - t.length + (t.length - s.length + i) = r.length - s.length + i := by
      omega
    rw [getD_drop, getD_drop, getD_clamp outer length (by omega), if_neg kept, getD_drop, place]

variable {β : Type} [Inhabited β]

theorem broadcastTo_eq {x : Tensor β} (fits : Fits x.shape r) :
    x.broadcastTo r = .ok (x.expand r) :=
  if_pos (broadcastsTo_iff.mpr fits)

/-- The positions of an array, broadcast, say which place is read. -/
theorem get_reads (fits : Fits s r) {q : List Nat} (inside : q ∈ positions r) :
    ((ofFn s id).expand r).get q = clamp s q := by
  rw [expand, get_ofFn inside]
  exact get_ofFn (clamp_mem fits.broadcast (by simp) inside)

end Tensor

/-! ### Sums -/

namespace Element.Reading

open Tensor

variable {α R : Type} [Element α] [CommRing R] {type : StorageType}
variable {ρ : Element.Reading α R type} {g : Tensor α}

/-- What stands where a place is read is added up there. -/
theorem Collapses.entry_reads {u : Tensor α} (collapses : ρ.Collapses (Tensor.clamp u.shape) g u)
    (fits : Fits u.shape g.shape) {p : List Nat} (inside : p ∈ positions u.shape) :
    ρ.entry u p =
      ∑ q ∈ places g.shape with ((ofFn u.shape id).expand g.shape).get q = p, ρ.entry g q := by
  refine (collapses.entry p inside).trans (Finset.sum_congr ?_ fun _ _ => rfl)
  refine Finset.filter_congr fun q mem => ?_
  rw [get_reads fits (mem_places.mp mem)]

/-- Products with a summed array add up to products with the broadcast one. -/
theorem Collapses.pairing_expand {u x : Tensor α}
    (collapses : ρ.Collapses (Tensor.clamp u.shape) g u) (extents : x.shape = u.shape) :
    ρ.pairing u x = ρ.pairing g (x.expand g.shape) := by
  rw [← extents] at collapses
  refine collapses.pairing.trans (Finset.sum_congr rfl fun q mem => ?_)
  exact congrArg (ρ.entry g q * ρ.val ·) (get_ofFn (mem_places.mp mem)).symm

/-- An array summed back in two steps holds what it holds when it is summed back at once. -/
theorem unbroadcast_twice (holds : ρ.Holds g) (sums : ρ.Sums g.shape) (inner : Fits s t)
    (outer : Fits t g.shape) : ∃ u v w, g.unbroadcast s = .ok u ∧ g.unbroadcast t = .ok v ∧
      v.unbroadcast s = .ok w ∧ u.shape = s ∧ w.shape = s ∧
      ∀ p ∈ positions s, ρ.entry w p = ρ.entry u p := by
  obtain ⟨u, direct, rfl, once⟩ := unbroadcast holds sums (inner.trans outer)
  obtain ⟨v, made, rfl, first⟩ := unbroadcast holds sums outer
  have sums' : ρ.Sums v.shape := sums.mono outer.one_or_mem
  obtain ⟨w, made', extents, second⟩ := unbroadcast first.holds sums' inner
  have twice : ρ.Collapses (Tensor.clamp u.shape) g w :=
    (first.trans second).congr fun q inside =>
      clamp_clamp inner outer (mem_positions_getD.mp inside).1
  refine ⟨u, v, w, direct, made, made', rfl, extents, fun p inside => ?_⟩
  rw [once.entry p inside, twice.entry p (extents.symm ▸ inside)]

/-- In a ring there is a sum of nothing. -/
theorem sums_ofRing (divide : R → R → R) (number : Float → R) (shape : List Nat) :
    letI := Element.ofRing divide number
    (ofRing divide number type).Sums shape :=
  .inr fun runs _ => ⟨trivial, congrArg List.sum (List.map_id runs.flatten).symm⟩

end Element.Reading

/-- Summing back is the adjoint of broadcasting. An array over a commutative ring is summed back to
all extents that broadcast to its own, and then has these extents. At each place it holds the sum
over the positions where the place is read by an array that is broadcast, so its products with an
array add up to the products with the array broadcast. It is the same array when it is summed back
to extents in between first. -/
theorem Tensor.unbroadcast_adjoint {R : Type} [CommRing R] (divide : R → R → R)
    (number : Float → R) (g : Tensor R) (fits : broadcastsTo s g.shape = true) :
    letI := Element.ofRing divide number
    ∃ u, g.unbroadcast s = .ok u ∧ u.shape = s ∧
      (∃ reads, (Tensor.ofFn s id).broadcastTo g.shape = .ok reads ∧
        ∀ p ∈ positions s, u.get p = ∑ q ∈ places g.shape with reads.get q = p, g.get q) ∧
      (∀ x : Tensor R, x.shape = s → ∃ b, x.broadcastTo g.shape = .ok b ∧
        ∑ p ∈ places s, u.get p * x.get p = ∑ q ∈ places g.shape, g.get q * b.get q) ∧
      ∀ t, broadcastsTo s t = true → broadcastsTo t g.shape = true →
        ∃ v, g.unbroadcast t = .ok v ∧ v.unbroadcast s = .ok u := by
  let := Element.ofRing divide number
  let ρ : Element.Reading R R .bool := .ofRing divide number .bool
  have holds : ρ.Holds g := fun _ _ => trivial
  have sums : ρ.Sums g.shape := Element.Reading.sums_ofRing divide number g.shape
  have fits := broadcastsTo_iff.mp fits
  obtain ⟨u, made, rfl, collapses⟩ := Element.Reading.unbroadcast holds sums fits
  refine ⟨u, made, rfl, ⟨_, broadcastTo_eq fits, fun p => collapses.entry_reads fits⟩, ?_, ?_⟩
  · intro x extents
    exact ⟨_, broadcastTo_eq (extents.symm ▸ fits), collapses.pairing_expand extents⟩
  · intro t inner outer
    obtain ⟨u', v, w, made', first, second, -, extents, same⟩ :=
      Element.Reading.unbroadcast_twice holds sums (broadcastsTo_iff.mp inner)
        (broadcastsTo_iff.mp outer)
    cases made.symm.trans made'
    cases ext_get extents fun p inside => same p (extents ▸ inside)
    exact ⟨v, first, second⟩

namespace Sample

/-- Two pages of three rows, with columns or without any, are summed back to three row totals, at
once or page by page. -/
theorem numbered_summed_back :
    broadcastsTo [3, 1] [2, 3, 2] = true ∧ broadcastsTo [3, 1] [2, 3, 0] = true ∧
      (∃ u, (numbered [2, 3, 2]).unbroadcast [3, 1] = .ok u ∧ u.shape = [3, 1] ∧
        u.get [1, 0] = 22 ∧
        ∃ v, (numbered [2, 3, 2]).unbroadcast [2, 3, 1] = .ok v ∧ v.unbroadcast [3, 1] = .ok u) ∧
      ∃ u, (numbered [2, 3, 0]).unbroadcast [3, 1] = .ok u ∧ u.shape = [3, 1] ∧
        u.get [1, 0] = 0 := by
  have wide : broadcastsTo [3, 1] [2, 3, 2] = true := by decide
  have empty : broadcastsTo [3, 1] [2, 3, 0] = true := by decide
  obtain ⟨u, made, extents, ⟨reads, broadcast, entry⟩, -, through⟩ :=
    Tensor.unbroadcast_adjoint (· / ·) Number.rational (numbered [2, 3, 2]) wide
  obtain ⟨u', made', extents', ⟨reads', broadcast', entry'⟩, -, -⟩ :=
    Tensor.unbroadcast_adjoint (· / ·) Number.rational (numbered [2, 3, 0]) empty
  cases broadcast
  cases broadcast'
  refine ⟨wide, empty, ⟨u, made, extents, (entry [1, 0] (by decide)).trans ?_,
    through [2, 3, 1] (by decide) (by decide)⟩, u', made', extents',
    (entry' [1, 0] (by decide)).trans ?_⟩
  · decide +kernel
  · decide +kernel

end Sample

end ReverseMode
