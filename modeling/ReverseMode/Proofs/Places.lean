import Mathlib.Algebra.GroupWithZero.Nat
import ReverseMode.Proofs.ArrayTypes

/-!
Entries that name places.

An entry of an index array names a place of an axis if it is an integer that lies on the axis,
counted from either end. Where every entry does, the places are found, in an array of the same
extents, and all of them lie on the axis.
-/

namespace ReverseMode

open scoped Element Scalar
open Tensor (placesBy placeTensor exactPlaces)

/-- An integer that lies on an axis of the given extent, counted from either end. -/
def OnAxis (extent : Nat) (n : Int) : Prop := -(extent : Int) ≤ n ∧ n < extent

instance (extent : Nat) (n : Int) : Decidable (OnAxis extent n) :=
  inferInstanceAs (Decidable (_ ∧ _))

/-- A stored integer that names a place of an axis. -/
def Scalar.Names (extent : Nat) (x : Scalar) : Prop := ∃ t n, x = .int t n ∧ OnAxis extent n

theorem OnAxis.place {extent : Nat} {n : Int} (on : OnAxis extent n) :
    ∃ i, Axis.wrap? n extent = some i ∧ i < extent := by
  obtain ⟨low, high⟩ := on
  by_cases front : 0 ≤ n
  · refine ⟨n.toNat, ?_, by omega⟩
    rw [Axis.wrap?, if_pos front, if_pos high]
  · refine ⟨(n + extent).toNat, ?_, by omega⟩
    rw [Axis.wrap?, if_neg front, if_pos low]

/-- A number on an axis is not changed by 64 bits. -/
theorem OnAxis.wrap {extent : Nat} {n : Int} (on : OnAxis extent n) (short : extent < 2 ^ 63) :
    IntegerType.int64.wrap n = n := by
  obtain ⟨low, high⟩ := on
  change n.bmod (2 ^ 64) = n
  exact Int.bmod_eq_of_le (by omega) (by omega)

namespace Tensor

/-- Where every element names a place, the places are found. -/
theorem placesBy_total {α : Type} {extent : Nat} {position : α → Except Fault Int}
    {indices : Tensor α}
    (each : ∀ x ∈ indices.toList, ∃ n, position x = .ok n ∧ OnAxis extent n) :
    ∃ places, placesBy extent position indices = .ok places ∧ places.shape = indices.shape ∧
      ∀ p ∈ places.toList, p < extent := by
  obtain ⟨found, read, length, on⟩ := mapM_total each
  have place : ∀ n ∈ found, ∃ i, placeOf extent n = .ok i ∧ i < extent := by
    intro n mem
    obtain ⟨i, wrapped, less⟩ := (on n mem).place
    refine ⟨i, ?_, less⟩
    unfold placeOf
    rw [wrapped]
  obtain ⟨places, named, length', less⟩ := mapM_total place
  have size : places.toArray.size = volume indices.shape := by
    rw [List.size_toArray, length', length, ← indices.size_eq]
    exact Array.length_toList
  refine ⟨⟨indices.shape, places.toArray, size⟩, ?_, rfl, by simpa [toList] using less⟩
  refine bind_eq_ok.mpr ⟨found, read, bind_eq_ok.mpr ⟨places, named, ?_⟩⟩
  unfold ofArray?
  rw [dif_pos size]
  rfl

variable {extent : Nat} {indices : Tensor Scalar}
  (names : ∀ x ∈ indices.toList, x.Names extent)

include names

theorem placeTensor_total (short : extent < 2 ^ 63) :
    ∃ places, placeTensor extent indices = .ok places ∧ places.shape = indices.shape ∧
      ∀ p ∈ places.toList, p < extent := by
  refine placesBy_total fun x mem => ?_
  obtain ⟨t, n, rfl, on⟩ := names x mem
  exact ⟨n, congrArg Except.ok (on.wrap short), on⟩

/-- Positions of a signed type are read as they are. -/
theorem exactPlaces_total {type : ElementType} (integer : type.isInt = true)
    (typed : indices.Typed type.storage) :
    ∃ places, exactPlaces extent indices = .ok places ∧ places.shape = indices.shape ∧
      ∀ p ∈ places.toList, p < extent := by
  refine placesBy_total fun x mem => ?_
  obtain ⟨t, n, rfl, on⟩ := names x mem
  have same : some (StorageType.int t) = some type.storage := typed _ mem
  have signed : t.signed = true := by
    cases type with
    | int64 | int32 => cases same; rfl
    | _ => cases integer
  refine ⟨n, ?_, on⟩
  have read : Element.position? (Scalar.int t n) = some n := by
    change (Scalar.int t n).position? = some n
    simp [Scalar.position?, signed]
  rw [read]

end Tensor

end ReverseMode
