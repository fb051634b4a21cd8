import Mathlib.Algebra.GroupWithZero.Nat
import Mathlib.Data.List.Nodup
import ReverseMode.Memory.Allocator

/-!
The counts of an allocator.

`Balanced` says that the counts describe the storages in use. It is kept by every operation,
also where a storage is given back that is not in use. A storage given back is the only one
that leaves, and its bytes are what the total loses.
-/

namespace ReverseMode

namespace Allocator

/-- The bytes in use are those of the storages in use, and so is their number; every storage in
use has been allocated, and once. -/
structure Balanced (a : Allocator) : Prop where
  old : ∀ entry ∈ a.held, entry.1 < a.fresh
  nodup : (a.held.map Prod.fst).Nodup
  live : a.live = (a.held.map Prod.snd).sum
  count : a.allocations = a.releases + a.held.length
  peak : a.live ≤ a.peak

variable {a : Allocator}

theorem Balanced.start : Balanced {} :=
  ⟨nofun, List.nodup_nil, rfl, rfl, Nat.le_refl _⟩

theorem Balanced.not_held (balanced : Balanced a) : a.fresh ∉ a.held.map Prod.fst := by
  intro mem
  obtain ⟨entry, held, same⟩ := List.mem_map.mp mem
  exact absurd (balanced.old entry held) (by omega)

/-- A storage in use has one number of bytes. -/
theorem Balanced.bytes_unique (balanced : Balanced a) {storage b c : Nat}
    (first : (storage, b) ∈ a.held) (second : (storage, c) ∈ a.held) : b = c :=
  congrArg Prod.snd (List.inj_on_of_nodup_map balanced.nodup first second rfl)

theorem Balanced.allocate (balanced : Balanced a) (bytes : Nat) :
    Balanced (a.allocate bytes).2 where
  old := by
    intro entry mem
    rcases List.mem_cons.mp mem with rfl | mem
    · exact Nat.lt_succ_self _
    · exact Nat.lt_succ_of_lt (balanced.old entry mem)
  nodup := List.nodup_cons.mpr ⟨balanced.not_held, balanced.nodup⟩
  live := by
    simp only [Allocator.allocate, List.map_cons, List.sum_cons, balanced.live]
    omega
  count := by
    simp only [Allocator.allocate, List.length_cons, balanced.count]
    omega
  peak := Nat.le_max_right _ _

theorem lookup_eq_some {held : List (Nat × Nat)} {storage bytes : Nat}
    (found : held.lookup storage = some bytes) : (storage, bytes) ∈ held := by
  induction held with
  | nil => cases found
  | cons entry rest ih =>
    obtain ⟨s, b⟩ := entry
    rw [List.lookup_cons] at found
    split at found
    next same =>
      cases found
      rw [beq_iff_eq.mp same]
      exact List.mem_cons_self
    next => exact List.mem_cons_of_mem _ (ih found)

theorem lookup_eq_none {held : List (Nat × Nat)} {storage : Nat}
    (missing : held.lookup storage = none) : ∀ entry ∈ held, entry.1 ≠ storage := by
  induction held with
  | nil => nofun
  | cons entry rest ih =>
    obtain ⟨s, b⟩ := entry
    rw [List.lookup_cons] at missing
    split at missing
    · cases missing
    next other =>
      intro e mem
      rcases List.mem_cons.mp mem with rfl | mem
      · exact (beq_eq_false_iff_ne.mp other).symm
      · exact ih missing e mem

/-- The storages in use after one has been given back are the others. -/
theorem mem_release {storage : Nat} {entry : Nat × Nat} :
    entry ∈ (a.release storage).held ↔ entry ∈ a.held ∧ entry.1 ≠ storage := by
  unfold release
  split
  next missing => exact ⟨fun mem => ⟨mem, lookup_eq_none missing entry mem⟩, And.left⟩
  next => simp [List.mem_filter]

/-- One storage less: what the total and the number lose. -/
theorem sum_filter {held : List (Nat × Nat)} {storage bytes : Nat}
    (nodup : (held.map Prod.fst).Nodup) (mem : (storage, bytes) ∈ held) :
    (held.map Prod.snd).sum =
        bytes + ((held.filter fun entry => entry.1 != storage).map Prod.snd).sum ∧
      held.length = 1 + (held.filter fun entry => entry.1 != storage).length := by
  induction held with
  | nil => cases mem
  | cons entry rest ih =>
    rw [List.map_cons, List.nodup_cons] at nodup
    obtain ⟨apart, nodup⟩ := nodup
    rcases List.mem_cons.mp mem with rfl | mem
    · -- the storage comes first, so that none of the rest is dropped
      have others : rest.filter (fun entry => entry.1 != storage) = rest := by
        refine List.filter_eq_self.mpr fun e inside => ?_
        have other : e.1 ≠ storage := fun same => apart (List.mem_map.mpr ⟨e, inside, same⟩)
        simpa using other
      simp [others, Nat.add_comm]
    · have other : entry.1 ≠ storage := fun same =>
        apart (List.mem_map.mpr ⟨_, mem, same.symm⟩)
      obtain ⟨total, length⟩ := ih nodup mem
      simp only [List.filter_cons, bne_iff_ne, ne_eq, other, not_false_iff, if_true, List.map_cons,
        List.sum_cons, List.length_cons, total, length]
      omega

theorem Balanced.release (balanced : Balanced a) (storage : Nat) :
    Balanced (a.release storage) := by
  have mem : ∀ entry ∈ (a.release storage).held, entry ∈ a.held := fun _ h => (mem_release.mp h).1
  unfold Allocator.release at mem ⊢
  cases found : a.held.lookup storage with
  | none => exact balanced
  | some bytes =>
    obtain ⟨total, length⟩ := sum_filter balanced.nodup (lookup_eq_some found)
    simp only [found] at mem ⊢
    refine ⟨fun entry h => balanced.old entry (mem entry h), ?_, ?_, ?_, ?_⟩
    · exact balanced.nodup.sublist ((List.filter_sublist).map _)
    · change a.live - bytes = _
      rw [balanced.live, total, Nat.add_sub_cancel_left]
    · change a.allocations = a.releases + 1 + _
      rw [balanced.count, length, Nat.add_assoc]
    · exact Nat.le_trans (Nat.sub_le _ _) balanced.peak

theorem Balanced.resetPeak (balanced : Balanced a) : Balanced a.resetPeak :=
  ⟨balanced.old, balanced.nodup, balanced.live, balanced.count, Nat.le_refl _⟩

end Allocator

end ReverseMode
