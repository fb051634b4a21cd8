import Mathlib.Algebra.BigOperators.Group.List.Basic
import Mathlib.Algebra.Ring.Int.Defs
import Mathlib.Data.List.Infix
import Mathlib.Order.Bounds.Basic
import ReverseMode.Proofs.Balance
import ReverseMode.Proofs.Outcome

/-!
Runs of an allocator.

A buffer is outstanding from the call that hands it out until a call gives it back. Whatever calls
are made on a new allocator, the storages in use are the outstanding buffers, the counts are theirs,
and the peak is the largest number of bytes in use since it was last counted anew
(`Allocator.counts_describe`). The number of a storage is never used again, so no buffer is taken
for another one; a buffer of somebody else is any number that has not been handed out.
-/

namespace ReverseMode

namespace Allocator

/-- A call on an allocator. -/
inductive Call where
  | allocate (extents : List Int) (itemBytes : Nat)
  | release (storage : Nat)
  | owns (storage : Nat)
  | resetPeak

/-- What a call leaves. An array that cannot be had leaves everything as it is. -/
def Call.apply (a : Allocator) : Call → Allocator
  | allocate extents itemBytes =>
    match a.allocateArray extents itemBytes with
    | .ok (_, _, b) => b
    | .error _ => a
  | release storage => a.release storage
  | owns _ => a
  | resetPeak => a.resetPeak

/-- The buffer that a call hands out, with its bytes. -/
def Call.buffer? (a : Allocator) : Call → Option (Nat × Nat)
  | allocate extents itemBytes =>
    match a.allocateArray extents itemBytes with
    | .ok (bytes, storage, _) => some (storage, bytes)
    | .error _ => none
  | _ => none

/-- What some calls leave of a new allocator. -/
def after (calls : List Call) : Allocator := calls.foldl Call.apply {}

theorem after_concat (calls : List Call) (c : Call) :
    after (calls ++ [c]) = c.apply (after calls) :=
  List.foldl_concat ..

/-- A buffer of so many bytes has been handed out, and no later call has given it back. -/
def Outstanding (calls : List Call) (storage bytes : Nat) : Prop :=
  ∃ before c later, calls = before ++ c :: later ∧
    c.buffer? (after before) = some (storage, bytes) ∧ .release storage ∉ later

theorem not_outstanding_nil (storage bytes : Nat) : ¬ Outstanding [] storage bytes := by
  rintro ⟨before, c, later, split, _⟩
  simp at split

/-- A buffer is outstanding after a call that hands it out, or if it was before and the call does not
give it back. -/
theorem outstanding_concat {calls : List Call} {c : Call} {storage bytes : Nat} :
    Outstanding (calls ++ [c]) storage bytes ↔ c.buffer? (after calls) = some (storage, bytes) ∨
      Outstanding calls storage bytes ∧ c ≠ .release storage := by
  constructor
  · rintro ⟨before, d, later, split, given, kept⟩
    rcases List.eq_nil_or_concat later with rfl | ⟨rest, e, rfl⟩
    · obtain ⟨rfl, last⟩ := List.append_inj' split rfl
      cases last
      exact .inl given
    · rw [List.concat_eq_append, ← List.cons_append, ← List.append_assoc] at split
      obtain ⟨rfl, last⟩ := List.append_inj' split rfl
      cases last
      simp only [List.concat_eq_append, List.mem_append, List.mem_singleton, not_or] at kept
      exact .inr ⟨⟨before, d, rest, rfl, given, kept.1⟩, fun same => kept.2 same.symm⟩
  · rintro (given | ⟨⟨before, d, later, rfl, given, kept⟩, other⟩)
    · exact ⟨calls, c, [], rfl, given, List.not_mem_nil⟩
    · refine ⟨before, d, later ++ [c], by simp, given, ?_⟩
      simp only [List.mem_append, List.mem_singleton, not_or]
      exact ⟨kept, fun same => other same.symm⟩

/-! ### One call -/

theorem arrayBytes_eq_ok {extents : List Int} {itemBytes bytes : Nat}
    (counted : arrayBytes extents itemBytes = .ok bytes) :
    (bytes : Int) = extents.prod * itemBytes := by
  unfold arrayBytes at counted
  split at counted
  · cases counted
  next accepted =>
    cases counted
    induction extents with
    | nil => simp
    | cons e rest ih =>
      simp only [List.any_cons, Bool.or_eq_true, decide_eq_true_eq, not_or, not_lt] at accepted
      simp [ih accepted.2, Int.toNat_of_nonneg accepted.1, mul_assoc]

section Step

variable {a : Allocator}

/-- An array that can be had takes a new storage of its bytes into use. -/
theorem allocateArray_cases (a : Allocator) (extents : List Int) (itemBytes : Nat) :
    (∃ f, a.allocateArray extents itemBytes = .error f) ∨
      ∃ bytes : Nat, (bytes : Int) = extents.prod * itemBytes ∧
        a.allocateArray extents itemBytes = .ok (bytes, a.fresh, (a.allocate bytes).2) := by
  cases answer : a.allocateArray extents itemBytes with
  | error f => exact .inl ⟨f, rfl⟩
  | ok r =>
    obtain ⟨_, _, ranked⟩ := bind_eq_ok.mp answer
    obtain ⟨bytes, counted, checked⟩ := bind_eq_ok.mp ranked
    obtain ⟨_, _, made⟩ := bind_eq_ok.mp checked
    cases made
    exact .inr ⟨bytes, arrayBytes_eq_ok counted, rfl⟩

/-- A buffer is handed out for an array, with the bytes of its elements. -/
theorem buffer?_eq_some {c : Call} {storage bytes : Nat}
    (given : c.buffer? a = some (storage, bytes)) : ∃ extents, ∃ itemBytes : Nat,
      c = .allocate extents itemBytes ∧ (bytes : Int) = extents.prod * itemBytes := by
  cases c with
  | allocate extents itemBytes =>
    rcases allocateArray_cases a extents itemBytes with ⟨f, raised⟩ | ⟨n, size, made⟩
    · rw [Call.buffer?, raised] at given
      cases given
    · rw [Call.buffer?, made] at given
      cases given
      exact ⟨extents, itemBytes, rfl, size⟩
  | _ => cases given

theorem Balanced.apply (balanced : Balanced a) (c : Call) : Balanced (c.apply a) := by
  cases c with
  | allocate extents itemBytes =>
    rcases allocateArray_cases a extents itemBytes with ⟨f, raised⟩ | ⟨bytes, _, made⟩
    · rw [Call.apply, raised]
      exact balanced
    · rw [Call.apply, made]
      exact balanced.allocate bytes
  | release storage => exact balanced.release storage
  | owns => exact balanced
  | resetPeak => exact balanced.resetPeak

/-- The storages in use after a call: the one it hands out, and those that it does not give back. -/
theorem mem_held_apply (a : Allocator) (c : Call) {storage bytes : Nat} :
    (storage, bytes) ∈ (c.apply a).held ↔ c.buffer? a = some (storage, bytes) ∨
      (storage, bytes) ∈ a.held ∧ c ≠ .release storage := by
  cases c with
  | allocate extents itemBytes =>
    rcases allocateArray_cases a extents itemBytes with ⟨f, raised⟩ | ⟨n, _, made⟩
    · simp [Call.apply, Call.buffer?, raised]
    · simp [Call.apply, Call.buffer?, made, allocate, eq_comm]
  | release s =>
    rw [Call.apply, mem_release]
    simp [Call.buffer?, eq_comm]
  | owns => simp [Call.apply, Call.buffer?]
  | resetPeak => simp [Call.apply, Call.buffer?, resetPeak]

/-- Unless the peak is counted anew, it is raised to the bytes in use after the call. -/
theorem peak_apply (balanced : Balanced a) {c : Call} (goes : c ≠ .resetPeak) :
    (c.apply a).peak = max a.peak (c.apply a).live := by
  have below := balanced.peak
  cases c with
  | allocate extents itemBytes =>
    rcases allocateArray_cases a extents itemBytes with ⟨f, raised⟩ | ⟨n, _, made⟩
    · rw [Call.apply, raised]
      exact (Nat.max_eq_left below).symm
    · rw [Call.apply, made]
      rfl
  | release s =>
    rw [Call.apply, release]
    split
    · exact (Nat.max_eq_left below).symm
    · exact (Nat.max_eq_left ((Nat.sub_le _ _).trans below)).symm
  | owns => exact (Nat.max_eq_left below).symm
  | resetPeak => exact absurd rfl goes

theorem owns_iff {storage : Nat} : a.owns storage = true ↔ ∃ bytes, (storage, bytes) ∈ a.held := by
  rw [owns, Option.isSome_iff_exists]
  constructor
  · rintro ⟨bytes, found⟩
    exact ⟨bytes, lookup_eq_some found⟩
  · rintro ⟨bytes, mem⟩
    refine Option.ne_none_iff_exists'.mp fun missing => ?_
    exact lookup_eq_none missing _ mem rfl

/-- A storage that is not in use cannot be given back. -/
theorem release_absent {storage : Nat} (absent : ¬ ∃ bytes, (storage, bytes) ∈ a.held) :
    a.release storage = a := by
  have missing : a.held.lookup storage = none :=
    Option.eq_none_iff_forall_ne_some.mpr fun bytes found => absent ⟨bytes, lookup_eq_some found⟩
  rw [release, missing]

end Step

/-! ### Runs -/

theorem balanced_after (calls : List Call) : Balanced (after calls) := by
  induction calls using List.reverseRecOn with
  | nil => exact .start
  | append_singleton calls c ih =>
    rw [after_concat]
    exact ih.apply c

/-- The storages in use are the outstanding buffers. -/
theorem mem_held_after {calls : List Call} {storage bytes : Nat} :
    (storage, bytes) ∈ (after calls).held ↔ Outstanding calls storage bytes := by
  induction calls using List.reverseRecOn with
  | nil => exact iff_of_false List.not_mem_nil (not_outstanding_nil storage bytes)
  | append_singleton calls c ih =>
    rw [after_concat, mem_held_apply, outstanding_concat, ih]

/-- The bytes that were in use at some moment of a run, from its beginning on. -/
def moments (earlier since : List Call) : Set Nat :=
  { live | ∃ made, made <+: since ∧ (after (earlier ++ made)).live = live }

theorem moments_concat (earlier since : List Call) (c : Call) :
    moments earlier (since ++ [c]) =
      insert (after (earlier ++ (since ++ [c]))).live (moments earlier since) := by
  ext live
  simp only [moments, Set.mem_ofPred_eq, Set.mem_insert_iff, List.prefix_concat_iff, or_and_right,
    exists_or, exists_eq_left, eq_comm]

/-- The peak is the largest number of bytes in use since it was the number in use. -/
theorem peak_isGreatest {earlier since : List Call}
    (level : (after earlier).peak = (after earlier).live) (goes : .resetPeak ∉ since) :
    IsGreatest (moments earlier since) (after (earlier ++ since)).peak := by
  induction since using List.reverseRecOn with
  | nil =>
    have only : moments earlier [] = {(after earlier).live} := by
      ext live
      simp [moments, eq_comm]
    rw [only, List.append_nil, level]
    exact isGreatest_singleton
  | append_singleton since c ih =>
    simp only [List.mem_append, List.mem_singleton, not_or] at goes
    have raised := peak_apply (balanced_after (earlier ++ since)) (Ne.symm goes.2)
    rw [moments_concat, ← List.append_assoc, after_concat, raised, max_comm]
    exact (ih goes.1).insert _

/-- The counts of an allocator after any calls are those of the outstanding buffers, each of which
has the bytes of the array that it was asked for. A storage that is not outstanding is not in use,
and giving it back changes nothing. The peak is the largest number of bytes in use at a moment since
it was last counted anew, or since the beginning. -/
theorem counts_describe (calls : List Call) :
    (∃ buffers : List (Nat × Nat), (buffers.map Prod.fst).Nodup ∧
      (∀ storage bytes, (storage, bytes) ∈ buffers ↔ Outstanding calls storage bytes) ∧
      (after calls).live = (buffers.map Prod.snd).sum ∧
      (after calls).allocations = (after calls).releases + buffers.length) ∧
    (∀ storage bytes, Outstanding calls storage bytes → ∃ extents, ∃ itemBytes : Nat,
      .allocate extents itemBytes ∈ calls ∧ (bytes : Int) = extents.prod * itemBytes) ∧
    (∀ storage, (after calls).owns storage = true ↔ ∃ bytes, Outstanding calls storage bytes) ∧
    (∀ storage, (¬ ∃ bytes, Outstanding calls storage bytes) →
      after (calls ++ [.release storage]) = after calls) ∧
    ∀ earlier since, calls = earlier ++ since →
      (earlier = [] ∨ ∃ first, earlier = first ++ [.resetPeak]) → .resetPeak ∉ since →
      IsGreatest (moments earlier since) (after calls).peak := by
  have balanced := balanced_after calls
  have outstanding (storage : Nat) :
      (∃ bytes, (storage, bytes) ∈ (after calls).held) ↔ ∃ bytes, Outstanding calls storage bytes :=
    exists_congr fun _ => mem_held_after
  refine ⟨⟨_, balanced.nodup, fun _ _ => mem_held_after, balanced.live, balanced.count⟩, ?_,
    fun storage => owns_iff.trans (outstanding storage), fun storage absent => ?_, ?_⟩
  · rintro storage bytes ⟨before, c, later, rfl, given, _⟩
    obtain ⟨extents, itemBytes, rfl, size⟩ := buffer?_eq_some given
    exact ⟨extents, itemBytes, by simp, size⟩
  · rw [after_concat]
    exact release_absent ((outstanding storage).not.mpr absent)
  · rintro earlier since rfl anew goes
    refine peak_isGreatest ?_ goes
    rcases anew with rfl | ⟨first, rfl⟩
    · rfl
    · rw [after_concat]
      rfl

/-- A buffer without bytes is outstanding as any other, and only the first release counts. -/
example :
    let a := after [.allocate [3] 8, .allocate [0] 8, .release 0, .release 0, .owns 1, .resetPeak]
    a.owns 0 = false ∧ a.owns 1 = true ∧ a.live = 0 ∧ a.peak = 0 ∧ a.allocations = 2 ∧
      a.releases = 1 := by
  decide

end Allocator

end ReverseMode
