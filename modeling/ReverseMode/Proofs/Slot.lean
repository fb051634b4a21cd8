import Mathlib.Logic.Function.Basic
import ReverseMode.Graph.Episode

/-!
Slots under the changes of a graph.

`Graph.outline` holds what a graph keeps beside its slots and its accounting. A change of
one slot is an update of the function `Graph.slot`; every other operation on slots is made
of such updates.
-/

namespace ReverseMode

/-- A graph without its slots, random numbers and accounting. -/
structure Outline (α : Type) where
  serial : Nat
  settings : Settings
  tape : Tape α
  index : Index α
  parameters : Array (Node α)
  episode : Nat
  forwarded : Bool
  size : Nat

namespace Graph

variable {α : Type}

def outline (g : Graph α) : Outline α :=
  ⟨g.serial, g.settings, g.tape, g.index, g.parameters, g.episode, g.forwarded, g.slots.size⟩

section Outlines

variable {g g' : Graph α} (same : g'.outline = g.outline)

include same

theorem serial_of_outline : g'.serial = g.serial := congrArg Outline.serial same

theorem settings_of_outline : g'.settings = g.settings := congrArg Outline.settings same

theorem tape_of_outline : g'.tape = g.tape := congrArg Outline.tape same

theorem index_of_outline : g'.index = g.index := congrArg Outline.index same

theorem parameters_of_outline : g'.parameters = g.parameters := congrArg Outline.parameters same

theorem episode_of_outline : g'.episode = g.episode := congrArg Outline.episode same

theorem forwarded_of_outline : g'.forwarded = g.forwarded := congrArg Outline.forwarded same

theorem size_of_outline : g'.slots.size = g.slots.size := congrArg Outline.size same

end Outlines

/-! ### One slot -/

@[simp] theorem outline_modifySlot (g : Graph α) (id : Nat) (f : Slot α → Slot α) :
    (g.modifySlot id f).outline = g.outline := by
  simp [outline, modifySlot]

theorem slot_modifySlot {g : Graph α} {id : Nat} (bound : id < g.slots.size)
    (f : Slot α → Slot α) :
    (g.modifySlot id f).slot = Function.update g.slot id (f (g.slot id)) := by
  funext j
  by_cases same : j = id
  · subst same
    simp [slot, modifySlot, bound, Array.getElem_modify]
  · have other : id ≠ j := fun h => same h.symm
    simp [slot, modifySlot, Function.update_of_ne same, Array.getD_eq_getD_getElem?,
      Array.getElem?_modify, other]

@[simp] theorem outline_record (g : Graph α) : g.record.outline = g.outline := rfl

@[simp] theorem slot_record (g : Graph α) : g.record.slot = g.slot := rfl

@[simp] theorem outline_giveBack (g : Graph α) (storage : Nat) :
    (g.giveBack storage).outline = g.outline := rfl

/-! ### Values and gradients dropped -/

@[simp] theorem outline_releaseValue (g : Graph α) (id : Nat) :
    (g.releaseValue id).outline = g.outline := by
  unfold releaseValue
  split
  · rfl
  · simp only [outline_modifySlot]
    split <;> rfl

@[simp] theorem random_releaseValue (g : Graph α) (id : Nat) :
    (g.releaseValue id).random = g.random := by
  unfold releaseValue
  split
  · rfl
  · simp only [modifySlot]
    split <;> rfl

theorem slot_releaseValue {g : Graph α} {id : Nat} (bound : id < g.slots.size) :
    (g.releaseValue id).slot = Function.update g.slot id { g.slot id with value := none } := by
  unfold releaseValue
  split
  next none =>
    refine (Function.update_eq_self_iff.mpr ?_).symm
    generalize g.slot id = s at none
    cases s
    cases none
    rfl
  next held _ =>
    by_cases owned : held.owned
    · simp only [owned, if_true]
      exact slot_modifySlot (g := g.giveBack held.storage) bound _
    · simp only [owned, Bool.false_eq_true, if_false]
      exact slot_modifySlot bound _

@[simp] theorem outline_releaseGrad (g : Graph α) (id : Nat) :
    (g.releaseGrad id).outline = g.outline := by
  unfold releaseGrad
  split
  · rfl
  · simp

@[simp] theorem random_releaseGrad (g : Graph α) (id : Nat) :
    (g.releaseGrad id).random = g.random := by
  unfold releaseGrad
  split <;> rfl

theorem slot_releaseGrad {g : Graph α} {id : Nat} (bound : id < g.slots.size) :
    (g.releaseGrad id).slot = Function.update g.slot id { g.slot id with grad := none } := by
  unfold releaseGrad
  split
  next none =>
    refine (Function.update_eq_self_iff.mpr ?_).symm
    generalize g.slot id = s at none
    cases s
    cases none
    rfl
  next held _ => exact slot_modifySlot (g := g.giveBack held.storage) bound _

@[simp] theorem outline_release (g : Graph α) (id : Nat) :
    (g.release id).outline = g.outline := by
  simp [release]

@[simp] theorem random_release (g : Graph α) (id : Nat) : (g.release id).random = g.random := by
  simp [release]

theorem size_releaseValue (g : Graph α) (id : Nat) :
    (g.releaseValue id).slots.size = g.slots.size :=
  size_of_outline (outline_releaseValue g id)

theorem slot_release {g : Graph α} {id : Nat} (bound : id < g.slots.size) :
    (g.release id).slot =
      Function.update g.slot id { g.slot id with value := none, grad := none } := by
  rw [release, slot_releaseGrad (by rwa [size_releaseValue]), slot_releaseValue bound]
  simp

/-! ### Values and flags set -/

@[simp] theorem outline_setValue (g : Graph α) (id : Nat) (held : Held α) :
    (g.setValue id held).outline = g.outline := by
  simp [setValue]

@[simp] theorem random_setValue (g : Graph α) (id : Nat) (held : Held α) :
    (g.setValue id held).random = g.random := by
  simp [setValue, modifySlot]

theorem slot_setValue {g : Graph α} {id : Nat} (bound : id < g.slots.size) (held : Held α) :
    (g.setValue id held).slot =
      Function.update g.slot id { g.slot id with value := some held } := by
  rw [setValue, slot_modifySlot (by rwa [size_releaseValue]), slot_releaseValue bound]
  simp

@[simp] theorem outline_setComputed (g : Graph α) (computed : Bool) (id : Nat) :
    (g.setComputed computed id).outline = g.outline := by
  simp [setComputed]

theorem slot_setComputed {g : Graph α} {id : Nat} (bound : id < g.slots.size) (computed : Bool) :
    (g.setComputed computed id).slot = Function.update g.slot id { g.slot id with computed } :=
  slot_modifySlot bound _

@[simp] theorem outline_forget (g : Graph α) (id : Nat) : (g.forget id).outline = g.outline := by
  simp [forget]

@[simp] theorem random_forget (g : Graph α) (id : Nat) : (g.forget id).random = g.random := by
  simp [forget, setComputed, modifySlot]

theorem slot_forget {g : Graph α} {id : Nat} (bound : id < g.slots.size) :
    (g.forget id).slot =
      Function.update g.slot id { g.slot id with value := none, computed := false } := by
  rw [forget, slot_setComputed (by rwa [size_releaseValue]), slot_releaseValue bound]
  simp

@[simp] theorem outline_countRecomputation (g : Graph α) (n : Node α) :
    (g.countRecomputation n).outline = g.outline := by
  unfold countRecomputation
  split <;> rfl

@[simp] theorem slot_countRecomputation (g : Graph α) (n : Node α) :
    (g.countRecomputation n).slot = g.slot := by
  unfold countRecomputation
  split <;> rfl

@[simp] theorem random_countRecomputation (g : Graph α) (n : Node α) :
    (g.countRecomputation n).random = g.random := by
  unfold countRecomputation
  split <;> rfl

/-! ### Storages never used again -/

@[simp] theorem fresh_giveBack (g : Graph α) (storage : Nat) :
    (g.giveBack storage).allocator.fresh = g.allocator.fresh := by
  unfold giveBack Allocator.release
  dsimp only
  split <;> rfl

@[simp] theorem fresh_releaseValue (g : Graph α) (id : Nat) :
    (g.releaseValue id).allocator.fresh = g.allocator.fresh := by
  unfold releaseValue
  split
  · rfl
  · simp only [modifySlot]
    split
    · exact fresh_giveBack g _
    · rfl

@[simp] theorem fresh_releaseGrad (g : Graph α) (id : Nat) :
    (g.releaseGrad id).allocator.fresh = g.allocator.fresh := by
  unfold releaseGrad
  split
  · rfl
  · exact fresh_giveBack g _

@[simp] theorem fresh_release (g : Graph α) (id : Nat) :
    (g.release id).allocator.fresh = g.allocator.fresh := by
  simp [release]

@[simp] theorem fresh_setValue (g : Graph α) (id : Nat) (held : Held α) :
    (g.setValue id held).allocator.fresh = g.allocator.fresh := by
  simp [setValue, modifySlot]

@[simp] theorem fresh_countRecomputation (g : Graph α) (n : Node α) :
    (g.countRecomputation n).allocator = g.allocator := by
  unfold countRecomputation
  split <;> rfl

end Graph

end ReverseMode
