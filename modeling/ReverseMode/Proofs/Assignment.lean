import ReverseMode.Proofs.Outcome
import ReverseMode.Tensor.Sum

/-!
Arrays stored in buffers.

An array that has the extents of its buffer is stored element by element, without broadcasting, as
long as no element is a refusal.
-/

namespace ReverseMode

namespace Tensor

variable {α : Type}

theorem dropOnes_of_length {rank : Nat} {extents : List Nat} (fits : extents.length ≤ rank) :
    dropOnes rank extents = extents := by
  cases extents with
  | nil => rfl
  | cons e rest =>
    unfold dropOnes
    split
    next shorter =>
      cases shorter
      rw [if_neg (by simp at fits; omega)]
    · rfl

theorem spread_self [Inhabited α] (t : Tensor α) : t.spread t.shape = .ok t := by
  have shape : dropOnes t.shape.length t.shape = t.shape := dropOnes_of_length (Nat.le_refl _)
  unfold spread
  dsimp only
  rw [if_pos shape]
  congr 1
  cases t
  congr 1

theorem map_congr {β : Type} {f g : α → β} {t : Tensor α} (same : ∀ x ∈ t.toList, f x = g x) :
    t.map f = t.map g := by
  have data : t.data.map f = t.data.map g := Array.map_inj_left.mpr fun x mem =>
    same x (Array.mem_def.mp mem)
  unfold map
  congr 1

@[simp] theorem map_map {β γ : Type} (f : α → β) (g : β → γ) (t : Tensor α) :
    (t.map f).map g = t.map fun x => g (f x) := by
  have data : (t.data.map f).map g = t.data.map fun x => g (f x) := by simp [Function.comp_def]
  unfold map
  congr 1

@[simp] theorem toList_map {β : Type} (f : α → β) (t : Tensor α) :
    (t.map f).toList = t.toList.map f := by
  simp [map, toList]

variable [Element α]

/-- No element of an array is a refusal. -/
def Proper (t : Tensor α) : Prop := ∀ x ∈ t.toList, Element.refusal? x = none

theorem sound_eq_ok {t u : Tensor α} : t.sound = .ok u ↔ t = u ∧ t.Proper := by
  unfold sound refusal? Proper toList
  cases found : t.data.findSome? Element.refusal? with
  | none =>
    have none : ∀ x ∈ t.data, Element.refusal? x = none := by simpa using found
    simpa using fun _ => none
  | some k =>
    obtain ⟨x, inside, refused⟩ := Array.exists_of_findSome?_eq_some found
    refine ⟨nofun, fun ⟨_, proper⟩ => ?_⟩
    rw [proper x (by simpa using inside)] at refused
    cases refused

/-- A proper array is stored element by element in a buffer of its extents. -/
theorem assign_self {t : Tensor α} (proper : t.Proper) (type : StorageType) :
    t.assign type t.shape = .ok (t.map (Element.store type)) := by
  have spread := @spread_self α ⟨Element.whole 0⟩ t
  rw [assign, sound_eq_ok.mpr ⟨rfl, proper⟩]
  exact congrArg (fun u => u >>= fun u => pure (u.map (Element.store type))) spread

end Tensor

end ReverseMode
