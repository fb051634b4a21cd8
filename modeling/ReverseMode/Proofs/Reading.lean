import ReverseMode.Proofs.Assignment
import ReverseMode.Proofs.Broadcast
import ReverseMode.Proofs.Exact

/-!
Elements that are read.

A position inside an array is read off the array, and so is every position of extents that the array
broadcasts to. So a property of all elements of some arrays is one of all elements that are read
where these are combined.
-/

namespace ReverseMode

namespace Tensor

variable {α β γ : Type}

theorem mem_toList_ofFn {shape : List Nat} {f : List Nat → α} {x : α} :
    x ∈ (ofFn shape f).toList ↔ ∃ pos ∈ positions shape, f pos = x := by
  simp [toList, ofFn]

theorem mem_toList_full {shape : List Nat} {x y : α} (mem : y ∈ (full shape x).toList) : y = x := by
  rw [toList, full, Array.toList_replicate] at mem
  exact List.eq_of_mem_replicate mem

theorem map_full (shape : List Nat) (x : α) (f : α → β) :
    (full shape x).map f = full shape (f x) := by
  simp [full, map]

theorem toList_reshape {t u : Tensor α} {shape : List Nat} (reshaped : t.reshape shape = .ok u) :
    u.toList = t.toList ∧ u.shape = shape := by
  unfold reshape at reshaped
  split at reshaped
  · cases reshaped
    exact ⟨rfl, rfl⟩
  · cases reshaped

theorem reshape_self (t : Tensor α) : t.reshape t.shape = .ok t := by
  unfold reshape
  exact dif_pos rfl

theorem get_mem [Inhabited α] {t : Tensor α} {pos : List Nat} (inside : pos ∈ positions t.shape) :
    t.get pos ∈ t.toList := by
  have bound : offset t.shape pos < t.data.size := t.size_eq ▸ offset_lt inside
  rw [get, Array.getD_eq_getD_getElem?, Array.getElem?_eq_getElem bound, Option.getD_some]
  exact Array.mem_def.mp (Array.getElem_mem bound)

/-- The position that is read for a position of combined extents is inside. -/
theorem clamp_mem {shapes : List (List Nat)} {joined shape pos : List Nat}
    (combined : broadcast? shapes = some joined) (mem : shape ∈ shapes)
    (inside : pos ∈ positions joined) : clamp shape pos ∈ positions shape := by
  obtain ⟨length, joins⟩ := broadcast?_eq_some.mp combined
  have fits : shape.length ≤ joined.length := length ▸ length_le_maxRank mem
  obtain ⟨same, below⟩ := List.forall₂_iff_get.mp (mem_positions.mp inside)
  have rank : (clamp shape pos).length = shape.length := by
    rw [clamp, List.length_zipWith, List.length_drop]
    omega
  refine mem_positions.mpr (List.forall₂_iff_get.mpr ⟨rank, fun i first second => ?_⟩)
  -- the axis at the same distance from the end
  have place : pos.length - shape.length + i < pos.length := by omega
  have less := below _ place (by omega)
  have extent : shape[i] = 1 ∨ shape[i] = joined[pos.length - shape.length + i] := by
    have back : joined.length - 1 - (pos.length - shape.length + i) = shape.length - 1 - i := by
      omega
    have either := (joinExtents_eq_some.mp (joins (shape.length - 1 - i))).1
      (backExtent shape (shape.length - 1 - i)) (List.mem_map.mpr ⟨shape, mem, rfl⟩)
    rwa [backExtent_eq second, ← back, backExtent_eq] at either
  simp only [List.get_eq_getElem, clamp, List.getElem_zipWith, List.getElem_drop] at less ⊢
  split
  next one => omega
  next other =>
    rw [extent.resolve_left other]
    exact less

theorem read_mem [Inhabited α] {shapes : List (List Nat)} {joined pos : List Nat} {t : Tensor α}
    (combined : broadcast? shapes = some joined) (mem : t.shape ∈ shapes)
    (inside : pos ∈ positions joined) : t.read pos ∈ t.toList :=
  get_mem (clamp_mem combined mem inside)

/-- Two arrays are combined in the extents that these combine to, from elements of both. -/
theorem combine_eq_ok [Inhabited α] [Inhabited β] {f : α → β → γ} {a : Tensor α} {b : Tensor β}
    {c : Tensor γ} (combined : a.combine f b = .ok c) :
    broadcast? [a.shape, b.shape] = some c.shape ∧
      ∀ z ∈ c.toList, ∃ x ∈ a.toList, ∃ y ∈ b.toList, z = f x y := by
  unfold combine at combined
  split at combined
  next shape joined =>
    cases combined
    refine ⟨joined, fun z mem => ?_⟩
    obtain ⟨pos, inside, rfl⟩ := mem_toList_ofFn.mp mem
    exact ⟨_, read_mem joined (by simp) inside, _, read_mem joined (by simp) inside, rfl⟩
  · cases combined

/-- A number beside an array. -/
theorem combine_number [Inhabited α] {f : α → α → α} (c : α) (t : Tensor α) :
    (scalar c).combine f t = .ok (t.map (f c)) ∧ t.combine f (scalar c) = .ok (t.map (f · c)) := by
  have number (pos : List Nat) : (scalar c).read pos = c := rfl
  constructor
  · rw [combine, show (scalar c).shape = [] from rfl, (broadcast?_scalar t.shape).2]
    refine congrArg Except.ok (ext_get rfl fun pos inside => ?_)
    have inside : pos ∈ positions t.shape := inside
    rw [get_ofFn inside, get_map _ inside, number, read_self inside]
  · rw [combine, show (scalar c).shape = [] from rfl, (broadcast?_scalar t.shape).1]
    refine congrArg Except.ok (ext_get rfl fun pos inside => ?_)
    have inside : pos ∈ positions t.shape := inside
    rw [get_ofFn inside, get_map _ inside, number, read_self inside]

/-! ### Fibres -/

theorem set_getD (shape : List Nat) (axis e : Nat) :
    shape.set axis (shape.getD axis e) = shape := by
  by_cases axial : axis < shape.length
  · rw [List.getD_eq_getElem?_getD, List.getElem?_eq_getElem axial, Option.getD_some,
      List.set_getElem_self]
  · exact List.set_eq_of_length_le (by omega)

variable [Inhabited α] [Inhabited β] {t : Tensor α} {axis : Nat} {pos : List Nat}

@[simp] theorem length_fibre : (t.fibre axis pos).length = t.extent axis := by
  simp [fibre]

/-- A fibre is read inside the array. -/
theorem mem_fibre {x : α} (inside : pos ∈ positions (t.shape.set axis 1))
    (mem : x ∈ t.fibre axis pos) : x ∈ t.toList := by
  obtain ⟨k, less, rfl⟩ := List.mem_map.mp mem
  have moved : pos.set axis k ∈ positions ((t.shape.set axis 1).set axis (t.extent axis)) :=
    set_mem_positions inside (List.mem_range.mp less)
  rw [List.set_set, extent, set_getD] at moved
  exact get_mem moved

/-- A property of what fibres are replaced by is one of all elements. -/
theorem all_mapAxisAt {P : β → Prop} {extent : Nat} {f : List Nat → List α → List β}
    (values : ∀ pos ∈ positions (t.shape.set axis 1), ∀ y ∈ f pos (t.fibre axis pos), P y)
    (outside : P default) : ∀ y ∈ (t.mapAxisAt axis extent f).toList, P y := by
  intro y mem
  obtain ⟨pos, inside, rfl⟩ := mem_toList_ofFn.mp mem
  have start : pos.set axis 0 ∈ positions (t.shape.set axis 1) := by
    have moved : pos.set axis 0 ∈ positions ((t.shape.set axis extent).set axis 1) :=
      set_mem_positions inside Nat.one_pos
    rwa [List.set_set] at moved
  rw [get_ofFn start, Array.getD_eq_getD_getElem?]
  cases found : (f (pos.set axis 0) (t.fibre axis (pos.set axis 0))).toArray[pos.getD axis 0]? with
  | none => exact outside
  | some z => exact values _ start z (by simpa using Array.mem_of_getElem? found)

end Tensor

end ReverseMode
