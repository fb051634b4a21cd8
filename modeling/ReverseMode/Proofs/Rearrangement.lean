import ReverseMode.Proofs.Inference
import ReverseMode.Proofs.Matrices
import ReverseMode.Proofs.Relocation

/-!
Arrays arranged anew.

A transposition lists the axes of its input in another order; a view under other extents keeps the
order of the elements. Both lead every position of the output to one of the input and reach each
position of the input once, so it is given what a single position of the output is given.
-/

namespace ReverseMode

open scoped Element

namespace Tensor

/-! ### Axes in another order -/

section Axes

variable {listed p q : List Nat} {rank : Nat}

/-- A position with its coordinates in the order in which axes are listed. -/
def listing (listed p : List Nat) : List Nat := listed.map fun x => p.getD x 0

theorem getD_listing {j : Nat} (bound : j < listed.length) :
    (listing listed p).getD j 0 = p.getD listed[j] 0 := by
  simp [listing, bound]

/-- A position with its coordinates put back, where axes are listed in another order. -/
def restored (rank : Nat) (listed q : List Nat) : List Nat :=
  (List.range rank).map fun x => q.getD (listed.idxOf x) 0

variable (perm : listed.Perm (List.range rank))

include perm

theorem listed_lt {x : Nat} : x ∈ listed ↔ x < rank := perm.mem_iff.trans List.mem_range

theorem length_listed : listed.length = rank := perm.length_eq.trans List.length_range

theorem nodup_listed : listed.Nodup := perm.nodup_iff.mpr List.nodup_range

theorem restored_listing (length : p.length = rank) :
    restored rank listed (listing listed p) = p := by
  apply ext_getD (by simp [restored, length])
  intro x bound
  have bound : x < rank := by simpa [restored] using bound
  have place := List.idxOf_lt_length_iff.mpr ((listed_lt perm).mpr bound)
  rw [restored, getD_map_range _ _ bound, getD_listing place, List.getElem_idxOf]

theorem listing_restored (length : q.length = rank) :
    listing listed (restored rank listed q) = q := by
  apply ext_getD (by simp [listing, length, length_listed perm])
  intro j bound
  have bound : j < listed.length := by simpa [listing] using bound
  have axial := (listed_lt perm).mp (List.getElem_mem bound)
  rw [getD_listing bound, restored, getD_map_range _ _ axial, (nodup_listed perm).idxOf_getElem]

theorem restored_eq_iff (before : p.length = rank) (after : q.length = rank) :
    restored rank listed q = p ↔ q = listing listed p := by
  constructor
  · rintro rfl
    exact (listing_restored perm after).symm
  · rintro rfl
    exact restored_listing perm before

/-- The place of an axis in the inverse permutation is the axis that is listed there. -/
theorem idxOf_inverse {j : Nat} (bound : j < listed.length) :
    (inversePermutation listed).idxOf j = listed[j] := by
  have axial : listed[j] < (inversePermutation listed).length := by
    rw [inversePermutation, List.length_map, List.length_range, length_listed perm]
    exact (listed_lt perm).mp (List.getElem_mem bound)
  have nodup : (inversePermutation listed).Nodup := by
    apply List.nodup_range.map_on
    intro x mem y _ same
    rw [List.mem_range, length_listed perm] at mem
    exact (List.idxOf_inj ((listed_lt perm).mpr mem)).mp same
  have place : (inversePermutation listed)[listed[j]] = j := by
    simp only [inversePermutation, List.getElem_map, List.getElem_range]
    exact (nodup_listed perm).idxOf_getElem j bound
  have found := nodup.idxOf_getElem listed[j] axial
  rwa [place] at found

/-- Listing axes in an order is undone by the inverse permutation. -/
theorem restored_inverse (p : List Nat) :
    restored rank (inversePermutation listed) p = listing listed p := by
  apply List.ext_getElem (by simp [restored, listing, length_listed perm])
  intro j bound bound'
  have bound : j < listed.length := by simpa [listing] using bound'
  simp only [restored, listing, List.getElem_map, List.getElem_range, idxOf_inverse perm bound]

end Axes

section Permuted

variable {α : Type} [Inhabited α] {a g : Tensor α} {listed p q : List Nat}
variable (perm : listed.Perm (List.range a.rank))

theorem get_permute {t : Tensor α} (here : q ∈ positions (listed.map t.extent)) :
    (t.permute listed).get q = t.get (restored t.rank listed q) := get_ofFn here

include perm

omit [Inhabited α] in
theorem restored_mem (here : q ∈ positions (listed.map a.extent)) :
    restored a.rank listed q ∈ positions a.shape :=
  permute_mem (fun _ => (listed_lt perm).mpr) here

omit [Inhabited α] in
theorem listing_mem (inside : p ∈ positions a.shape) :
    listing listed p ∈ positions (listed.map a.extent) := by
  obtain ⟨_, less⟩ := mem_positions_getD.mp inside
  apply mem_positions_getD.mpr
  constructor
  · simp [listing]
  · intro j bound
    have bound : j < listed.length := by simpa using bound
    have axial := (listed_lt perm).mp (List.getElem_mem bound)
    rw [getD_listing bound]
    simpa [bound, Tensor.extent] using less _ axial

/-- An array with its axes put back has the extents that it had. -/
theorem shape_restored (extents : g.shape = listed.map a.extent) :
    (g.permute (inversePermutation listed)).shape = a.shape := by
  have rank : (g.permute (inversePermutation listed)).shape.length = a.shape.length := by
    simp [permute, ofFn, inversePermutation, length_listed perm]
    rfl
  apply List.ext_getElem rank
  intro x _ axial
  have place := List.idxOf_lt_length_iff.mpr ((listed_lt perm).mpr axial)
  have extent : g.extent (listed.idxOf x) = a.extent x := by
    rw [Tensor.extent, extents, List.getD_eq_getElem _ _ (by simpa using place),
      List.getElem_map, List.getElem_idxOf]
  have made : (g.permute (inversePermutation listed)).shape[x] = g.extent (listed.idxOf x) := by
    simp [permute, ofFn, inversePermutation]
  rw [made, extent, Tensor.extent, List.getD_eq_getElem _ _ axial]

/-- An array with its axes put back is read in the order in which they were listed. -/
theorem get_restored (extents : g.shape = listed.map a.extent) (inside : p ∈ positions a.shape) :
    (g.permute (inversePermutation listed)).get p = g.get (listing listed p) := by
  have rank : g.rank = a.rank := by
    rw [Tensor.rank, extents, List.length_map, length_listed perm]
  rw [← shape_restored perm extents] at inside
  rw [get_permute inside, rank, restored_inverse perm]

end Permuted

/-! ### Other extents -/

section Offsets

variable {shape p : List Nat} {n : Nat}

/-- The position that is found at an offset. -/
def located (shape : List Nat) (n : Nat) : List Nat := (positions shape).getD n []

theorem located_mem (bound : n < volume shape) :
    located shape n ∈ positions shape ∧ offset shape (located shape n) = n := by
  rw [← length_positions] at bound
  rw [located, List.getD_eq_getElem _ _ bound]
  exact ⟨List.getElem_mem bound, offset_getElem bound⟩

theorem located_eq_iff (inside : p ∈ positions shape) (bound : n < volume shape) :
    located shape n = p ↔ offset shape p = n := by
  obtain ⟨mem, found⟩ := located_mem bound
  constructor
  · rintro rfl
    exact found
  · intro same
    exact offset_inj mem inside (found.trans same.symm)

/-- The elements of an array under other extents are found at the same offsets. -/
theorem reshape_located {α : Type} [Element α] {t : Tensor α}
    (volumes : volume t.shape = volume shape) :
    ∃ u, t.reshape shape = .ok u ∧ u.shape = shape ∧ ∀ q ∈ positions shape,
      located t.shape (offset shape q) ∈ positions t.shape ∧
        u.get q = t.get (located t.shape (offset shape q)) := by
  refine ⟨⟨shape, t.data, t.size_eq.trans volumes⟩, dif_pos volumes, rfl, fun q here => ?_⟩
  obtain ⟨mem, found⟩ := located_mem (volumes ▸ offset_lt here)
  refine ⟨mem, ?_⟩
  rw [Tensor.get, Tensor.get, found]

end Offsets

end Tensor

/-! ### The operators -/

namespace Operator

open Element.Reading Tensor

variable {α R : Type} [Element α] [CommRing R] {s : Stamp}
variable {ρ : Element.Reading α R s.type.storage} {a g : Tensor α}

/-- A permutation lists every axis once. -/
theorem permutation_eq_ok {axes : List Int} {rank : Nat} {listed : List Nat}
    (permuted : permutation axes rank = .ok listed) : listed.Perm (List.range rank) := by
  unfold permutation at permuted
  rw [throw_unless] at permuted
  obtain ⟨_, permuted⟩ := permuted
  obtain ⟨places, _, permuted⟩ := bind_eq_ok.mp permuted
  rw [throw_unless] at permuted
  obtain ⟨sorted, permuted⟩ := permuted
  obtain rfl := pure_eq_ok.mp permuted
  have sorted : places.mergeSort = List.range rank := by simpa using sorted
  rw [← sorted]
  exact (List.mergeSort_perm places _).symm

theorem transpose_relocates {axes : List Int} {listed : List Nat}
    (permuted : permutation axes a.rank = .ok listed)
    (extents : s.shape.extents = listed.map a.extent) (same : g.shape = s.shape.extents)
    (holds : ρ.Holds a) (gradient : ρ.Holds g) (positive : ∀ e ∈ a.shape, 0 < e) :
    ρ.Relocates (transpose axes) [a] g fun q => (0, restored a.rank listed q) := by
  have perm := permutation_eq_ok permuted
  have shape : (g.permute (inversePermutation listed)).shape = a.shape :=
    shape_restored perm (same.trans extents)
  have entries : ∀ p ∈ positions a.shape,
      (g.permute (inversePermutation listed)).get p = g.get (listing listed p) := fun p inside =>
    get_restored perm (same.trans extents) inside
  have back : ρ.Holds (g.permute (inversePermutation listed)) := by
    intro p inside
    rw [shape] at inside
    rw [entries p inside]
    exact gradient _ (same.trans extents ▸ listing_mem perm inside)
  have lengths : ∀ q ∈ positions s.shape.extents, q.length = a.rank := by
    intro q here
    rw [(mem_positions_getD.mp here).1, extents, List.length_map, length_listed perm]
  have leads : ∀ q ∈ positions s.shape.extents, restored a.rank listed q ∈ positions a.shape :=
    fun q here => restored_mem perm (extents ▸ here)
  have reads : ∀ q ∈ positions s.shape.extents, ∀ p ∈ positions a.shape,
      (restored a.rank listed q = p ↔ q = listing listed p) := fun q here p inside =>
    restored_eq_iff perm (mem_positions_getD.mp inside).1 (lengths q here)
  apply Relocates.single (c := .dense (g.permute (inversePermutation listed)))
  · intro q _ k p fetches
    cases fetches
    rfl
  · intro q here p inside
    rw [reads q here p inside]
    constructor
    · intro fetches
      cases fetches with
      | transpose named moved =>
        cases permuted.symm.trans named
        exact moved
    · exact fun moved => .transpose permuted moved
  · exact leads
  · refine stored_moved (transpose axes) [a] holds leads ?_
    refine bind_eq_ok.mpr ⟨a, rfl, bind_eq_ok.mpr ⟨listed, permuted, ?_⟩⟩
    rw [extents]
    rfl
  · intro out wanted _
    have rank : g.rank = a.rank := by
      rw [Tensor.rank, same, extents, List.length_map, length_listed perm]
    have made : (do pure (g.permute (inversePermutation (← permutation axes g.rank)))) =
        Except.ok (g.permute (inversePermutation listed)) :=
      bind_eq_ok.mpr ⟨listed, rank ▸ permuted, rfl⟩
    exact .inl (congrArg (fun c => [(0, c)]) (back.asDense made))
  · apply adds_moved back shape positive
    · exact fun p inside => extents ▸ listing_mem perm inside
    · exact fun p inside q here => reads q here p inside
    · exact fun p inside => congrArg ρ.val (entries p inside)

/-- Where a view of an array under other extents is had, it has its elements in the same order. -/
theorem reshape_relocates {shape : List Int} (resolved : Shape.resolve shape a.size = .ok s.shape)
    (few : s.shape.rank ≤ mostAxes) (same : g.shape = s.shape.extents)
    (holds : ρ.Holds a) (gradient : ρ.Holds g) (positive : ∀ e ∈ a.shape, 0 < e) :
    ρ.Relocates (reshape shape) [a] g fun q =>
      (0, located a.shape (offset s.shape.extents q)) := by
  have volumes : volume a.shape = volume s.shape.extents :=
    a.size_eq.symm.trans (elements_of_resolve resolved).symm
  obtain ⟨y, viewed, extents, shows⟩ := reshape_located volumes
  have volumes' : volume g.shape = volume a.shape := same ▸ volumes.symm
  obtain ⟨c, back, extents', restores⟩ := reshape_located volumes'
  rw [same] at restores
  have held : ρ.Holds c := by
    intro p inside
    obtain ⟨there, found⟩ := restores p (extents' ▸ inside)
    rw [found]
    exact gradient _ (same ▸ there)
  have reads : ∀ q ∈ positions s.shape.extents, ∀ p ∈ positions a.shape,
      (located a.shape (offset s.shape.extents q) = p ↔
        q = located s.shape.extents (offset a.shape p)) := by
    intro q here p inside
    rw [located_eq_iff inside (volumes ▸ offset_lt here), eq_comm (a := q),
      located_eq_iff here (volumes ▸ offset_lt inside), eq_comm]
  apply Relocates.single (c := .dense c)
  · intro q _ k p fetches
    cases fetches
    rfl
  · intro q here p inside
    rw [located_eq_iff inside (volumes ▸ offset_lt here)]
    constructor
    · intro fetches
      cases fetches with
      | reshape same => exact same
    · exact .reshape
  · exact fun q here => (shows q here).1
  · refine ⟨y, ?_, extents, fun q here => ?_, fun q here => congrArg ρ.val (shows q here).2⟩
    · refine bind_eq_ok.mpr ⟨a, rfl, bind_eq_ok.mpr ⟨s.shape, resolved, ?_⟩⟩
      refine bind_eq_ok.mpr ⟨(), ?_, viewed⟩
      rw [checkRank, if_neg (Nat.not_lt.mpr few)]
    · obtain ⟨there, found⟩ := shows q (extents ▸ here)
      rw [found]
      exact holds _ there
  · intro out wanted _
    exact .inl (congrArg (fun c => [(0, c)]) (held.asDense back))
  · apply adds_moved held extents' positive
    · exact fun p inside => (restores p inside).1
    · exact fun p inside q here => reads q here p inside
    · exact fun p inside => congrArg ρ.val (restores p inside).2

end Operator

end ReverseMode
