import ReverseMode.Proofs.Places
import ReverseMode.Proofs.Rearrangement

/-!
Elements that index arrays pick.

An index names a place of an axis, counted from either end. Where all indices do, the places that
they name are found whichever way they are looked up, and what is picked at a position is the
element at the place that is named for it. An element may be picked several times or not at all; its
gradient is the sum of what the positions that picked it are given.
-/

namespace ReverseMode

open scoped Element

/-- What is named on an axis is what the integer wraps to. -/
theorem Axis.names_iff {extent place : Nat} {n : Int} :
    Names extent n place ↔ wrap? n extent = some place := by
  unfold Names wrap?
  split
  · split
    · rw [Option.some.injEq]
      omega
    · simp only [reduceCtorEq, iff_false]
      omega
  · split
    · rw [Option.some.injEq]
      omega
    · simp only [reduceCtorEq, iff_false]
      omega

/-- An element that stands for a place of an axis, however it is asked for it. -/
def Element.Points {α : Type} [Element α] (extent : Nat) (x : α) : Prop :=
  Element.position? x = some (Element.position x) ∧ OnAxis extent (Element.position x)

/-- Where every call answers, a pass over all of them lists the answers. -/
theorem mapM_answers {β γ : Type} {f : β → Except Fault γ} {g : β → γ} {xs : List β}
    (each : ∀ x ∈ xs, f x = .ok (g x)) : xs.mapM f = .ok (xs.map g) := by
  induction xs with
  | nil => rfl
  | cons x xs ih =>
    obtain ⟨here, later⟩ := List.forall_mem_cons.mp each
    rw [List.mapM_cons, here, ih later]
    rfl

namespace Tensor

variable {α : Type} [Element α] {extent : Nat} {indices : Tensor α} {pos : List Nat}

/-- The places that indices name. -/
def named (extent : Nat) (indices : Tensor α) : Tensor Nat :=
  indices.map fun x => (Axis.wrap? (Element.position x) extent).getD 0

omit [Element α] in
/-- Indices that are read as integers on the axis are looked up one by one. -/
theorem placesBy_answers {position : α → Except Fault Int} {number : α → Int}
    (each : ∀ x ∈ indices.toList, position x = .ok (number x) ∧ OnAxis extent (number x)) :
    placesBy extent position indices =
      .ok (indices.map fun x => (Axis.wrap? (number x) extent).getD 0) := by
  have found : indices.toList.mapM position = .ok (indices.toList.map number) :=
    mapM_answers fun x mem => (each x mem).1
  have places : (indices.toList.map number).mapM (placeOf extent) =
      .ok ((indices.toList.map number).map fun n => (Axis.wrap? n extent).getD 0) := by
    refine mapM_answers fun n mem => ?_
    obtain ⟨x, given, rfl⟩ := List.mem_map.mp mem
    obtain ⟨i, wrapped, _⟩ := (each x given).2.place
    rw [placeOf, wrapped, Option.getD_some]
  have kept : ofArray? indices.shape
      ((indices.toList.map number).map fun n => (Axis.wrap? n extent).getD 0).toArray =
        some (indices.map fun x => (Axis.wrap? (number x) extent).getD 0) := by
    have listed : ((indices.toList.map number).map fun n => (Axis.wrap? n extent).getD 0).toArray =
        indices.data.map fun x => (Axis.wrap? (number x) extent).getD 0 := by
      rw [List.map_map, toList, ← List.map_toArray, Array.toArray_toList]
      rfl
    have size : (indices.data.map fun x => (Axis.wrap? (number x) extent).getD 0).size =
        volume indices.shape := by
      rw [Array.size_map, indices.size_eq]
    rw [listed, ofArray?, dif_pos size]
    rfl
  refine bind_eq_ok.mpr ⟨_, found, bind_eq_ok.mpr ⟨_, places, ?_⟩⟩
  rw [kept]
  rfl

variable (points : ∀ x ∈ indices.toList, Element.Points extent x)

include points

theorem exactPlaces_named : exactPlaces extent indices = .ok (indices.named extent) := by
  refine placesBy_answers fun x mem => ?_
  obtain ⟨read, on⟩ := points x mem
  exact ⟨by rw [read], on⟩

theorem placeTensor_named : placeTensor extent indices = .ok (indices.named extent) :=
  placesBy_answers fun x mem => ⟨rfl, (points x mem).2⟩

/-- The place that is found is the one that the index names. -/
theorem names_named (inside : pos ∈ positions indices.shape) :
    Axis.Names extent (Element.position (indices.get pos)) ((indices.named extent).get pos) := by
  obtain ⟨i, wrapped, _⟩ := (points _ (get_mem inside)).2.place
  rw [named, get_map _ inside, wrapped, Option.getD_some]
  exact Axis.names_iff.mpr wrapped

/-- No other place is named. -/
theorem named_unique (inside : pos ∈ positions indices.shape) {place : Nat}
    (names : Axis.Names extent (Element.position (indices.get pos)) place) :
    place = (indices.named extent).get pos := by
  have wrapped := Axis.names_iff.mp (names_named points inside)
  exact Option.some.inj ((Axis.names_iff.mp names).symm.trans wrapped)

end Tensor

namespace Tensor

/-- An array fills an array of its own extents. -/
theorem broadcastTo_self {α : Type} [Element α] (t : Tensor α) : t.broadcastTo t.shape = .ok t := by
  have joined : broadcastsTo t.shape t.shape = true := by
    rw [broadcastsTo, (Fits.refl t.shape).broadcast]
    exact decide_eq_true rfl
  rw [broadcastTo, if_pos joined]
  refine congrArg Except.ok (ext_get rfl fun q inside => ?_)
  have inside : q ∈ positions t.shape := inside
  rw [expand, get_ofFn inside, read_self inside]

section Outside

variable {shape shape' q : List Nat} {i k : Nat}

/-- Arrays that agree outside an axis have the same positions there. -/
theorem set_mem_outside (agree : agreeOutside i shape shape' = true)
    (here : q ∈ positions shape) (small : k < shape'.getD i 1) :
    q.set i k ∈ positions shape' := by
  obtain ⟨_, outside⟩ := agreeOutside_iff.mp agree
  have start : q.set i 0 ∈ positions (shape'.set i 1) := outside ▸ start_mem here
  have placed := ReverseMode.place_mem start small
  rwa [List.set_set] at placed

/-- Where an array is read whose extents agree with those of the indices outside the axis. -/
theorem clamp_outside (agree : agreeOutside i shape shape' = true) (axial : i < shape'.length)
    (here : q ∈ positions shape) : (clamp shape' q).set i k = q.set i k := by
  obtain ⟨lengths, outside⟩ := agreeOutside_iff.mp agree
  obtain ⟨length, less⟩ := mem_positions_getD.mp here
  have full : (clamp shape' q).length = shape'.length := by
    simp [clamp, length, lengths]
  apply ext_getD
  · rw [List.length_set, List.length_set, full, length, lengths]
  · intro l bound
    have bound : l < shape'.length := by simpa [full] using bound
    rw [getD_set (full.symm ▸ axial), getD_set (by omega)]
    split
    · rfl
    next other =>
      have extent := congrArg (fun e => e.getD l 1) outside
      simp only [getD_set axial, getD_set (lengths.symm ▸ axial), if_neg other] at extent
      have small := less l (lengths.symm ▸ bound)
      have there := List.getElem?_eq_getElem (l := q) (show l < q.length by omega)
      have front : q.length - shape'.length = 0 := by omega
      have read : (clamp shape' q).getD l 0 = if shape'.getD l 1 = 1 then 0 else q.getD l 0 := by
        simp [clamp, bound, front, List.getElem?_zipWith, there]
      rw [read]
      split
      · omega
      · rfl

end Outside

end Tensor

namespace Operator

open Element.Reading Tensor

variable {α R : Type} [Element α] [CommRing R] {s : Stamp}
variable {ρ : Element.Reading α R s.type.storage} {a indices g : Tensor α} {axis : Axis} {i : Nat}

omit [Element α] in
/-- Indices that agree with an array outside an axis are not wider there. -/
theorem gather_inside (agree : agreeOutside i indices.shape a.shape = true) :
    indices.rank = a.rank ∧ ∀ k < a.rank, k ≠ i → indices.extent k ≤ a.extent k := by
  obtain ⟨ranks, outside⟩ := agreeOutside_iff.mp agree
  refine ⟨ranks, fun k _ other => ?_⟩
  have extent := congrArg (fun e => e[k]?.getD 1) outside
  simp only [List.getElem?_set_ne other.symm] at extent
  rw [Tensor.extent, Tensor.extent, List.getD_eq_getElem?_getD, List.getD_eq_getElem?_getD, extent]

/-- Where every index names a place, the element at that place is gathered. -/
theorem gather_value (resolved : axis.resolve a.rank = .ok i)
    (agree : agreeOutside i indices.shape a.shape = true)
    (points : ∀ x ∈ indices.toList, Element.Points (a.extent i) x) (rank : Nat) :
    (gather axis).value rank [a, indices] = .ok (ofFn indices.shape fun q =>
      a.get (q.set i ((indices.named (a.extent i)).get q))) := by
  obtain ⟨ranks, outside⟩ := agreeOutside_iff.mp agree
  refine bind_eq_ok.mpr ⟨(a, indices), rfl, bind_eq_ok.mpr ⟨i, resolved, ?_⟩⟩
  refine throw_unless.mpr ⟨not_not.mpr ranks, ?_⟩
  rw [← outside, broadcast?_set]
  refine bind_eq_ok.mpr ⟨_, placeTensor_named points, ?_⟩
  refine congrArg Except.ok (ext_get rfl fun q here => ?_)
  have here : q ∈ positions indices.shape := here
  have own : q ∈ positions (indices.named (a.extent i)).shape := here
  rw [get_ofFn here, get_ofFn here, read_self own,
    clamp_outside agree (Axis.resolve_lt resolved) here]

theorem gather_relocates (resolved : axis.resolve a.rank = .ok i)
    (agree : agreeOutside i indices.shape a.shape = true)
    (points : ∀ x ∈ indices.toList, Element.Points (a.extent i) x)
    (extents : s.shape.extents = indices.shape) (same : g.shape = s.shape.extents)
    (holds : ρ.Holds a) (gradient : ρ.Holds g) :
    ρ.Relocates (gather axis) [a, indices] g fun q =>
      (0, q.set i ((indices.named (a.extent i)).get q)) := by
  have leads : ∀ q ∈ positions s.shape.extents,
      q.set i ((indices.named (a.extent i)).get q) ∈ positions a.shape := by
    intro q here
    rw [extents] at here
    exact set_mem_outside agree here (names_named points here).1
  apply Relocates.single (c := .sparse (addendsBy a.shape
    (fun pos => pos.set i ((indices.named (a.extent i)).get pos)) g))
  · intro q _ k p fetches
    cases fetches
    rfl
  · intro q here p inside
    rw [extents] at here
    constructor
    · intro fetches
      cases fetches with
      | gather resolved' names =>
        cases resolved.symm.trans resolved'
        rw [named_unique points here names]
    · rintro rfl
      exact .gather resolved (names_named points here)
  · exact leads
  · refine stored_moved (gather axis) [a, indices] holds leads ?_
    rw [extents]
    exact gather_value resolved agree points _
  · intro out wanted length
    refine ifWanted_first ?_ (length ▸ Nat.two_pos)
    refine bind_eq_ok.mpr ⟨i, resolved, bind_eq_ok.mpr ⟨_, placeTensor_named points, ?_⟩⟩
    have fits := gather_inside agree
    refine throw_unless.mpr ⟨?_, bind_eq_ok.mpr ⟨g, ?_, rfl⟩⟩
    · simpa using fits
    · rw [← extents, ← same]
      exact broadcastTo_self g
  · rw [← same] at leads ⊢
    exact adds_sparse gradient leads

end Operator

/-! ### An axis in front -/

namespace Tensor

section Front

variable {rank i : Nat} {q : List Nat}

/-- The axes with one of them listed first. -/
def fronted (rank i : Nat) : List Nat := i :: (List.range rank).filter (· != i)

theorem fronted_eq (rank i : Nat) : fronted rank i = i :: (List.range rank).erase i := by
  rw [fronted, List.nodup_range.erase_eq_filter]

theorem fronted_perm (axial : i < rank) : (fronted rank i).Perm (List.range rank) := by
  rw [fronted_eq]
  exact (List.perm_cons_erase (List.mem_range.mpr axial)).symm

/-- What belongs to the axes, listed with one axis first. -/
theorem map_fronted {l : List Nat} (axial : i < l.length) (d : Nat) :
    (fronted l.length i).map (fun x => l.getD x d) = l.getD i d :: l.eraseIdx i := by
  have place : (List.range l.length).idxOf i = i := by
    have found := List.nodup_range.idxOf_getElem i (by simpa using axial)
    rwa [List.getElem_range] at found
  have same : (List.range l.length).map (fun x => l.getD x d) = l := by
    apply ext_getD (by simp)
    intro x bound
    have bound : x < l.length := by simpa using bound
    rw [getD_map_range _ _ bound, List.getD_eq_getElem _ _ bound, List.getD_eq_getElem _ _ bound]
  rw [fronted_eq, List.map_cons, ← List.eraseIdx_idxOf_eq_erase, place, ← List.eraseIdx_map, same]

/-- A coordinate put back between the other ones. -/
theorem insert_eraseIdx (axial : i < q.length) (k : Nat) :
    (q.eraseIdx i).take i ++ [k] ++ (q.eraseIdx i).drop i = q.set i k := by
  rw [List.set_eq_take_append_cons_drop, if_pos axial, List.eraseIdx_eq_take_drop_succ]
  have front : (q.take i).length = i := by
    rw [List.length_take]
    omega
  rw [List.take_left' front, List.drop_left' front, List.append_assoc, List.singleton_append]

/-- A coordinate put in the place of the ones that are there. -/
theorem insert_set (axial : i < q.length) (k : Nat) :
    q.take i ++ [k] ++ q.drop (i + 1) = q.set i k := by
  rw [List.set_eq_take_append_cons_drop, if_pos axial, List.append_assoc, List.singleton_append]

end Front

end Tensor

namespace Element.Reading

open Tensor

variable {α R : Type} [Element α] [CommRing R] {type : StorageType}
variable {ρ : Element.Reading α R type} {g : Tensor α} {listed : List Nat}

/-- Every position of an array whose axes are listed in another order is such a listing. -/
theorem permuted_mem (perm : listed.Perm (List.range g.rank)) {pos : List Nat}
    (there : pos ∈ positions (g.permute listed).shape) :
    ∃ q ∈ positions g.shape, listing listed q = pos ∧ (g.permute listed).get pos = g.get q := by
  have there : pos ∈ positions (listed.map g.extent) := there
  have length : pos.length = g.rank := by
    rw [(mem_positions_getD.mp there).1, List.length_map, length_listed perm]
  exact ⟨_, restored_mem perm there, listing_restored perm length, get_permute there⟩

/-- The sum over the positions of an array whose axes are listed in another order. -/
theorem sum_permuted (perm : listed.Perm (List.range g.rank))
    {source lead : List Nat → List Nat}
    (same : ∀ q ∈ positions g.shape, source (listing listed q) = lead q) (p : List Nat) :
    ∑ pos ∈ places (g.permute listed).shape with source pos = p,
        Element.Reading.entry ρ (g.permute listed) pos =
      ∑ q ∈ places g.shape with lead q = p, Element.Reading.entry ρ g q := by
  have lengths : ∀ q ∈ positions g.shape, q.length = g.rank := fun q here =>
    (mem_positions_getD.mp here).1
  symm
  apply Finset.sum_bij fun q _ => listing listed q
  · intro q mem
    obtain ⟨here, led⟩ := Finset.mem_filter.mp mem
    have here := mem_places.mp here
    refine Finset.mem_filter.mpr ⟨mem_places.mpr (listing_mem perm here), ?_⟩
    exact (same q here).trans led
  · intro q mem q' mem' listed'
    have here := mem_places.mp (Finset.mem_filter.mp mem).1
    have here' := mem_places.mp (Finset.mem_filter.mp mem').1
    rw [← restored_listing perm (lengths q here), listed', restored_listing perm (lengths q' here')]
  · intro pos mem
    obtain ⟨there, led⟩ := Finset.mem_filter.mp mem
    obtain ⟨q, here, rfl, _⟩ := permuted_mem perm (mem_places.mp there)
    exact ⟨q, Finset.mem_filter.mpr ⟨mem_places.mpr here, (same q here).symm.trans led⟩, rfl⟩
  · intro q mem
    have here := mem_places.mp (Finset.mem_filter.mp mem).1
    rw [Element.Reading.entry, Element.Reading.entry, get_permute (listing_mem perm here),
      restored_listing perm (lengths q here)]

end Element.Reading

namespace Operator

open Element.Reading Tensor

variable {α R : Type} [Element α] [CommRing R] {s : Stamp}
variable {ρ : Element.Reading α R s.type.storage} {a indices g : Tensor α} {axis : Axis} {i n : Nat}

/-- Where an amount is added whose position is listed with the axis in front. -/
def frontSource (i : Nat) (named : Tensor Nat) (pos : List Nat) : List Nat :=
  (pos.drop named.rank).take i ++ [named.get (pos.take named.rank)] ++
    (pos.drop named.rank).drop i

theorem frontSource_listing {named : Tensor Nat} (list : named.shape = [n]) {q : List Nat}
    (axial : i < q.length) : frontSource i named (listing (fronted q.length i) q) =
      q.set i (named.get [q.getD i 0]) := by
  have one : named.rank = 1 := by rw [Tensor.rank, list, List.length_singleton]
  rw [frontSource, one, listing, map_fronted axial]
  exact insert_eraseIdx axial _

omit [Element α] in
/-- An array with an axis in front has the extent there first, then the other ones. -/
theorem shape_axisFirst [Inhabited α] (axial : i < g.rank) :
    (g.axisFirst i).shape = g.shape.getD i 1 :: g.shape.eraseIdx i :=
  map_fronted axial 1

/-- Amounts that are listed with an axis in front are added to the places that the indices name. -/
theorem adds_placed {named : Tensor Nat} {shape : List Nat} (axial : i < shape.length)
    (list : named.shape = [n]) (extents : g.shape = shape.set i n) (gradient : ρ.Holds g)
    (below : ∀ k < n, named.get [k] < shape.getD i 1) :
    ∃ c, placeAddends i named shape g = .ok c ∧ ρ.Adds c shape fun p =>
      ∑ q ∈ places g.shape with q.set i (named.get [q.getD i 0]) = p,
        Element.Reading.entry ρ g q := by
  have axial' : i < g.rank := by
    rw [Tensor.rank, extents, List.length_set]
    exact axial
  have perm := fronted_perm axial'
  have width : g.shape.getD i 1 = n := by rw [extents, getD_set axial, if_pos rfl]
  have front : (g.axisFirst i).shape = named.shape ++ shape.eraseIdx i := by
    rw [shape_axisFirst axial', width, extents, List.eraseIdx_set_eq, list, List.singleton_append]
  have sources : ∀ q ∈ positions g.shape, frontSource i named (listing (fronted g.rank i) q) =
      q.set i (named.get [q.getD i 0]) := by
    intro q here
    have length : q.length = g.rank := (mem_positions_getD.mp here).1
    rw [← length]
    exact frontSource_listing list (length.symm ▸ axial')
  have leads : ∀ q ∈ positions g.shape, q.set i (named.get [q.getD i 0]) ∈ positions shape := by
    intro q here
    have less := (mem_positions_getD.mp here).2 i axial'
    rw [width] at less
    rw [extents] at here
    exact replaced_mem here (below _ less)
  have held : ρ.Holds (g.axisFirst i) := by
    intro pos there
    obtain ⟨q, here, _, same⟩ := permuted_mem perm there
    exact same ▸ gradient q here
  have ends : ∀ pos ∈ positions (g.axisFirst i).shape,
      frontSource i named pos ∈ positions shape := by
    intro pos there
    obtain ⟨q, here, rfl, _⟩ := permuted_mem perm there
    exact (sources q here).symm ▸ leads q here
  refine ⟨_, ?_, (adds_sparse held ends).congr fun p _ => sum_permuted perm sources p⟩
  apply throw_unless.mpr
  refine ⟨Nat.not_le.mpr axial', bind_eq_ok.mpr ⟨g.axisFirst i, ?_, rfl⟩⟩
  rw [← front]
  exact broadcastTo_self _

/-- Where every index of a list names a place, the elements at those places are picked. -/
theorem indexSelect_value (resolved : axis.resolve a.rank = .ok i) (list : indices.shape = [n])
    (points : ∀ x ∈ indices.toList, Element.Points (a.extent i) x) (rank : Nat) :
    (indexSelect axis).value rank [a, indices] = .ok (ofFn (a.shape.set i n) fun q =>
      a.get (q.set i ((indices.named (a.extent i)).get [q.getD i 0]))) := by
  have axial : i < a.shape.length := Axis.resolve_lt resolved
  have one : (indices.named (a.extent i)).shape = [n] := list
  refine bind_eq_ok.mpr ⟨(a, indices), rfl, bind_eq_ok.mpr ⟨i, resolved, ?_⟩⟩
  refine bind_eq_ok.mpr ⟨_, exactPlaces_named points, congrArg Except.ok ?_⟩
  rw [Tensor.rank, one, List.length_singleton, insert_set axial n]
  refine ext_get rfl fun q here => ?_
  have here : q ∈ positions (a.shape.set i n) := here
  have axial' : i < q.length := by
    rw [(mem_positions_getD.mp here).1, List.length_set]
    exact axial
  rw [get_ofFn here, get_ofFn here, List.drop_eq_getElem_cons axial', List.take_succ_cons,
    List.take_zero, insert_set axial', List.getD_eq_getElem _ _ axial']

theorem indexSelect_relocates (resolved : axis.resolve a.rank = .ok i) (list : indices.shape = [n])
    (points : ∀ x ∈ indices.toList, Element.Points (a.extent i) x)
    (extents : s.shape.extents = a.shape.set i n) (same : g.shape = s.shape.extents)
    (holds : ρ.Holds a) (gradient : ρ.Holds g) :
    ρ.Relocates (indexSelect axis) [a, indices] g fun q =>
      (0, q.set i ((indices.named (a.extent i)).get [q.getD i 0])) := by
  have axial : i < a.shape.length := Axis.resolve_lt resolved
  have listed : ∀ k < n, [k] ∈ positions indices.shape := by
    intro k bound
    rw [list]
    simpa [positions] using bound
  have below : ∀ k < n, (indices.named (a.extent i)).get [k] < a.shape.getD i 1 := fun k bound =>
    (names_named points (listed k bound)).1
  have inside : ∀ q ∈ positions s.shape.extents, [q.getD i 0] ∈ positions indices.shape := by
    intro q here
    rw [extents] at here
    exact listed _ (getD_lt_of_set axial here)
  have leads : ∀ q ∈ positions s.shape.extents,
      q.set i ((indices.named (a.extent i)).get [q.getD i 0]) ∈ positions a.shape := by
    intro q here
    have named := (names_named points (inside q here)).1
    rw [extents] at here
    exact replaced_mem here named
  have one : (indices.named (a.extent i)).shape = [n] := list
  obtain ⟨c, made, adds⟩ := adds_placed axial one (same.trans extents) gradient below
  apply Relocates.single (c := c)
  · intro q _ k p fetches
    cases fetches
    rfl
  · intro q here p _
    constructor
    · intro fetches
      cases fetches with
      | indexSelect resolved' names =>
        cases resolved.symm.trans resolved'
        rw [named_unique points (inside q here) names]
    · rintro rfl
      exact .indexSelect resolved (names_named points (inside q here))
  · exact leads
  · refine stored_moved (indexSelect axis) [a, indices] holds leads ?_
    rw [extents]
    exact indexSelect_value resolved list points _
  · intro out wanted length
    refine ifWanted_first ?_ (length ▸ Nat.two_pos)
    exact bind_eq_ok.mpr ⟨i, resolved, bind_eq_ok.mpr ⟨_, exactPlaces_named points, made⟩⟩
  · exact same ▸ adds

end Operator

end ReverseMode
