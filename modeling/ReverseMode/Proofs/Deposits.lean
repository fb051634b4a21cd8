import Mathlib.Data.List.GetD
import ReverseMode.Proofs.Additions
import ReverseMode.Proofs.Fibres

/-!
Amounts added at places.

A gradient is not only added as a whole. Its elements are added one after the other at the places
that they belong to, or together in a window of the buffer. Either way every place is given the sum
over the positions of the gradient that belong to it, however many there are.
-/

namespace ReverseMode

open scoped Element

/-- Different positions have different offsets. -/
theorem offset_inj {shape p q : List Nat} (here : p ∈ positions shape) (there : q ∈ positions shape)
    (same : offset shape p = offset shape q) : p = q := by
  have placed : ((positions shape).map (offset shape)).Nodup := by
    rw [map_offset_positions]
    exact List.nodup_range
  exact List.inj_on_of_nodup_map placed here there same

/-- A position with another place of an axis whose extent was changed. -/
theorem replaced_mem {shape q : List Nat} {axis n k : Nat}
    (inside : q ∈ positions (shape.set axis n)) (small : k < shape.getD axis 1) :
    q.set axis k ∈ positions shape := by
  have placed : q.set axis k ∈ positions ((shape.set axis n).set axis (shape.getD axis 1)) :=
    Tensor.set_mem_positions inside small
  rwa [List.set_set, Tensor.set_getD] at placed

namespace Tensor

variable {α : Type} [Element α] {t : Tensor α} {p r : List Nat}

/-- One amount changes one element. -/
theorem get_addAt (here : p ∈ positions t.shape) (there : r ∈ positions t.shape) (x : α) :
    (t.addAt [⟨offset t.shape r, x⟩]).get p =
      if r = p then Element.like (t.get p) (t.get p + x) else t.get p := by
  have bound : offset t.shape p < t.data.size := t.size_eq ▸ offset_lt here
  have apart : offset t.shape r = offset t.shape p ↔ r = p :=
    ⟨offset_inj there here, congrArg _⟩
  have bound' : offset t.shape p < (t.data.modify (offset t.shape r) fun y =>
      Element.like y (y + x)).size := by
    rwa [Array.size_modify]
  rw [Tensor.get, Tensor.get, Array.getD_eq_getD_getElem?, Array.getD_eq_getD_getElem?,
    Array.getElem?_eq_getElem bound]
  change ((t.data.modify (offset t.shape r) fun y =>
    Element.like y (y + x))[offset t.shape p]?).getD default = _
  rw [Array.getElem?_eq_getElem bound', Array.getElem_modify]
  simp only [apart, Option.getD_some]

end Tensor

namespace Element.Reading

open Tensor

variable {α R : Type} [Element α] [CommRing R] {type : StorageType}
variable {ρ : Element.Reading α R type} {shape : List Nat} {g : Tensor α}

/-- An array is another one with an amount added at every place. -/
structure Raised (ρ : Element.Reading α R type) (t u : Tensor α) (amount : List Nat → R) :
    Prop where
  shape : u.shape = t.shape
  holds : ρ.Holds u
  entry : ∀ p ∈ positions t.shape, ρ.entry u p = ρ.entry t p + amount p

namespace Raised

variable {t u v : Tensor α} {amount amount' : List Nat → R}

theorem refl (holds : ρ.Holds t) : ρ.Raised t t fun _ => 0 where
  shape := rfl
  holds := holds
  entry _ _ := (add_zero _).symm

theorem trans (first : ρ.Raised t u amount) (second : ρ.Raised u v amount') :
    ρ.Raised t v fun p => amount p + amount' p where
  shape := second.shape.trans first.shape
  holds := second.holds
  entry p inside := by
    rw [second.entry p (first.shape ▸ inside), first.entry p inside, add_assoc]

theorem congr (raised : ρ.Raised t u amount)
    (same : ∀ p ∈ positions t.shape, amount p = amount' p) : ρ.Raised t u amount' where
  shape := raised.shape
  holds := raised.holds
  entry p inside := same p inside ▸ raised.entry p inside

end Raised

theorem Adds.raised {c : Contribution α} {amount : List Nat → R} (adds : ρ.Adds c shape amount)
    {target : Tensor α} (extents : target.shape = shape) (holds : ρ.Holds target) :
    ∃ t, c.addTo target = .ok t ∧ ρ.Raised target t amount := by
  obtain ⟨t, added, same, kept, entries⟩ := adds target extents holds
  exact ⟨t, added, same.trans extents.symm, kept, extents ▸ entries⟩

theorem adds_of_raised {c : Contribution α} {amount : List Nat → R}
    (raises : ∀ target : Tensor α, target.shape = shape → ρ.Holds target →
      ∃ t, c.addTo target = .ok t ∧ ρ.Raised target t amount) : ρ.Adds c shape amount := by
  intro target extents holds
  obtain ⟨t, added, raised⟩ := raises target extents holds
  exact ⟨t, added, raised.shape.trans extents, raised.holds, extents ▸ raised.entry⟩

/-! ### As a whole -/

/-- A gradient whose elements were moved is added as a whole. Each of its places belongs to a single
position of the gradient as it was. -/
theorem adds_moved {c : Tensor α} {extents : List Nat} {back : List Nat → List Nat}
    {meets : List Nat → List Nat → Prop} [∀ p, DecidablePred (meets p)] (holds : ρ.Holds c)
    (same : c.shape = shape) (positive : ∀ e ∈ shape, 0 < e)
    (leads : ∀ p ∈ positions shape, back p ∈ positions extents)
    (only : ∀ p ∈ positions shape, ∀ q ∈ positions extents, meets p q ↔ q = back p)
    (entries : ∀ p ∈ positions shape, ρ.entry c p = ρ.entry g (back p)) :
    ρ.Adds (.dense c) shape fun p => ∑ q ∈ places extents with meets p q, ρ.entry g q := by
  subst same
  refine (adds_same holds positive).congr fun p inside => ?_
  rw [sum_only (leads p inside) (only p inside), entries p inside]

/-! ### One after the other -/

/-- One amount is added at one place. -/
theorem addAt_raised {t : Tensor α} {r : List Nat} {x : α} (holds : ρ.Holds t) (held : ρ.carrier x)
    (there : r ∈ positions t.shape) :
    ρ.Raised t (t.addAt [⟨offset t.shape r, x⟩]) fun p => if r = p then ρ.val x else 0 := by
  have changed : ∀ p ∈ positions t.shape,
      ρ.carrier ((t.addAt [⟨offset t.shape r, x⟩]).get p) ∧
        ρ.val ((t.addAt [⟨offset t.shape r, x⟩]).get p) =
          ρ.entry t p + if r = p then ρ.val x else 0 := by
    intro p inside
    rw [get_addAt inside there]
    split
    · obtain ⟨sum, total⟩ := ρ.add (holds p inside) held
      obtain ⟨kept, same⟩ := ρ.like (holds p inside) sum
      exact ⟨kept, same.trans total⟩
    · exact ⟨holds p inside, (add_zero _).symm⟩
  exact ⟨rfl, fun p inside => (changed p inside).1, fun p inside => (changed p inside).2⟩

/-- Amounts are added one after the other, each at the place that its position belongs to. -/
theorem addAt_all {source : List Nat → List Nat} {qs : List (List Nat)} {t : Tensor α}
    (holds : ρ.Holds t) (held : ∀ q ∈ qs, ρ.carrier (g.get q))
    (leads : ∀ q ∈ qs, source q ∈ positions t.shape) :
    ρ.Raised t (t.addAt (qs.map fun q => ⟨offset t.shape (source q), g.get q⟩))
      fun p => (qs.map fun q => if source q = p then ρ.entry g q else 0).sum := by
  induction qs generalizing t with
  | nil => exact .refl holds
  | cons q qs ih =>
    obtain ⟨here, later⟩ := List.forall_mem_cons.mp held
    obtain ⟨inside, leads⟩ := List.forall_mem_cons.mp leads
    have first := addAt_raised holds here inside
    exact first.trans (ih first.holds later leads)

/-- Elements of a gradient that are added where they belong. -/
theorem adds_sparse {source : List Nat → List Nat} (holds : ρ.Holds g)
    (leads : ∀ q ∈ positions g.shape, source q ∈ positions shape) :
    ρ.Adds (.sparse (Tensor.addendsBy shape source g)) shape fun p =>
      ∑ q ∈ places g.shape with source q = p, ρ.entry g q := by
  refine adds_of_raised ?_
  rintro target rfl buffer
  refine ⟨_, rfl, (addAt_all buffer holds leads).congr fun p _ => ?_⟩
  rw [← List.sum_toFinset _ (nodup_positions _), Finset.sum_filter]
  rfl

/-! ### In place -/

/-- An element is put in the place of another one as it is. -/
def Replaces (ρ : Element.Reading α R type) : Prop :=
  ∀ {x y : α}, ρ.carrier x → ρ.carrier y →
    ρ.carrier (Element.replace x y) ∧ ρ.val (Element.replace x y) = ρ.val y

/-- An array of the extents of the buffer is added in place. -/
theorem addInPlace (replaces : ρ.Replaces) {t : Tensor α} (holds : ρ.Holds t) (addend : ρ.Holds g)
    (same : g.shape = t.shape) : ∃ u, t.addInPlace g = .ok u ∧ ρ.Raised t u (ρ.entry g) := by
  have update {x y : α} (first : ρ.carrier x) (second : ρ.carrier y) :
      ρ.carrier (Element.replace x (x + y)) ∧
        ρ.val (Element.replace x (x + y)) = ρ.val x + ρ.val y := by
    obtain ⟨sum, total⟩ := ρ.add first second
    obtain ⟨kept, same⟩ := replaces first sum
    exact ⟨kept, same.trans total⟩
  have unrefused : (List.zipWith (fun x y : α => Element.replace x (x + y)) (t.toList.take 1)
      (g.toList.take 1)).findSome? Element.refusal? = none := by
    refine List.findSome?_eq_none_iff.mpr fun z mem => ?_
    obtain ⟨i, bound, rfl⟩ := List.getElem_of_mem mem
    rw [List.getElem_zipWith]
    refine ρ.refusal? (update (holds.mem ?_) (addend.mem ?_)).1
    · exact List.mem_of_mem_take (List.getElem_mem _)
    · exact List.mem_of_mem_take (List.getElem_mem _)
  have joined : broadcast? [t.shape, g.shape] = some t.shape := by
    rw [same]
    exact (Fits.refl t.shape).broadcast
  refine ⟨.ofFn t.shape fun p => Element.replace (t.read p) (t.read p + g.read p), ?_, rfl, ?_, ?_⟩
  · unfold Tensor.addInPlace updateInPlace combine
    simp only [unrefused, joined]
    exact if_pos rfl
  · refine holds_ofFn fun p inside => ?_
    rw [read_self inside, read_self (same ▸ inside)]
    exact (update (holds p inside) (addend p (same ▸ inside))).1
  · intro p inside
    rw [entry_ofFn inside, read_self inside, read_self (same ▸ inside)]
    exact (update (holds p inside) (addend p (same ▸ inside))).2

section Window

variable {axis : Nat} {chosen p q : List Nat}

/-- Where a window of some places of an axis lies. -/
theorem window_mem (below : ∀ k ∈ chosen, k < shape.getD axis 1)
    (inside : q ∈ positions (shape.set axis chosen.length)) (axial : axis < shape.length) :
    q.set axis (chosen.getD (q.getD axis 0) 0) ∈ positions shape := by
  have bound := getD_lt_of_set axial inside
  apply replaced_mem inside
  rw [List.getD_eq_getElem _ _ bound]
  exact below _ (List.getElem_mem bound)

/-- A window that names no place twice has one position for every place that it names. -/
theorem window_eq_iff (nodup : chosen.Nodup) (axial : axis < shape.length)
    (inside : q ∈ positions (shape.set axis chosen.length)) :
    q.set axis (chosen.getD (q.getD axis 0) 0) = p ↔
      ∃ k, chosen.idxOf? (p.getD axis 0) = some k ∧ q = p.set axis k := by
  have bound := getD_lt_of_set axial inside
  have length : q.length = shape.length := by simpa using (mem_positions_getD.mp inside).1
  constructor
  · rintro rfl
    refine ⟨q.getD axis 0, List.idxOf?_eq_some_iff.mpr ⟨bound, ?_, fun j before same => ?_⟩, ?_⟩
    · rw [getD_set (length.symm ▸ axial), if_pos rfl, List.getD_eq_getElem _ _ bound]
    · rw [getD_set (length.symm ▸ axial), if_pos rfl, List.getD_eq_getElem _ _ bound] at same
      exact absurd (nodup.getElem_inj_iff.mp same) (Nat.ne_of_lt before)
    · rw [List.set_set, Tensor.set_getD]
  · rintro ⟨k, found, rfl⟩
    obtain ⟨bound, same, _⟩ := List.idxOf?_eq_some_iff.mp found
    rw [List.length_set] at length
    rw [getD_set (length.symm ▸ axial), if_pos rfl, List.set_set, List.getD_eq_getElem _ _ bound,
      same, Tensor.set_getD]

/-- A gradient added in place to some places of an axis, none of which is named twice. -/
theorem adds_window (replaces : ρ.Replaces) (holds : ρ.Holds g) (axial : axis < shape.length)
    (below : ∀ k ∈ chosen, k < shape.getD axis 1) (nodup : chosen.Nodup)
    (extents : g.shape = shape.set axis chosen.length) :
    ρ.Adds (.window axis chosen g) shape fun p =>
      ∑ q ∈ places g.shape with q.set axis (chosen.getD (q.getD axis 0) 0) = p, ρ.entry g q := by
  refine adds_of_raised ?_
  rintro target rfl buffer
  have window : ρ.Holds (target.selectAxis axis chosen) :=
    holds_ofFn fun q inside => buffer _ (window_mem below inside axial)
  obtain ⟨u, added, raised⟩ := addInPlace replaces window holds extents
  refine ⟨target.putAxis axis chosen u, ?_, rfl, ?_, ?_⟩
  · exact bind_eq_ok.mpr ⟨u, added, rfl⟩
  · refine holds_ofFn fun p inside => ?_
    split
    next k found =>
      exact raised.holds _ (raised.shape ▸ (get_selectAxis inside found).1)
    · exact buffer p inside
  · intro p inside
    have readers : ∀ q ∈ places g.shape, q.set axis (chosen.getD (q.getD axis 0) 0) = p ↔
        ∃ k, chosen.idxOf? (p.getD axis 0) = some k ∧ q = p.set axis k := by
      intro q mem
      rw [extents] at mem
      exact window_eq_iff nodup axial (mem_places.mp mem)
    rw [putAxis, entry_ofFn inside, Finset.filter_congr readers]
    cases found : chosen.idxOf? (p.getD axis 0) with
    | none => simp [entry]
    | some k =>
      obtain ⟨placed, same⟩ := get_selectAxis inside found
      have sum := raised.entry _ placed
      rw [entry, entry, same] at sum
      have placed' : p.set axis k ∈ places g.shape := by
        rw [mem_places, extents]
        exact placed
      simp only [Option.some.injEq, exists_eq_left', Finset.filter_eq', if_pos placed',
        Finset.sum_singleton]
      exact sum

end Window

end Element.Reading

/-! ### Integers -/

theorem Element.integers_replaces (type : StorageType) : (Element.integers type).Replaces :=
  fun _ _ => ⟨trivial, rfl⟩

end ReverseMode
