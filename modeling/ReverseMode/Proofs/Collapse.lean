import ReverseMode.Proofs.Broadcast
import ReverseMode.Proofs.Reading
import ReverseMode.Proofs.RingReading

/-!
Summing back is the adjoint of broadcasting.

An array that is summed over some axes holds at each place the sum over the positions that
agree with it on the other axes. A gradient summed back to the extents of an input holds at
each place the sum over the positions at which the input is read there, so its products with an
array of these extents add up to the products of the gradient with the array broadcast.
-/

namespace ReverseMode

/-! ### Positions by their coordinates -/

theorem getD_map_range {β : Type} {n i : Nat} (f : Nat → β) (d : β) (bound : i < n) :
    ((List.range n).map f).getD i d = f i := by
  simp [bound]

theorem ext_getD {p q : List Nat} (length : p.length = q.length)
    (same : ∀ i < p.length, p.getD i 0 = q.getD i 0) : p = q := by
  refine List.ext_getElem length fun i bound bound' => ?_
  simpa [bound, bound'] using same i bound

theorem mem_positions_getD {shape pos : List Nat} : pos ∈ positions shape ↔
    pos.length = shape.length ∧ ∀ i < shape.length, pos.getD i 0 < shape.getD i 1 := by
  rw [mem_positions, List.forall₂_iff_get]
  refine and_congr_right fun length => ⟨fun all i bound => ?_, fun all i bound bound' => ?_⟩
  · have bound' : i < pos.length := length ▸ bound
    simpa [bound, bound'] using all i bound' bound
  · simpa [bound, bound'] using all i bound'

theorem positions_ne_nil {shape : List Nat} (positive : ∀ e ∈ shape, 0 < e) :
    positions shape ≠ [] := by
  rw [← List.length_pos_iff, length_positions]
  induction shape with
  | nil => exact Nat.one_pos
  | cons e shape ih =>
    exact Nat.mul_pos (positive e (by simp)) (ih fun e mem => positive e (by simp [mem]))

namespace Tensor

open scoped Element

/-! ### Slabs -/

section Slabs

variable {shape pos : List Nat} {axes : List Nat}

theorem mem_slab {q : List Nat} : q ∈ slab shape axes pos ↔ q.length = shape.length ∧
    (∀ i < shape.length, i ∈ axes → q.getD i 0 < shape.getD i 1) ∧
    ∀ i < shape.length, i ∉ axes → q.getD i 0 = pos.getD i 0 := by
  rw [slab, List.mem_map]
  constructor
  · rintro ⟨p, inside, rfl⟩
    obtain ⟨_, less⟩ := mem_positions_getD.mp inside
    refine ⟨by simp, fun i bound summed => ?_, fun i bound kept => ?_⟩
    · have less := less i (by simpa using bound)
      rw [getD_map_range _ _ bound] at less ⊢
      simpa [summed] using less
    · rw [getD_map_range _ _ bound]
      simp [kept]
  · rintro ⟨length, less, same⟩
    refine ⟨(List.range shape.length).map fun i => if i ∈ axes then q.getD i 0 else 0, ?_, ?_⟩
    · refine mem_positions_getD.mpr ⟨by simp, fun i bound => ?_⟩
      have bound : i < shape.length := by simpa using bound
      rw [getD_map_range _ _ bound, getD_map_range _ _ bound]
      by_cases summed : i ∈ axes
      · simpa [summed] using less i bound summed
      · simp [summed]
    · refine ext_getD (by simp [length]) fun i bound => ?_
      have bound : i < shape.length := by simpa using bound
      rw [getD_map_range _ _ bound, getD_map_range _ _ bound]
      by_cases summed : i ∈ axes
      · simp [summed]
      · simpa [summed] using (same i bound summed).symm

theorem nodup_slab (shape axes pos : List Nat) : (slab shape axes pos).Nodup := by
  refine (List.nodup_map_iff_inj_on (nodup_positions _)).mpr fun p inside q inside' same => ?_
  obtain ⟨length, less⟩ := mem_positions_getD.mp inside
  obtain ⟨length', less'⟩ := mem_positions_getD.mp inside'
  refine ext_getD (length.trans length'.symm) fun i bound => ?_
  have bound : i < shape.length := by simpa [length] using bound
  have less := less i (by simpa using bound)
  have less' := less' i (by simpa using bound)
  have coordinate := congrArg (fun l => l.getD i 0) same
  simp only [getD_map_range _ _ bound] at coordinate less less'
  by_cases summed : i ∈ axes
  · simpa [summed] using coordinate
  · simp only [List.contains_iff_mem, summed, if_false] at less less'
    omega

theorem slab_ne_nil (positive : ∀ e ∈ shape, 0 < e) : slab shape axes pos ≠ [] := by
  rw [slab, ne_eq, List.map_eq_nil_iff]
  refine positions_ne_nil fun e mem => ?_
  obtain ⟨i, inside, rfl⟩ := List.mem_map.mp mem
  have bound : i < shape.length := by simpa using inside
  split
  · simpa [bound] using positive _ (List.getElem_mem bound)
  · exact Nat.one_pos

/-- The extents left when some axes are summed. -/
def keptExtents (shape axes : List Nat) : List Nat :=
  (List.range shape.length).map fun i => if axes.contains i then 1 else shape.getD i 1

theorem shape_sumAxes {α : Type} [Element α] (axes : List Nat) (t : Tensor α) :
    (t.sumAxes axes).shape = keptExtents t.shape axes := rfl

section Nested

variable {inner outer : List Nat}

/-- Slabs along some of the axes, each taken along the others, cover the slab along all. -/
theorem mem_slabs (inside : pos ∈ positions (keptExtents shape axes))
    (split : ∀ i, i ∈ axes ↔ i ∈ inner ∨ i ∈ outer) {q : List Nat} :
    q ∈ (slab shape outer pos).flatMap (slab shape inner) ↔ q ∈ positions shape ∧
      ∀ i < shape.length, i ∉ axes → q.getD i 0 = pos.getD i 0 := by
  obtain ⟨_, kept⟩ := mem_positions_getD.mp inside
  have less : ∀ i < shape.length, i ∉ axes → pos.getD i 0 < shape.getD i 1 := by
    intro i bound outside
    have less := kept i (by simpa [keptExtents] using bound)
    rw [keptExtents, getD_map_range _ _ bound] at less
    simpa [outside] using less
  simp only [List.mem_flatMap, mem_slab, mem_positions_getD]
  constructor
  · rintro ⟨start, ⟨_, outerLess, fixed⟩, length, innerLess, same⟩
    refine ⟨⟨length, fun i bound => ?_⟩, fun i bound outside => ?_⟩
    · by_cases first : i ∈ inner
      · exact innerLess i bound first
      · rw [same i bound first]
        by_cases second : i ∈ outer
        · exact outerLess i bound second
        · rw [fixed i bound second]
          exact less i bound fun mem => ((split i).mp mem).elim first second
    · rw [same i bound fun first => outside ((split i).mpr (.inl first)),
        fixed i bound fun second => outside ((split i).mpr (.inr second))]
  · rintro ⟨⟨length, within⟩, same⟩
    refine ⟨(List.range shape.length).map fun i => if i ∈ outer then q.getD i 0 else pos.getD i 0,
      ⟨by simp, fun i bound second => ?_, fun i bound second => ?_⟩, length,
      fun i bound _ => within i bound, fun i bound first => ?_⟩
    · rw [getD_map_range _ _ bound]
      simpa [second] using within i bound
    · rw [getD_map_range _ _ bound]
      simp [second]
    · rw [getD_map_range _ _ bound]
      by_cases second : i ∈ outer
      · simp [second]
      · have outside : i ∉ axes := fun mem => ((split i).mp mem).elim first second
        simpa [second] using same i bound outside

theorem nodup_slabs (apart : ∀ i ∈ inner, i ∉ outer) (pos : List Nat) :
    ((slab shape outer pos).flatMap (slab shape inner)).Nodup := by
  refine List.nodup_flatMap.mpr ⟨fun start _ => nodup_slab shape inner start, ?_⟩
  refine (nodup_slab shape outer pos).pairwise_of_forall_ne fun x here y there differ => ?_
  obtain ⟨length, _, fixed⟩ := mem_slab.mp here
  obtain ⟨length', _, fixed'⟩ := mem_slab.mp there
  refine List.disjoint_left.mpr fun q mem mem' => differ ?_
  obtain ⟨_, _, same⟩ := mem_slab.mp mem
  obtain ⟨_, _, same'⟩ := mem_slab.mp mem'
  refine ext_getD (length.trans length'.symm) fun i bound => ?_
  have bound : i < shape.length := length ▸ bound
  by_cases first : i ∈ inner
  · rw [fixed i bound (apart i first), fixed' i bound (apart i first)]
  · rw [← same i bound first, ← same' i bound first]

end Nested

end Slabs

end Tensor

/-! ### Arrays summed over axes -/

namespace Element.Reading

open Tensor

variable {α R : Type} [Element α] [CommRing R] {type : StorageType}
variable {ρ : Element.Reading α R type} {t : Tensor α}

/-- Sums over some extents are those of the ring: there is something to add up, or what is added up
may be nothing. -/
def Sums (ρ : Element.Reading α R type) (shape : List Nat) : Prop :=
  (∀ e ∈ shape, 0 < e) ∨ ∀ runs : List (List α), (∀ run ∈ runs, ∀ x ∈ run, ρ.carrier x) →
    ρ.carrier (Element.sum runs) ∧ ρ.val (Element.sum runs) = (runs.flatten.map ρ.val).sum

theorem Sums.mono {shape shape' : List Nat} (sums : ρ.Sums shape)
    (sub : ∀ e ∈ shape', e = 1 ∨ e ∈ shape) : ρ.Sums shape' := by
  refine sums.imp_left fun positive e mem => ?_
  rcases sub e mem with rfl | inside
  · exact Nat.one_pos
  · exact positive e inside

/-- An array summed over some axes holds at each place the sum over the positions that agree with
it on the other axes. -/
theorem sumAxes (holds : ρ.Holds t) (sums : ρ.Sums t.shape) (axes : List Nat) :
    ρ.Holds (t.sumAxes axes) ∧ ∀ pos ∈ positions (keptExtents t.shape axes),
      ρ.entry (t.sumAxes axes) pos =
        ∑ q ∈ places t.shape with ∀ i < t.shape.length, i ∉ axes → q.getD i 0 = pos.getD i 0,
          ρ.entry t q := by
  let inner := axes.filter (trailing t.shape axes)
  let outer := axes.filter fun i => !trailing t.shape axes i
  have apart : ∀ i ∈ inner, i ∉ outer := by
    intro i first second
    have runs := (List.mem_filter.mp first).2
    have rests := (List.mem_filter.mp second).2
    simp [runs] at rests
  have split : ∀ i, i ∈ axes ↔ i ∈ inner ∨ i ∈ outer := by
    intro i
    rw [List.mem_filter, List.mem_filter, ← and_or_left, Bool.not_eq_true']
    simp
  have summed : ∀ pos ∈ positions (keptExtents t.shape axes),
      ρ.carrier ((t.sumAxes axes).get pos) ∧ ρ.entry (t.sumAxes axes) pos =
        (((slab t.shape outer pos).flatMap (slab t.shape inner)).map (ρ.entry t)).sum := by
    intro pos inside
    have runs : (t.sumAxes axes).get pos =
        Element.sum ((slab t.shape outer pos).map fun start =>
          (slab t.shape inner start).map t.get) :=
      get_ofFn inside
    have carried : ∀ run ∈ (slab t.shape outer pos).map fun start =>
        (slab t.shape inner start).map t.get, ∀ x ∈ run, ρ.carrier x := by
      intro run mem x mem'
      obtain ⟨start, here, rfl⟩ := List.mem_map.mp mem
      obtain ⟨q, there, rfl⟩ := List.mem_map.mp mem'
      exact holds q ((mem_slabs inside split).mp (List.mem_flatMap.mpr ⟨start, here, there⟩)).1
    have total : ρ.carrier ((t.sumAxes axes).get pos) ∧ ρ.entry (t.sumAxes axes) pos =
        ((((slab t.shape outer pos).map fun start =>
          (slab t.shape inner start).map t.get).flatten).map ρ.val).sum := by
      rw [entry, runs]
      rcases sums with positive | nothing
      · refine ρ.sum (by simpa using slab_ne_nil positive) fun run mem => ⟨?_, carried run mem⟩
        obtain ⟨start, _, rfl⟩ := List.mem_map.mp mem
        simpa using slab_ne_nil positive
      · exact nothing _ carried
    refine ⟨total.1, total.2.trans ?_⟩
    rw [← List.flatMap_def, List.map_flatMap, List.map_flatMap]
    simp only [List.map_map]
    rfl
  refine ⟨fun pos inside => (summed pos inside).1, fun pos inside => ?_⟩
  rw [(summed pos inside).2, ← List.sum_toFinset _ (nodup_slabs apart pos)]
  refine Finset.sum_congr (Finset.ext fun q => ?_) fun _ _ => rfl
  rw [List.mem_toFinset, mem_slabs inside split, Finset.mem_filter, mem_places]

omit [Element α] [CommRing R] in
/-- A sum over the positions of which only one meets a condition. -/
theorem sum_only [AddCommMonoid R] {s p : List Nat} (inside : p ∈ positions s)
    {meets : List Nat → Prop} [DecidablePred meets]
    (only : ∀ q ∈ positions s, meets q ↔ q = p) (f : List Nat → R) :
    ∑ q ∈ places s with meets q, f q = f p := by
  rw [Finset.filter_congr fun q mem => only q (mem_places.mp mem), Finset.filter_eq',
    if_pos (mem_places.mpr inside), Finset.sum_singleton]

/-- At each place an array holds the sum over the positions of another one that are led there. -/
structure Collapses (ρ : Element.Reading α R type) (lead : List Nat → List Nat)
    (t u : Tensor α) : Prop where
  holds : ρ.Holds u
  leads : ∀ q ∈ positions t.shape, lead q ∈ positions u.shape
  entry : ∀ p ∈ positions u.shape,
    ρ.entry u p = ∑ q ∈ places t.shape with lead q = p, ρ.entry t q

theorem Collapses.refl (holds : ρ.Holds t) {lead : List Nat → List Nat}
    (stays : ∀ q ∈ positions t.shape, lead q = q) : ρ.Collapses lead t t := by
  refine ⟨holds, fun q inside => (stays q inside).symm ▸ inside, fun p inside => ?_⟩
  refine (sum_only inside (fun q here => ?_) _).symm
  rw [stays q here]

theorem Collapses.congr {u : Tensor α} {lead lead' : List Nat → List Nat}
    (collapses : ρ.Collapses lead t u) (same : ∀ q ∈ positions t.shape, lead q = lead' q) :
    ρ.Collapses lead' t u := by
  refine ⟨collapses.holds, fun q inside => same q inside ▸ collapses.leads q inside, fun p inside =>
    (collapses.entry p inside).trans (Finset.sum_congr ?_ fun _ _ => rfl)⟩
  refine Finset.filter_congr fun q mem => ?_
  rw [same q (mem_places.mp mem)]

theorem Collapses.trans {u v : Tensor α} {lead lead' : List Nat → List Nat}
    (first : ρ.Collapses lead t u) (second : ρ.Collapses lead' u v) :
    ρ.Collapses (lead' ∘ lead) t v := by
  refine ⟨second.holds, fun q inside => second.leads _ (first.leads q inside), fun p inside => ?_⟩
  have through : ∀ q ∈ (places t.shape).filter fun q => (lead' ∘ lead) q = p,
      lead q ∈ (places u.shape).filter fun q' => lead' q' = p := by
    intro q mem
    obtain ⟨inside, led⟩ := Finset.mem_filter.mp mem
    exact Finset.mem_filter.mpr ⟨mem_places.mpr (first.leads q (mem_places.mp inside)), led⟩
  rw [second.entry p inside, ← Finset.sum_fiberwise_of_maps_to through]
  refine Finset.sum_congr rfl fun q' mem => ?_
  obtain ⟨inside', led⟩ := Finset.mem_filter.mp mem
  rw [first.entry q' (mem_places.mp inside'), Finset.filter_filter]
  refine Finset.sum_congr (Finset.filter_congr fun q _ => ?_) fun _ _ => rfl
  constructor
  · rintro rfl
    exact ⟨led, rfl⟩
  · exact And.right

/-- Weights of the places are weights of all positions that are led there. -/
theorem sum_led {s r : List Nat} {lead : List Nat → List Nat}
    (leads : ∀ q ∈ positions s, lead q ∈ positions r) (f weight : List Nat → R) :
    ∑ p ∈ places r, (∑ q ∈ places s with lead q = p, f q) * weight p =
      ∑ q ∈ places s, f q * weight (lead q) := by
  have leads : ∀ q ∈ places s, lead q ∈ places r := fun q mem =>
    mem_places.mpr (leads q (mem_places.mp mem))
  rw [← Finset.sum_fiberwise_of_maps_to leads]
  refine Finset.sum_congr rfl fun p _ => ?_
  rw [Finset.sum_mul]
  refine Finset.sum_congr rfl fun q mem => ?_
  rw [(Finset.mem_filter.mp mem).2]

theorem Collapses.sum {u : Tensor α} {lead : List Nat → List Nat} (collapses : ρ.Collapses lead t u)
    (weight : List Nat → R) : ∑ p ∈ places u.shape, ρ.entry u p * weight p =
      ∑ q ∈ places t.shape, ρ.entry t q * weight (lead q) := by
  rw [← sum_led collapses.leads]
  refine Finset.sum_congr rfl fun p inside => ?_
  rw [collapses.entry p (mem_places.mp inside)]

end Element.Reading

/-! ### Axes in front -/

namespace Tensor

open scoped Element

theorem volume_ones (k : Nat) (shape : List Nat) :
    volume (List.replicate k 1 ++ shape) = volume shape := by
  induction k with
  | zero => rfl
  | succ k ih => exact (Nat.one_mul _).trans ih

theorem offset_ones (k : Nat) (shape pos : List Nat) :
    offset (List.replicate k 1 ++ shape) (List.replicate k 0 ++ pos) = offset shape pos := by
  induction k with
  | zero => rfl
  | succ k ih =>
    rw [List.replicate_succ, List.replicate_succ, List.cons_append, List.cons_append, offset,
      Nat.zero_mul, Nat.zero_add, ih]

/-- What is left where the axes in front are summed. -/
theorem keptExtents_range {shape : List Nat} {k : Nat} (le : k ≤ shape.length) :
    keptExtents shape (List.range k) = List.replicate k 1 ++ shape.drop k := by
  refine List.ext_getElem (by simp [keptExtents, le]) fun i bound bound' => ?_
  have bound : i < shape.length := by simpa [keptExtents] using bound
  by_cases front : i < k
  · simp [keptExtents, front]
  · have place : k + (i - k) = i := by omega
    rw [List.getElem_append_right (by simpa using front)]
    simp [keptExtents, front, bound, place]

theorem front_positions {k : Nat} {shape pos : List Nat} (inside : pos ∈ positions shape) :
    List.replicate k 0 ++ pos ∈ positions (List.replicate k 1 ++ shape) := by
  rw [mem_positions] at inside ⊢
  refine List.rel_append ?_ inside
  induction k with
  | zero => exact .nil
  | succ k ih => exact .cons Nat.one_pos ih

end Tensor

namespace Element.Reading

open Tensor

variable {α R : Type} [Element α] [CommRing R] {type : StorageType}
variable {ρ : Element.Reading α R type} {t : Tensor α}

/-- The axes in front are summed and left out. -/
theorem sumLeading (holds : ρ.Holds t) (sums : ρ.Sums t.shape) {rank : Nat}
    (le : rank ≤ t.shape.length) : ∃ u, t.sumLeading rank = .ok u ∧
      u.shape = t.shape.drop (t.shape.length - rank) ∧
      ρ.Collapses (List.drop (t.shape.length - rank)) t u := by
  obtain ⟨k, front⟩ : ∃ k, k = t.shape.length - rank := ⟨_, rfl⟩
  rw [Tensor.sumLeading, Tensor.rank, ← front]
  by_cases none : k = 0
  · subst none
    exact ⟨t, rfl, rfl, .refl holds fun _ _ => rfl⟩
  · have kept : keptExtents t.shape (List.range k) = List.replicate k 1 ++ t.shape.drop k :=
      keptExtents_range (by omega)
    have volume : volume (t.sumAxes (List.range k)).shape = volume (t.shape.drop k) := by
      rw [shape_sumAxes, kept, volume_ones]
    obtain ⟨summed, entries⟩ := sumAxes holds sums (List.range k)
    let u : Tensor α := ⟨t.shape.drop k, (t.sumAxes (List.range k)).data,
      (t.sumAxes (List.range k)).size_eq.trans volume⟩
    have made : (t.sumAxes (List.range k)).reshape (t.shape.drop k) = .ok u := dif_pos volume
    have get : ∀ p, u.get p = (t.sumAxes (List.range k)).get (List.replicate k 0 ++ p) := by
      intro p
      rw [Tensor.get, Tensor.get, shape_sumAxes, kept, offset_ones]
    have placed : ∀ p ∈ positions u.shape,
        List.replicate k 0 ++ p ∈ positions (keptExtents t.shape (List.range k)) := by
      intro p inside
      rw [kept]
      exact front_positions inside
    refine ⟨u, by rw [if_neg none, made], rfl, ?_, ?_, ?_⟩
    · intro p inside
      rw [get]
      exact summed _ (placed p inside)
    · intro q inside
      rw [mem_positions] at inside ⊢
      exact List.forall₂_drop k inside
    · intro p inside
      have length : p.length = t.shape.length - k := by
        simpa [u] using (mem_positions_getD.mp inside).1
      rw [entry, get]
      refine (entries _ (placed p inside)).trans (Finset.sum_congr ?_ fun _ _ => rfl)
      refine Finset.filter_congr fun q mem => ?_
      obtain ⟨length', _⟩ := mem_positions_getD.mp (mem_places.mp mem)
      constructor
      · intro same
        refine ext_getD (by simp [length, length']) fun i bound => ?_
        have bound : k + i < t.shape.length := by
          simp [length'] at bound
          omega
        have coordinate := same (k + i) bound (by simp)
        simpa [List.getElem?_append_right] using coordinate
      · rintro rfl i bound later
        have later : k ≤ i := by simpa using later
        have place : k + (i - k) = i := by omega
        simp [List.getElem?_append_right, later, place]

end Element.Reading

/-! ### Broadcasting undone -/

/-- An array of extents `source` can be read as one of extents `target`: counted from the end, each
extent is one or the same. -/
structure Fits (source target : List Nat) : Prop where
  length : source.length ≤ target.length
  agree : ∀ j, backExtent source j = 1 ∨ backExtent source j = backExtent target j

namespace Fits

variable {source target : List Nat}

/-- Arrays fit the extents that they are combined in. -/
theorem of_broadcast {shapes : List (List Nat)} (joined : broadcast? shapes = some target)
    (mem : source ∈ shapes) : Fits source target := by
  obtain ⟨length, joins⟩ := broadcast?_eq_some.mp joined
  refine ⟨length ▸ length_le_maxRank mem, fun j => ?_⟩
  exact (joinExtents_eq_some.mp (joins j)).1 _ (List.mem_map_of_mem mem)

/-- What fits some extents adds nothing to them, however many arrays do. -/
theorem broadcast_all {shapes : List (List Nat)} (mem : target ∈ shapes)
    (fits : ∀ s ∈ shapes, Fits s target) : broadcast? shapes = some target := by
  have most : maxRank shapes ≤ target.length := maxRank_le fun s mem => (fits s mem).length
  refine broadcast?_eq_some.mpr ⟨le_antisymm (length_le_maxRank mem) most, fun j => ?_⟩
  refine joinExtents_eq_some.mpr ⟨?_, .inr (List.mem_map_of_mem mem)⟩
  intro e found
  obtain ⟨s, inside, rfl⟩ := List.mem_map.mp found
  exact (fits s inside).agree j

theorem refl (s : List Nat) : Fits s s := ⟨le_rfl, fun _ => .inr rfl⟩

theorem broadcast (fits : Fits source target) : broadcast? [source, target] = some target := by
  refine broadcast_all (by simp) fun s mem => ?_
  rcases List.mem_pair.mp mem with rfl | rfl
  · exact fits
  · exact refl _

/-- The last axes of the target, one for each of the source. -/
def aligned (source target : List Nat) : List Nat := target.drop (target.length - source.length)

theorem length_aligned (fits : Fits source target) :
    (aligned source target).length = source.length := by
  have := fits.length
  rw [aligned, List.length_drop]
  omega

theorem extent (fits : Fits source target) {i : Nat} (bound : i < source.length) :
    source.getD i 1 = 1 ∨ source.getD i 1 = (aligned source target).getD i 1 := by
  have short := fits.length
  have place : target.length - 1 - (target.length - source.length + i) = source.length - 1 - i := by
    omega
  have here : source.getD i 1 = backExtent source (source.length - 1 - i) := by
    rw [backExtent_eq bound]
    simp [bound]
  have there : (aligned source target).getD i 1 = backExtent target (source.length - 1 - i) := by
    rw [← place, backExtent_eq (by omega), aligned]
    simp [show target.length - source.length + i < target.length by omega]
  rw [here, there]
  exact fits.agree _

/-- The axes in front do not matter. -/
theorem of_aligned (fits : Fits source target) : Fits source (aligned source target) := by
  refine ⟨fits.length_aligned.symm.le, fun j => ?_⟩
  by_cases beyond : source.length ≤ j
  · exact .inl (backExtent_beyond beyond)
  · have short := fits.length
    have same : backExtent (aligned source target) j = backExtent target j := by
      rw [backExtent, backExtent, aligned, List.reverse_drop, List.getD_eq_getElem?_getD,
        List.getElem?_take_of_lt (by omega), List.getD_eq_getElem?_getD]
    rw [same]
    exact fits.agree j

end Fits

namespace Tensor

variable {source target : List Nat}

/-- Where an array is read for a position of a larger one. -/
theorem getD_clamp (fits : Fits source target) {q : List Nat} (length : q.length = target.length)
    {i : Nat} (bound : i < source.length) : (clamp source q).getD i 0 =
      if source.getD i 1 = 1 then 0 else (q.drop (target.length - source.length)).getD i 0 := by
  have short := fits.length
  have there := List.getElem?_eq_getElem (l := q)
    (show target.length - source.length + i < q.length by omega)
  simp [clamp, bound, length, List.getElem?_zipWith, there]

theorem length_clamp (fits : Fits source target) {q : List Nat}
    (length : q.length = target.length) :
    (clamp source q).length = source.length := by
  have := fits.length
  rw [clamp, List.length_zipWith, List.length_drop]
  omega

/-- The axes in front do not matter for where an array is read. -/
theorem clamp_drop (fits : Fits source target) {q : List Nat} (length : q.length = target.length) :
    clamp source (q.drop (target.length - source.length)) = clamp source q := by
  have short := fits.length
  have rest : q.length - (target.length - source.length) - source.length = 0 := by omega
  rw [clamp, clamp, List.length_drop, rest, List.drop_zero, length]

/-- Where the widened axes are summed the extents of the source are left. -/
theorem keptExtents_widened (fits : Fits source target)
    (same : target.length = source.length) :
    keptExtents target (widened target source) = source := by
  have aligned : Fits.aligned source target = target := by
    rw [Fits.aligned, same, Nat.sub_self, List.drop_zero]
  refine List.ext_getElem (by simp [keptExtents, same]) fun i bound bound' => ?_
  have bound : i < target.length := by simpa [keptExtents] using bound
  have extent := fits.extent bound'
  rw [aligned] at extent
  simp only [keptExtents, widened, List.getElem_map, List.getElem_range, List.contains_iff_mem,
    List.mem_filter, List.mem_range, Bool.and_eq_true, beq_iff_eq, bne_iff_ne]
  simp only [List.getD_eq_getElem?_getD, bound', bound, getElem?_pos, Option.getD_some] at extent ⊢
  split
  · omega
  · omega

/-- Nothing is widened where the extents are the same. -/
theorem keptExtents_nil (shape : List Nat) : keptExtents shape [] = shape := by
  refine List.ext_getElem (by simp [keptExtents]) fun i _ bound => ?_
  simp [keptExtents, bound]

end Tensor

namespace Element.Reading

open Tensor

variable {α R : Type} [Element α] [CommRing R] {type : StorageType}
variable {ρ : Element.Reading α R type} {t : Tensor α}

/-- Where the widened axes are summed, each element is added where the source is read for it. -/
theorem sumWidened (holds : ρ.Holds t) (sums : ρ.Sums t.shape) {shape : List Nat}
    (fits : Fits shape t.shape) (same : t.shape.length = shape.length) :
    ρ.Collapses (Tensor.clamp shape) t (t.sumAxes (widened t.shape shape)) := by
  have kept := keptExtents_widened fits same
  obtain ⟨summed, entries⟩ := sumAxes holds sums (widened t.shape shape)
  have front : t.shape.length - shape.length = 0 := by omega
  refine ⟨summed, fun q inside => ?_, fun p inside => ?_⟩
  · rw [shape_sumAxes, kept]
    exact clamp_mem fits.broadcast (by simp) inside
  · refine (entries p inside).trans (Finset.sum_congr ?_ fun _ _ => rfl)
    rw [shape_sumAxes, kept] at inside
    obtain ⟨length, less⟩ := mem_positions_getD.mp inside
    refine Finset.filter_congr fun q mem => ?_
    obtain ⟨length', less'⟩ := mem_positions_getD.mp (mem_places.mp mem)
    have read : ∀ i < shape.length, (Tensor.clamp shape q).getD i 0 =
        if shape.getD i 1 = 1 then 0 else q.getD i 0 := by
      intro i bound
      rw [getD_clamp fits length' bound, front, List.drop_zero]
    have wide : ∀ i < shape.length, (i ∈ widened t.shape shape ↔
        shape.getD i 1 = 1 ∧ t.shape.getD i 1 ≠ 1) := by
      intro i bound
      simp only [widened, List.mem_filter, List.mem_range, Bool.and_eq_true, beq_iff_eq,
        bne_iff_ne]
      exact ⟨And.right, fun extents => ⟨by omega, extents⟩⟩
    constructor
    · intro agree
      refine ext_getD ((length_clamp fits length').trans length.symm) fun i bound => ?_
      rw [length_clamp fits length'] at bound
      have small := less i bound
      rw [read i bound]
      split
      next one => omega
      next several =>
        exact agree i (by omega) fun summed => several ((wide i bound).mp summed).1
    · rintro rfl i bound kept
      have bound : i < shape.length := by omega
      have small := less' i (by omega)
      rw [read i bound]
      split
      next one =>
        have : t.shape.getD i 1 = 1 := by
          by_contra other
          exact kept ((wide i bound).mpr ⟨one, other⟩)
        omega
      · rfl

/-- A gradient summed back: each element is added where the input is read for it. -/
theorem unbroadcast (holds : ρ.Holds t) (sums : ρ.Sums t.shape) {shape : List Nat}
    (fits : Fits shape t.shape) : ∃ u, t.unbroadcast shape = .ok u ∧ u.shape = shape ∧
      ρ.Collapses (Tensor.clamp shape) t u := by
  obtain ⟨g, led, extents, leading⟩ := sumLeading holds sums fits.length
  have length : g.shape.length = shape.length := by
    rw [extents]
    exact fits.length_aligned
  have fits' : Fits shape g.shape := by
    rw [extents]
    exact fits.of_aligned
  have sums' : ρ.Sums g.shape := sums.mono fun e mem =>
    .inr (List.mem_of_mem_drop (extents ▸ mem))
  have drops : ∀ q ∈ positions t.shape,
      (Tensor.clamp shape ∘ List.drop (t.shape.length - shape.length)) q = Tensor.clamp shape q :=
    fun q inside => clamp_drop fits (mem_positions_getD.mp inside).1
  have kept := keptExtents_widened fits' length
  rw [Tensor.unbroadcast, led]
  cases axes : widened g.shape shape with
  | nil =>
    rw [axes, keptExtents_nil] at kept
    have stays : ∀ q ∈ positions g.shape, Tensor.clamp shape q = q := fun q inside =>
      clamp_self (kept ▸ inside)
    refine ⟨g, ?_, kept, (leading.trans (.refl leading.holds stays)).congr drops⟩
    simp only [bind, Except.bind, axes, List.isEmpty_nil, if_true]
    exact kept ▸ reshape_self g
  | cons axis rest =>
    refine ⟨g.sumAxes (axis :: rest), ?_, axes ▸ kept, ?_⟩
    · simp only [bind, Except.bind, axes, List.isEmpty_cons, Bool.false_eq_true, if_false]
      rw [axes] at kept
      exact kept ▸ reshape_self (g.sumAxes (axis :: rest))
    · have summed := sumWidened leading.holds sums' fits' length
      rw [axes] at summed
      exact (leading.trans summed).congr drops

/-- Summing back is the adjoint of broadcasting. -/
theorem Collapses.pairing {u d : Tensor α} (collapses : ρ.Collapses (Tensor.clamp d.shape) t u) :
    ρ.pairing u d = ∑ q ∈ places t.shape, ρ.entry t q * ρ.val (d.read q) := by
  exact collapses.sum (ρ.entry d)

end Element.Reading

end ReverseMode
