import ReverseMode.Proofs.Deduplication
import ReverseMode.Proofs.Relocation
import ReverseMode.Proofs.ValueShapes

/-!
Windows and blocks of an axis.

A slice shows some places of an axis, none of them twice. Arrays that are laid end to end are blocks
of the axis, one after the other, so a place of the axis lies in one block. A slice of the joined
array that covers a block gives the array of the block back.
-/

namespace ReverseMode

open scoped Element

/-! ### Places that are selected -/

namespace Selection

variable {start stop step : Int} {extent k : Nat} {listed : List Nat}

/-- A step forward stays before the end, a step back behind it. -/
theorem stepCount_lt (bound : k < stepCount start stop step) :
    (0 < step → start + k * step < stop) ∧ (step < 0 → stop < start + k * step) := by
  unfold stepCount at bound
  constructor
  · intro forward
    rw [if_pos forward] at bound
    have whole : ((k : Int) + 1) * step ≤ stop - start + step - 1 :=
      (Int.le_ediv_iff_mul_le forward).mp (by omega)
    rw [add_mul, one_mul] at whole
    omega
  · intro back
    rw [if_neg (by omega)] at bound
    have whole : ((k : Int) + 1) * -step ≤ start - stop - step - 1 :=
      (Int.le_ediv_iff_mul_le (by omega)).mp (by omega)
    rw [add_mul, one_mul, mul_neg] at whole
    omega

/-- The places of a progression that starts and ends on an axis. -/
theorem progression (moves : step ≠ 0) (forward : 0 < step → 0 ≤ start ∧ stop ≤ extent)
    (back : step < 0 → start < extent ∧ -1 ≤ stop) :
    ((List.range (stepCount start stop step)).map fun (k : Nat) =>
        (start + (k : Int) * step).toNat).Nodup ∧
      ∀ place ∈ (List.range (stepCount start stop step)).map fun (k : Nat) =>
        (start + (k : Int) * step).toNat, place < extent := by
  have within : ∀ k < stepCount start stop step,
      0 ≤ start + k * step ∧ start + k * step < extent := by
    intro k bound
    obtain ⟨before, behind⟩ := stepCount_lt bound
    rcases Int.lt_or_gt_of_ne moves with backward | ahead
    · have passed := mul_nonpos_of_nonneg_of_nonpos (Int.natCast_nonneg k) backward.le
      have := behind backward
      have := back backward
      omega
    · have passed := mul_nonneg (Int.natCast_nonneg k) ahead.le
      have := before ahead
      have := forward ahead
      omega
  constructor
  · apply List.nodup_range.map_on
    intro k mem l mem' same
    obtain ⟨low, _⟩ := within k (List.mem_range.mp mem)
    obtain ⟨low', _⟩ := within l (List.mem_range.mp mem')
    have same : (k : Int) * step = l * step := by omega
    exact Int.ofNat.inj (mul_right_cancel₀ moves same)
  · intro place mem
    obtain ⟨k, inside, rfl⟩ := List.mem_map.mp mem
    have := within k (List.mem_range.mp inside)
    omega

theorem clip_between {low high : Int} (order : low ≤ high) (extent : Nat) (n : Int) :
    low ≤ clip low high extent n ∧ clip low high extent n ≤ high := by
  unfold clip
  dsimp only
  omega

/-- The places of a range lie on the axis, and none is listed twice. -/
theorem rangePlaces_eq_ok {start stop step : Option Int}
    (made : rangePlaces start stop step extent = .ok listed) :
    listed.Nodup ∧ ∀ place ∈ listed, place < extent := by
  unfold rangePlaces at made
  dsimp only at made
  split at made
  · cases made
  next moves =>
    rcases Int.lt_or_gt_of_ne moves with back | forward
    · have still : ¬0 < step.getD 1 := by omega
      have order : (-1 : Int) ≤ extent - 1 := by omega
      simp only [if_neg still] at made
      cases made
      apply progression moves (fun ahead => absurd ahead still)
      intro _
      constructor
      · cases start with
        | none => simp
        | some n => exact Int.lt_of_le_sub_one (clip_between order extent n).2
      · cases stop with
        | none => simp
        | some n => exact (clip_between order extent n).1
    · simp only [if_pos forward] at made
      cases made
      apply progression moves _ (fun back => absurd back (by omega))
      intro _
      constructor
      · cases start with
        | none => simp
        | some n => exact (clip_between (by omega) extent n).1
      · cases stop with
        | none => simp
        | some n => exact (clip_between (by omega) extent n).2

/-- The places that are selected lie on the axis, and none is listed twice. -/
theorem places_listed {selection : Selection} {axis : Axis}
    (selected : selection.places axis extent = .ok listed) :
    listed.Nodup ∧ ∀ place ∈ listed, place < extent := by
  rcases Operator.places_eq_ok selected with ⟨n, i, -, wrapped, rfl⟩ | ⟨_, _, _, _, -, -, made⟩
  · have bound := Axis.wrap?_lt wrapped
    simpa using bound
  · exact rangePlaces_eq_ok made

/-- The places from one to another, of which there is at least one. -/
theorem places_between {start width : Nat} (fits : start + width ≤ extent) (some : 0 < width)
    (axis : Axis) :
    (range [Bound.ofInt start, Bound.ofInt (start + width : Nat)]).places axis extent =
      .ok ((List.range width).map (start + ·)) := by
  have first : clip 0 extent extent start = start := by
    unfold clip
    dsimp only
    omega
  have past : clip 0 extent extent (start + width : Nat) = (start + width : Nat) := by
    unfold clip
    dsimp only
    omega
  have count : stepCount start (start + width : Nat) 1 = width := by
    unfold stepCount
    simp
  have found : rangePlaces (Option.some (start : Int)) (Option.some ((start + width : Nat) : Int))
      none extent = .ok ((List.range width).map (start + ·)) := by
    have one : (0 : Int) < 1 := Int.one_pos
    unfold rangePlaces
    simp only [Option.getD_none, one_ne_zero, if_false, one, if_true, Option.map_some,
      Option.getD_some, first, past, count]
    refine congrArg Except.ok (List.map_congr_left fun k _ => ?_)
    omega
  have several : ((List.range width).map (start + ·)).isEmpty = false := by
    simp [Nat.ne_of_gt some]
  refine bind_eq_ok.mpr ⟨none, rfl, ?_⟩
  rw [if_neg (by simp)]
  refine bind_eq_ok.mpr ⟨_, rfl, bind_eq_ok.mpr ⟨_, rfl, bind_eq_ok.mpr ⟨_, found, ?_⟩⟩⟩
  rw [several]
  rfl

end Selection

namespace Operator

open Element.Reading Tensor

variable {α R : Type} [Element α] [CommRing R] {s : Stamp}
variable {ρ : Element.Reading α R s.type.storage} {a g : Tensor α} {axis : Axis} {i : Nat}

theorem slice_relocates {selection : Selection} {listed : List Nat}
    (replaces : ρ.Replaces) (resolved : axis.resolve a.rank = .ok i)
    (selected : selection.places axis (a.extent i) = .ok listed)
    (extents : s.shape.extents = a.shape.set i listed.length) (same : g.shape = s.shape.extents)
    (holds : ρ.Holds a) (gradient : ρ.Holds g) :
    ρ.Relocates (slice axis selection) [a] g fun q =>
      (0, q.set i (listed.getD (q.getD i 0) 0)) := by
  have axial : i < a.shape.length := Axis.resolve_lt resolved
  obtain ⟨nodup, below⟩ := Selection.places_listed selected
  have leads : ∀ q ∈ positions s.shape.extents,
      q.set i (listed.getD (q.getD i 0) 0) ∈ positions a.shape :=
    fun q here => window_mem below (extents ▸ here) axial
  apply Relocates.single (c := .window i listed g)
  · intro q _ k p fetches
    cases fetches
    rfl
  · intro q here p inside
    have bound : q.getD i 0 < listed.length := getD_lt_of_set axial (extents ▸ here)
    rw [List.getD_eq_getElem _ _ bound]
    constructor
    · intro fetches
      cases fetches with
      | slice resolved' selected' found =>
        cases resolved.symm.trans resolved'
        cases selected.symm.trans selected'
        rw [List.getElem?_eq_getElem bound] at found
        rw [Option.some.inj found]
    · rintro rfl
      exact .slice resolved selected (List.getElem?_eq_getElem bound)
  · exact leads
  · refine stored_moved (slice axis selection) [a] holds leads ?_
    refine bind_eq_ok.mpr ⟨a, rfl, bind_eq_ok.mpr ⟨i, resolved, ?_⟩⟩
    refine bind_eq_ok.mpr ⟨listed, selected, ?_⟩
    rw [extents]
    rfl
  · intro out wanted length
    refine ifWanted_first ?_ (length ▸ Nat.one_pos)
    exact bind_eq_ok.mpr ⟨i, resolved, bind_eq_ok.mpr ⟨listed, selected, rfl⟩⟩
  · rw [← same]
    exact adds_window replaces gradient axial below nodup (same.trans extents)

end Operator

/-! ### Blocks -/

section Blocks

variable {es : List Nat} {slot j k : Nat}

/-- The block that a place of an axis lies in, and the place in it. -/
def blockOf : List Nat → Nat → Nat × Nat
  | [], k => (0, k)
  | e :: es, k => if k < e then (0, k) else ((blockOf es (k - e)).1 + 1, (blockOf es (k - e)).2)

/-- Every place of the axis lies in a block. -/
theorem blockOf_spec (bound : k < es.sum) :
    ∃ e, es[(blockOf es k).1]? = some e ∧ (blockOf es k).2 < e ∧
      (es.take (blockOf es k).1).sum + (blockOf es k).2 = k := by
  induction es generalizing k with
  | nil => simp at bound
  | cons e es ih =>
    by_cases first : k < e
    · refine ⟨e, ?_, ?_, ?_⟩ <;> simp [blockOf, first]
    · rw [List.sum_cons] at bound
      obtain ⟨e', found, less, sum⟩ := ih (k := k - e) (by omega)
      refine ⟨e', ?_, ?_, ?_⟩
      · simpa [blockOf, first] using found
      · simpa [blockOf, first] using less
      · simp only [blockOf, first, if_false, List.take_succ_cons, List.sum_cons]
        omega

/-- A place of a block lies in that block. -/
theorem blockOf_start {e : Nat} (found : es[slot]? = some e) (less : j < e) :
    blockOf es ((es.take slot).sum + j) = (slot, j) := by
  induction es generalizing slot with
  | nil => cases found
  | cons e' es ih =>
    cases slot with
    | zero =>
      cases found
      simp [blockOf, less]
    | succ slot =>
      have rest := ih found
      have beyond : ¬(e' + (es.take slot).sum + j < e') := by omega
      have back : e' + (es.take slot).sum + j - e' = (es.take slot).sum + j := by omega
      simp only [List.take_succ_cons, List.sum_cons, blockOf, if_neg beyond, back, rest]

/-- A block ends within the axis. -/
theorem start_le {e : Nat} (found : es[slot]? = some e) : (es.take slot).sum + e ≤ es.sum := by
  induction es generalizing slot with
  | nil => cases found
  | cons e' es ih =>
    cases slot with
    | zero =>
      cases found
      simp
    | succ slot =>
      have rest := ih found
      simp only [List.take_succ_cons, List.sum_cons]
      omega

end Blocks

namespace Tensor

/-- Arrays of the same extents outside an axis, and the extents that they have end to end. -/
structure Laid {α : Type} (i : Nat) (ts : List (Tensor α)) (extents : List Nat) : Prop where
  axial : i < extents.length
  shape : ∀ t ∈ ts, t.shape = extents.set i (t.extent i)
  sum : extents.getD i 1 = (ts.map fun t => t.extent i).sum

/-- The block that a position of the joined arrays lies in, and the position in it. -/
def blockSource {α : Type} (i : Nat) (ts : List (Tensor α)) (q : List Nat) : Nat × List Nat :=
  ((blockOf (ts.map fun t => t.extent i) (q.getD i 0)).1,
    q.set i (blockOf (ts.map fun t => t.extent i) (q.getD i 0)).2)

section Laid

variable {α : Type} {i k : Nat} {ts : List (Tensor α)} {t : Tensor α} {extents p q : List Nat}

theorem getElem?_extent (found : ts[k]? = some t) :
    (ts.map fun t => t.extent i)[k]? = some (t.extent i) := by
  rw [List.getElem?_map, found]
  rfl

theorem getD_extent (found : ts[k]? = some t) :
    (ts.map fun t => t.extent i).getD k 0 = t.extent i := by
  rw [List.getD_eq_getElem?_getD, getElem?_extent found, Option.getD_some]

theorem blockStart_eq (i : Nat) (ts : List (Tensor α)) (k : Nat) :
    blockStart i ts k = ((ts.map fun t => t.extent i).take k).sum := by
  rw [blockStart, List.map_take]

variable (laid : Laid i ts extents)

include laid

theorem Laid.rank (mem : t ∈ ts) : t.rank = extents.length := by
  rw [Tensor.rank, laid.shape t mem, List.length_set]

theorem Laid.extent_lt (mem : t ∈ ts) (inside : p ∈ positions t.shape) :
    p.length = extents.length ∧ p.getD i 0 < t.extent i := by
  rw [laid.shape t mem] at inside
  have length : p.length = extents.length := by simpa using (mem_positions_getD.mp inside).1
  exact ⟨length, getD_lt_of_set laid.axial inside⟩

/-- Every position of the joined arrays lies in one of them. -/
theorem Laid.source_mem (here : q ∈ positions extents) :
    ∃ t, ts[(blockSource i ts q).1]? = some t ∧ (blockSource i ts q).2 ∈ positions t.shape := by
  have bound := (mem_positions_getD.mp here).2 i laid.axial
  rw [laid.sum] at bound
  obtain ⟨e, found, less, _⟩ := blockOf_spec bound
  rw [List.getElem?_map] at found
  obtain ⟨t, given, rfl⟩ := Option.map_eq_some_iff.mp found
  refine ⟨t, given, ?_⟩
  rw [laid.shape t (List.mem_of_getElem? given)]
  exact set_mem_positions here less

/-- A position of an array lies in its block of the joined arrays. -/
theorem Laid.block_mem (found : ts[k]? = some t) (inside : p ∈ positions t.shape) :
    p.set i (blockStart i ts k + p.getD i 0) ∈ positions extents := by
  have mem := List.mem_of_getElem? found
  obtain ⟨_, less⟩ := laid.extent_lt mem inside
  have fits := start_le (getElem?_extent (i := i) found)
  rw [← blockStart_eq, ← laid.sum] at fits
  rw [laid.shape t mem] at inside
  have bound : blockStart i ts k + p.getD i 0 < extents.getD i 1 := by omega
  exact replaced_mem inside bound

/-- The block of a position is where the array that it comes from was laid. -/
theorem Laid.source_eq_iff (found : ts[k]? = some t) (inside : p ∈ positions t.shape)
    (here : q ∈ positions extents) :
    blockSource i ts q = (k, p) ↔ q = p.set i (blockStart i ts k + p.getD i 0) := by
  have bound := (mem_positions_getD.mp here).2 i laid.axial
  have length := (mem_positions_getD.mp here).1
  rw [laid.sum] at bound
  obtain ⟨length', less⟩ := laid.extent_lt (List.mem_of_getElem? found) inside
  obtain ⟨_, _, _, start⟩ := blockOf_spec bound
  constructor
  · intro same
    obtain ⟨slot, place⟩ := Prod.mk.inj same
    rw [slot, ← blockStart_eq] at start
    rw [← place, getD_set (length.symm ▸ laid.axial), if_pos rfl, List.set_set, start, set_getD]
  · rintro rfl
    have placed : (p.set i (blockStart i ts k + p.getD i 0)).getD i 0 =
        blockStart i ts k + p.getD i 0 := by
      rw [getD_set (length'.symm ▸ laid.axial), if_pos rfl]
    have block : blockOf (ts.map fun t => t.extent i) (blockStart i ts k + p.getD i 0) =
        (k, p.getD i 0) := by
      rw [blockStart_eq]
      exact blockOf_start (getElem?_extent found) less
    rw [blockSource, placed, block, List.set_set, set_getD]

end Laid

section Joined

variable {α : Type} [Element α] {i : Nat} {ts : List (Tensor α)} {extents : List Nat}

omit [Element α] in
theorem locate_eq (i : Nat) (ts : List (Tensor α)) (k : Nat) :
    locate i ts k = ts[(blockOf (ts.map fun t => t.extent i) k).1]?.map fun t =>
      (t, (blockOf (ts.map fun t => t.extent i) k).2) := by
  induction ts generalizing k with
  | nil => rfl
  | cons t ts ih =>
    by_cases first : k < t.extent i
    · simp [locate, blockOf, first]
    · simp [locate, blockOf, first, ih]

/-- Arrays laid end to end are read block by block. -/
theorem join_laid (laid : Laid i ts extents) (nonempty : ts ≠ []) :
    join i ts = .ok (.ofFn extents fun q => ((ts[(blockSource i ts q).1]?).map fun t =>
      t.get (blockSource i ts q).2).getD default) := by
  obtain ⟨first, rest, rfl⟩ := List.exists_cons_of_ne_nil nonempty
  have outside : ∀ t ∈ first :: rest,
      t.rank = first.rank ∧ t.shape.set i 1 = first.shape.set i 1 := by
    intro t mem
    constructor
    · rw [laid.rank mem, laid.rank (by simp)]
    · rw [laid.shape t mem, laid.shape first (by simp), List.set_set, List.set_set]
  have agree : ((first :: rest).all fun t =>
      t.rank == first.rank && t.shape.set i 1 == first.shape.set i 1) = true := by
    simpa [List.all_eq_true] using outside
  have whole : first.shape.set i (((first :: rest).map fun t => t.extent i).foldr (· + ·) 0) =
      extents := by
    rw [laid.shape first (by simp), List.set_set]
    exact (congrArg (extents.set i) laid.sum.symm).trans (set_getD extents i 1)
  unfold join
  dsimp only
  rw [if_pos agree, whole]
  congr 2
  funext q
  rw [locate_eq, blockSource]
  cases (first :: rest)[(blockOf ((first :: rest).map fun t => t.extent i) (q.getD i 0)).1]? with
  | none => rfl
  | some t => rfl

end Joined

end Tensor

namespace Element.Reading

open Tensor

variable {α R : Type} [Element α] [CommRing R] {type : StorageType}
variable {ρ : Element.Reading α R type} {ts : List (Tensor α)} {i : Nat} {extents : List Nat}

/-- The sum of some elements, from the left. -/
theorem foldl_add {x : α} {xs : List α} (first : ρ.carrier x) (all : ∀ y ∈ xs, ρ.carrier y) :
    ρ.carrier (xs.foldl (· + ·) x) := by
  induction xs generalizing x with
  | nil => exact first
  | cons y xs ih =>
    obtain ⟨here, later⟩ := List.forall_mem_cons.mp all
    exact ih (ρ.add first here).1 later

/-- Arrays are brought to one type before they are laid end to end. -/
theorem joined_like (laid : Laid i ts extents) (nonempty : ts ≠ []) (holds : ∀ t ∈ ts, ρ.Holds t)
    (positive : ∀ t ∈ ts, ∀ e ∈ t.shape, 0 < e) : ∃ sample, ρ.carrier sample ∧
      Operator.joined i ts = join i (ts.map fun t => t.map (Element.like sample)) := by
  have heads : ∀ x ∈ ts.filterMap fun t => t.toList.head?, ρ.carrier x := by
    intro x mem
    obtain ⟨t, given, first⟩ := List.mem_filterMap.mp mem
    exact (holds t given).mem (List.mem_of_head? first)
  have several : (ts.filterMap fun t => t.toList.head?) ≠ [] := by
    obtain ⟨t, rest, rfl⟩ := List.exists_cons_of_ne_nil nonempty
    have long : 0 < t.toList.length := by
      rw [toList, Array.length_toList, t.size_eq]
      exact volume_pos (positive t (by simp))
    obtain ⟨x, xs, given⟩ := List.exists_cons_of_length_pos long
    simp [given]
  have ranked : ¬((ts.any fun t => decide (t.rank ≤ i)) = true) := by
    simp only [List.any_eq_true, decide_eq_true_eq, not_exists, not_and]
    intro t mem
    rw [laid.rank mem]
    exact Nat.not_le.mpr laid.axial
  obtain ⟨x, xs, found⟩ := List.exists_cons_of_ne_nil several
  rw [found] at heads
  obtain ⟨here, later⟩ := List.forall_mem_cons.mp heads
  refine ⟨xs.foldl (· + ·) x, foldl_add here later, ?_⟩
  unfold Operator.joined
  dsimp only
  rw [found, if_neg ranked]

/-- Arrays laid end to end hold what each of them holds. -/
theorem joined (laid : Laid i ts extents) (nonempty : ts ≠ []) (holds : ∀ t ∈ ts, ρ.Holds t)
    (positive : ∀ t ∈ ts, ∀ e ∈ t.shape, 0 < e) :
    ∃ u, Operator.joined i ts = .ok u ∧ u.shape = extents ∧ ρ.Holds u ∧
      ∀ q ∈ positions extents, ∀ t, ts[(blockSource i ts q).1]? = some t →
        ρ.entry u q = ρ.entry t (blockSource i ts q).2 := by
  obtain ⟨sample, carried, opened⟩ := joined_like laid nonempty holds positive
  have widths : ((ts.map fun t => t.map (Element.like sample)).map fun t => t.extent i) =
      ts.map fun t => t.extent i := by
    rw [List.map_map]
    rfl
  have laid' : Laid i (ts.map fun t => t.map (Element.like sample)) extents := by
    refine ⟨laid.axial, List.forall_mem_map.mpr fun t mem => laid.shape t mem, ?_⟩
    rw [widths]
    exact laid.sum
  have sources : ∀ q, blockSource i (ts.map fun t => t.map (Element.like sample)) q =
      blockSource i ts q := by
    intro q
    rw [blockSource, widths, blockSource]
  have read : ∀ q ∈ positions extents, ∀ t, ts[(blockSource i ts q).1]? = some t →
      (((ts.map fun t => t.map (Element.like sample))[(blockSource i ts q).1]?).map fun t =>
        t.get (blockSource i ts q).2).getD default =
          Element.like sample (t.get (blockSource i ts q).2) := by
    intro q here t found
    obtain ⟨t', found', inside⟩ := laid.source_mem here
    cases found.symm.trans found'
    rw [List.getElem?_map, found]
    exact get_map _ inside
  have joined := join_laid laid' (by simpa using nonempty)
  simp only [sources] at joined
  have like : ∀ q ∈ positions extents, ∀ t, ts[(blockSource i ts q).1]? = some t →
      ρ.carrier (Element.like sample (t.get (blockSource i ts q).2)) ∧
        ρ.val (Element.like sample (t.get (blockSource i ts q).2)) =
          ρ.entry t (blockSource i ts q).2 := by
    intro q here t found
    obtain ⟨t', found', inside⟩ := laid.source_mem here
    cases found.symm.trans found'
    exact ρ.like carried (holds t (List.mem_of_getElem? found) _ inside)
  refine ⟨_, opened.trans joined, rfl, holds_ofFn fun q here => ?_, fun q here t found => ?_⟩
  · obtain ⟨t, found, _⟩ := laid.source_mem here
    rw [read q here t found]
    exact (like q here t found).1
  · rw [entry_ofFn here, read q here t found]
    exact (like q here t found).2

end Element.Reading

namespace Tensor

/-- Some places of an axis that follow each other. -/
def cut {α : Type} [Inhabited α] (i start width : Nat) (g : Tensor α) : Tensor α :=
  g.selectAxis i ((List.range width).map (start + ·))

section Cut

variable {α : Type} [Element α] {i start width : Nat} {g : Tensor α} {p : List Nat}

theorem shape_cut : (g.cut i start width).shape = g.shape.set i width := by
  simp [cut, selectAxis, ofFn]

theorem get_cut (axial : i < g.shape.length) (inside : p ∈ positions (g.shape.set i width)) :
    (g.cut i start width).get p = g.get (p.set i (start + p.getD i 0)) := by
  have less := getD_lt_of_set axial inside
  have placed : p ∈ positions
      (g.shape.set i ((List.range width).map (start + ·)).length) := by simpa using inside
  rw [cut, selectAxis, get_ofFn placed, getD_map_range _ _ less]

/-- The blocks of a gradient, one for each of the arrays that are laid end to end. -/
theorem getElem?_blocks {ts : List (Tensor α)} (ranked : ∀ t ∈ ts, i < t.rank)
    (fits : start + (ts.map fun t => t.extent i).sum ≤ g.extent i) (k : Nat) :
    (Operator.blocks i g ts start)[k]? = ts[k]?.map fun t =>
      .ok (g.cut i (start + blockStart i ts k) (t.extent i)) := by
  induction ts generalizing start k with
  | nil => rfl
  | cons t ts ih =>
    obtain ⟨here, later⟩ := List.forall_mem_cons.mp ranked
    rw [List.map_cons, List.sum_cons] at fits
    have lies : ¬((decide (t.rank ≤ i) || decide (g.extent i < start + t.extent i)) = true) := by
      simp only [Bool.or_eq_true, decide_eq_true_eq]
      omega
    cases k with
    | zero =>
      simp only [Operator.blocks, if_neg lies, List.getElem?_cons_zero, Option.map_some]
      rfl
    | succ k =>
      have fits : start + t.extent i + (ts.map fun t => t.extent i).sum ≤ g.extent i := by omega
      have rest := ih later fits k
      simp only [Operator.blocks, List.getElem?_cons_succ, rest, blockStart, List.take_succ_cons,
        List.map_cons, List.sum_cons, Nat.add_assoc]

end Cut

end Tensor

namespace Operator

open Element.Reading Tensor

variable {α R : Type} [Element α] [CommRing R] {s : Stamp}
variable {ρ : Element.Reading α R s.type.storage} {g : Tensor α} {axis : Axis} {i : Nat}
variable {ts : List (Tensor α)}

/-- The block of a gradient that belongs to one of the arrays that are laid end to end. -/
theorem cut_block (laid : Laid i ts s.shape.extents) (same : g.shape = s.shape.extents)
    (gradient : ρ.Holds g) {k : Nat} {t : Tensor α} (found : ts[k]? = some t) :
    (g.cut i (blockStart i ts k) (t.extent i)).shape = t.shape ∧
      ρ.Holds (g.cut i (blockStart i ts k) (t.extent i)) ∧
      ∀ p ∈ positions t.shape, ρ.entry (g.cut i (blockStart i ts k) (t.extent i)) p =
        ρ.entry g (p.set i (blockStart i ts k + p.getD i 0)) := by
  have shape : g.shape.set i (t.extent i) = t.shape := by
    rw [same, ← laid.shape t (List.mem_of_getElem? found)]
  have read : ∀ p ∈ positions t.shape, (g.cut i (blockStart i ts k) (t.extent i)).get p =
      g.get (p.set i (blockStart i ts k + p.getD i 0)) := fun p inside =>
    get_cut (same.symm ▸ laid.axial) (shape.symm ▸ inside)
  refine ⟨shape_cut.trans shape, fun p inside => ?_, fun p inside => congrArg ρ.val (read p inside)⟩
  rw [shape_cut, shape] at inside
  rw [read p inside]
  exact gradient _ (same.symm ▸ laid.block_mem found inside)

/-- The contributions to arrays that are laid end to end are the blocks of the gradient. -/
theorem concatenate_contributions (resolved : axis.resolve s.shape.rank = .ok i)
    (laid : Laid i ts s.shape.extents) (same : g.shape = s.shape.extents) (gradient : ρ.Holds g)
    (out : Tensor α) (wanted : List Bool) :
    (concatenate axis).contributions ts out g wanted = (List.range ts.length).map fun k =>
      (k, .ok (.dense (g.cut i (blockStart i ts k) ((ts.map fun t => t.extent i).getD k 0)))) := by
  have fits : 0 + (ts.map fun t => t.extent i).sum ≤ g.extent i := by
    rw [Nat.zero_add, ← laid.sum, ← same]
    rfl
  have rank : axis.resolve g.rank = .ok i := by
    rw [Tensor.rank, same]
    exact resolved
  have ranked : ∀ t ∈ ts, i < t.rank := fun t mem => (laid.rank mem).symm ▸ laid.axial
  rw [contributions, rank]
  refine List.ext_getElem? fun k => ?_
  rw [List.getElem?_map, List.getElem?_zipIdx, getElem?_blocks ranked fits, List.getElem?_map]
  cases found : ts[k]? with
  | none =>
    rw [List.getElem?_eq_none (by simpa using List.getElem?_eq_none_iff.mp found)]
    rfl
  | some t =>
    obtain ⟨bound, _⟩ := List.getElem?_eq_some_iff.mp found
    obtain ⟨_, held, _⟩ := cut_block laid same gradient found
    have made := held.asDense rfl
    rw [List.getElem?_range bound]
    simp only [Option.map_some, Nat.zero_add, made, getD_extent found]

theorem concatenate_relocates (resolved : axis.resolve s.shape.rank = .ok i)
    (laid : Laid i ts s.shape.extents) (nonempty : ts ≠ []) (same : g.shape = s.shape.extents)
    (holds : ∀ t ∈ ts, ρ.Holds t) (gradient : ρ.Holds g)
    (positive : ∀ t ∈ ts, ∀ e ∈ t.shape, 0 < e) :
    ρ.Relocates (concatenate axis) ts g (blockSource i ts) := by
  constructor
  · intro q here k t found p inside
    have rank : axis.resolve t.rank = .ok i := by
      rw [laid.rank (List.mem_of_getElem? found)]
      exact resolved
    rw [laid.source_eq_iff found inside here]
    constructor
    · intro fetches
      cases fetches with
      | concatenate given resolved' block =>
        cases found.symm.trans given
        cases rank.symm.trans resolved'
        exact block
    · exact .concatenate found rank
  · exact fun q here => laid.source_mem here
  · obtain ⟨u, made, extents, held, entries⟩ :=
      Element.Reading.joined laid nonempty holds positive
    obtain ⟨y, stored, extents', kept, same'⟩ := held.assign
    rw [extents] at stored extents' same'
    refine ⟨y, ?_, extents', kept, fun q here t found => ?_⟩
    · exact bind_eq_ok.mpr ⟨u, bind_eq_ok.mpr ⟨i, resolved, made⟩, stored⟩
    · exact (same' q here).trans (entries q here t found)
  · intro out wanted _
    refine ⟨_, _, concatenate_contributions resolved laid same gradient out wanted,
      List.nodup_range, fun q here _ => ?_, fun k mem => ?_⟩
    · obtain ⟨t, found, _⟩ := laid.source_mem here
      exact List.mem_range.mpr (List.getElem?_eq_some_iff.mp found).1
    · have found := List.getElem?_eq_getElem (List.mem_range.mp mem)
      refine ⟨_, found, ?_⟩
      rw [getD_extent found]
      obtain ⟨shape, held, entries⟩ := cut_block laid same gradient found
      apply adds_moved held shape (positive _ (List.mem_of_getElem? found))
      · exact fun p inside => laid.block_mem found inside
      · exact fun p inside q here => laid.source_eq_iff found inside here
      · exact entries

/-! ### Slices of joined arrays -/

/-- The places of the axis at which an array lies among those that are laid end to end. -/
def blockSelection (i : Nat) (ts : List (Tensor α)) (slot width : Nat) : Selection :=
  .range [Bound.ofInt (blockStart i ts slot), Bound.ofInt (blockStart i ts slot + width : Nat)]

section Slices

variable {k : Nat} {t y h b : Tensor α}

omit [Element α] in
/-- The selection names the places of the block. -/
theorem blockSelection_places (laid : Laid i ts s.shape.extents) (found : ts[k]? = some t)
    (positive : 0 < t.extent i) :
    (blockSelection i ts k (t.extent i)).places axis (s.shape.extent i) =
      .ok ((List.range (t.extent i)).map (blockStart i ts k + ·)) := by
  have fits := start_le (getElem?_extent (i := i) found)
  rw [← blockStart_eq, ← laid.sum] at fits
  exact Selection.places_between fits positive axis

omit [Element α] in
/-- Where a slice of joined arrays that covers one of them is read. -/
theorem listed_block (laid : Laid i ts s.shape.extents) (found : ts[k]? = some t) {p : List Nat}
    (inside : p ∈ positions t.shape) :
    ((List.range (t.extent i)).map (blockStart i ts k + ·)).getD (p.getD i 0) 0 =
      blockStart i ts k + p.getD i 0 :=
  getD_map_range _ _ (laid.extent_lt (List.mem_of_getElem? found) inside).2

omit [Element α] in
/-- The axis is one of every array that is laid, and there the array has some places. -/
theorem laid_axis (laid : Laid i ts s.shape.extents) (found : ts[k]? = some t)
    (positive : ∀ e ∈ t.shape, 0 < e) : i < t.shape.length ∧ 0 < t.extent i := by
  have axial : i < t.shape.length := by
    rw [laid.shape t (List.mem_of_getElem? found), List.length_set]
    exact laid.axial
  refine ⟨axial, positive _ ?_⟩
  rw [Tensor.extent, List.getD_eq_getElem _ _ axial]
  exact List.getElem_mem axial

/-- A slice of joined arrays where one of them was laid moves the elements there. -/
theorem slice_block (replaces : ρ.Replaces) (resolved : axis.resolve s.shape.rank = .ok i)
    (laid : Laid i ts s.shape.extents) (found : ts[k]? = some t)
    (positive : ∀ e ∈ t.shape, 0 < e) (shape : y.shape = s.shape.extents) (holds : ρ.Holds y)
    (same : h.shape = t.shape) (gradient : ρ.Holds h) :
    Element.Reading.Relocates (s := { s with shape := ⟨t.shape, positive⟩ }) ρ
      (slice axis (blockSelection i ts k (t.extent i))) [y] h fun p => (0, p.set i
        (((List.range (t.extent i)).map (blockStart i ts k + ·)).getD (p.getD i 0) 0)) := by
  have width := (laid_axis laid found positive).2
  have rank : axis.resolve y.rank = .ok i := by
    rw [Tensor.rank, shape]
    exact resolved
  have extent : s.shape.extent i = y.extent i := congrArg (fun e => e.getD i 1) shape.symm
  refine slice_relocates (s := { s with shape := ⟨t.shape, positive⟩ }) replaces rank
    (extent ▸ blockSelection_places laid found width) ?_ same holds gradient
  rw [shape, List.length_map, List.length_range]
  exact laid.shape t (List.mem_of_getElem? found)

/-- A slice of joined arrays where one of them was laid gives it back. -/
theorem slice_joined (replaces : ρ.Replaces) (resolved : axis.resolve s.shape.rank = .ok i)
    (laid : Laid i ts s.shape.extents) (found : ts[k]? = some t)
    (positive : ∀ e ∈ t.shape, 0 < e) (shape : y.shape = s.shape.extents) (holds : ρ.Holds y)
    (entries : ∀ q ∈ positions s.shape.extents, ∀ t, ts[(blockSource i ts q).1]? = some t →
      ρ.entry y q = ρ.entry t (blockSource i ts q).2) :
    ∃ z, (slice axis (blockSelection i ts k (t.extent i))).forward s.type.storage t.shape [y] =
        .ok z ∧ z.shape = t.shape ∧ ρ.Holds z ∧
      ∀ p ∈ positions t.shape, ρ.entry z p = ρ.entry t p := by
  have zeros : ρ.Holds (.full t.shape (Element.store s.type.storage (Element.whole 0))) :=
    holds_full ρ.zero.1 t.shape
  have relocates := slice_block (h := .full t.shape _) replaces resolved laid found positive shape
    holds rfl zeros
  obtain ⟨z, ran, extents, held, same⟩ := relocates.result
  refine ⟨z, ran, extents, held, fun p inside => ?_⟩
  have there := laid.block_mem found inside
  have source := (laid.source_eq_iff found inside there).mpr rfl
  rw [same p inside y rfl, listed_block laid found inside, entries _ there t (source ▸ found),
    source]

/-- What a slice of joined arrays where one of them was laid adds to their gradient lies in the
block of that array, where it is the gradient of the slice. -/
theorem slice_gradient (replaces : ρ.Replaces) (resolved : axis.resolve s.shape.rank = .ok i)
    (laid : Laid i ts s.shape.extents) (found : ts[k]? = some t)
    (positive : ∀ e ∈ t.shape, 0 < e) (shape : y.shape = s.shape.extents)
    (holds : ρ.Holds y) (same : h.shape = t.shape) (gradient : ρ.Holds h) (z : Tensor α) :
    ∃ c b, (slice axis (blockSelection i ts k (t.extent i))).contributions [y] z h [true] =
        [(0, .ok c)] ∧
      c.addTo (.full s.shape.extents (Element.store s.type.storage (Element.whole 0))) = .ok b ∧
      b.shape = s.shape.extents ∧ ρ.Holds b ∧
      ∀ m t', ts[m]? = some t' → ∀ p ∈ positions t'.shape,
        ρ.entry b (p.set i (blockStart i ts m + p.getD i 0)) =
          if m = k then ρ.entry h p else 0 := by
  have relocates := slice_block replaces resolved laid found positive shape holds same gradient
  obtain ⟨c, made, adds⟩ := relocates.only (positions_ne_nil positive) z
  rw [shape] at adds
  obtain ⟨b, added, extents, held, entries⟩ := adds _ rfl (holds_full ρ.zero.1 _)
  refine ⟨c, b, made, added, extents, held, fun m t' found' p inside => ?_⟩
  have there := laid.block_mem found' inside
  have source := (laid.source_eq_iff found' inside there).mpr rfl
  -- a position of the slice lies at the place of the position `p` of the array in slot `m`
  have reads : ∀ p' ∈ positions t.shape, ((0, p'.set i (((List.range (t.extent i)).map
      (blockStart i ts k + ·)).getD (p'.getD i 0) 0)) =
        (0, p.set i (blockStart i ts m + p.getD i 0)) ↔ m = k ∧ p' = p) := by
    intro p' inside'
    rw [listed_block laid found inside', Prod.mk.injEq, eq_comm (a := p'.set i _),
      ← laid.source_eq_iff found inside' there, source, Prod.mk.injEq, eq_comm (a := p')]
    tauto
  rw [entries _ there, Element.Reading.entry, get_full there, ρ.zero.2, zero_add]
  by_cases own : m = k
  · obtain rfl := own
    cases found.symm.trans found'
    rw [if_pos rfl]
    refine sum_only inside (fun p' inside' => ?_) _
    rw [reads p' inside']
    exact and_iff_right rfl
  · rw [if_neg own]
    refine Finset.sum_eq_zero fun p' mem => ?_
    obtain ⟨inside', read⟩ := Finset.mem_filter.mp mem
    exact absurd ((reads p' (mem_places.mp inside')).mp read).1 own

end Slices

end Operator

end ReverseMode
