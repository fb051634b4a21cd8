import Mathlib.Data.List.Sort
import ReverseMode.Proofs.Blocks
import ReverseMode.Proofs.IntegerArrays

/-!
Slices of an axis.

A slice of a list with a start, a stop and a step takes the items from the start on and before the
stop, in the direction of the step, and of these every one that is a multiple of the step behind the
first (`sliced`). Negative bounds count from the end; a bound that is left out bounds nothing. The
places that a range selects are computed with bounds that are moved to the ends of the axis and with
a count of steps; they are the slice of the places of the axis.
-/

namespace ReverseMode

open scoped Element Scalar

namespace Selection

/-! ### Slices of lists -/

/-- The items of a list that are a multiple of `k` behind the first. -/
def everyNth {β : Type} (k : Nat) (xs : List β) : List β :=
  (xs.zipIdx.filter fun x => x.2 % k == 0).map Prod.fst

/-- A bound counted from the end of `extent` places if it is negative. -/
def counted (extent : Nat) (n : Int) : Int := if n < 0 then n + extent else n

/-- The places of an axis in the direction of a step, from a start on and before a stop. -/
def between (start stop : Option Int) (step : Int) (extent : Nat) : List Nat :=
  if 0 < step then
    (List.range extent).filter fun p =>
      start.all (counted extent · ≤ p) && stop.all (p < counted extent ·)
  else
    (List.range extent).reverse.filter fun p =>
      start.all (p ≤ counted extent ·) && stop.all (counted extent · < p)

/-- The slice of the places of an axis. -/
def sliced (start stop step : Option Int) (extent : Nat) : List Nat :=
  everyNth (step.getD 1).natAbs (between start stop (step.getD 1) extent)

/-! ### Progressions -/

section Progressions

variable {β γ : Type} {a b k n : Nat}

theorem everyNth_map (k : Nat) (f : β → γ) (xs : List β) :
    everyNth k (xs.map f) = (everyNth k xs).map f := by
  unfold everyNth
  rw [List.zipIdx_map, List.filter_map, List.map_map, List.map_map]
  rfl

/-- The numbers before `n` that are multiples of `k`. -/
theorem filter_multiples (positive : 0 < k) :
    ((List.range n).filter fun i => i % k == 0) =
      (List.range ((n + k - 1) / k)).map (· * k) := by
  refine List.Pairwise.eq_of_mem_iff (r := (· < ·)) ?_ ?_ fun i => ?_
  · exact List.pairwise_lt_range.filter _
  · refine List.pairwise_map.mpr (List.pairwise_lt_range.imp fun less => ?_)
    exact Nat.mul_lt_mul_of_pos_right less positive
  · simp only [List.mem_filter, List.mem_map, List.mem_range, beq_iff_eq]
    constructor
    · rintro ⟨bound, whole⟩
      obtain ⟨j, rfl⟩ := Nat.dvd_of_mod_eq_zero whole
      refine ⟨j, ?_, Nat.mul_comm j k⟩
      rw [Nat.lt_div_iff_mul_lt positive]
      rw [Nat.mul_comm] at bound
      omega
    · rintro ⟨j, bound, rfl⟩
      rw [Nat.lt_div_iff_mul_lt positive] at bound
      refine ⟨by omega, Nat.mul_mod_left j k⟩

theorem everyNth_range (k n : Nat) :
    everyNth k (List.range n) = (List.range n).filter fun i => i % k == 0 := by
  have indexed : (List.range n).zipIdx = (List.range n).map fun i => (i, i) := by
    refine List.ext_getElem (by simp) fun i _ _ => by simp
  rw [everyNth, indexed, List.filter_map, List.map_map]
  exact List.map_id _

theorem everyNth_progression (positive : 0 < k) (f : Nat → β) :
    everyNth k ((List.range n).map f) =
      (List.range ((n + k - 1) / k)).map fun j => f (j * k) := by
  rw [everyNth_map, everyNth_range, filter_multiples positive, List.map_map]
  rfl

/-- The numbers from `a` on and before `b`. -/
theorem filter_interval (fits : b ≤ n) :
    ((List.range n).filter fun i => decide (a ≤ i ∧ i < b)) =
      (List.range (b - a)).map (a + ·) := by
  refine List.Pairwise.eq_of_mem_iff (r := (· < ·)) ?_ ?_ fun i => ?_
  · exact List.pairwise_lt_range.filter _
  · exact List.pairwise_map.mpr (List.pairwise_lt_range.imp fun less => Nat.add_lt_add_left less a)
  · simp only [List.mem_filter, List.mem_map, List.mem_range, decide_eq_true_eq]
    constructor
    · rintro ⟨-, first, last⟩
      exact ⟨i - a, by omega, by omega⟩
    · rintro ⟨j, bound, rfl⟩
      omega

/-- A quotient rounded up, of which there are no negative ones. -/
theorem toNat_ceil {m d : Int} (positive : 0 < d) :
    ((m + d - 1) / d).toNat = (m.toNat + d.toNat - 1) / d.toNat := by
  obtain ⟨d, rfl⟩ := Int.eq_ofNat_of_zero_le positive.le
  rcases Int.le_total m 0 with none | some
  · have small : (m + d - 1) / d < 1 := Int.ediv_lt_of_lt_mul positive (by omega)
    have zero : m.toNat = 0 := Int.toNat_of_nonpos none
    rw [zero, Int.toNat_natCast, Nat.div_eq_of_lt (by omega)]
    omega
  · obtain ⟨m, rfl⟩ := Int.eq_ofNat_of_zero_le some
    have same : (m : Int) + d - 1 = ((m + d - 1 : Nat) : Int) := by omega
    rw [same, Int.toNat_natCast, Int.toNat_natCast]
    exact congrArg Int.toNat (Int.natCast_ediv (m + d - 1) d).symm

/-- The numbers from one on, in reverse. -/
theorem reverse_progression :
    ((List.range n).map (a + ·)).reverse = (List.range n).map fun j => a + (n - 1 - j) :=
  List.ext_getElem (by simp) fun j _ _ => by simp

end Progressions

/-! ### Ranges -/

section Ranges

variable {start stop : Option Int} {step first past : Int} {extent : Nat}

/-- Moved to an end of the axis, a bound of a step forward leaves the same places. -/
theorem clip_forward (n : Int) {p : Nat} (bound : p < extent) :
    (clip 0 extent extent n ≤ p ↔ counted extent n ≤ p) ∧
      (p < clip 0 extent extent n ↔ p < counted extent n) := by
  unfold clip counted
  dsimp only
  omega

/-- Moved to an end of the axis, a bound of a step back leaves the same places. -/
theorem clip_back (n : Int) {p : Nat} (bound : p < extent) :
    (p ≤ clip (-1) (extent - 1) extent n ↔ p ≤ counted extent n) ∧
      (clip (-1) (extent - 1) extent n < p ↔ counted extent n < p) := by
  unfold clip counted
  dsimp only
  omega

/-- The places between bounds, in the direction of a step forward. -/
theorem between_forward (forward : 0 < step) (low : 0 ≤ first) (high : past ≤ extent)
    (starts : ∀ p : Nat, p < extent → start.all (counted extent · ≤ p) = decide (first ≤ p))
    (stops : ∀ p : Nat, p < extent → stop.all (p < counted extent ·) = decide (p < past)) :
    between start stop step extent =
      (List.range (past - first).toNat).map fun (j : Nat) => (first + j).toNat := by
  have interval := filter_interval (a := first.toNat) (b := past.toNat) (n := extent) (by omega)
  have same : ∀ p ∈ List.range extent,
      (start.all (counted extent · ≤ p) && stop.all (p < counted extent ·)) =
        decide (first.toNat ≤ p ∧ p < past.toNat) := by
    intro p mem
    have bound := List.mem_range.mp mem
    rw [starts p bound, stops p bound, ← Bool.decide_and, decide_eq_decide]
    omega
  have width : past.toNat - first.toNat = (past - first).toNat := by omega
  rw [between, if_pos forward, List.filter_congr same, interval, width]
  refine List.map_congr_left fun j _ => ?_
  omega

/-- The places between bounds, in the direction of a step back. -/
theorem between_back (back : step < 0) (low : -1 ≤ past) (high : first < extent)
    (starts : ∀ p : Nat, p < extent → start.all (p ≤ counted extent ·) = decide (p ≤ first))
    (stops : ∀ p : Nat, p < extent → stop.all (counted extent · < p) = decide (past < p)) :
    between start stop step extent =
      (List.range (first - past).toNat).map fun (j : Nat) => (first - j).toNat := by
  have interval := filter_interval (a := (past + 1).toNat) (b := (first + 1).toNat) (n := extent)
    (by omega)
  have same : ∀ p ∈ List.range extent,
      (start.all (p ≤ counted extent ·) && stop.all (counted extent · < p)) =
        decide ((past + 1).toNat ≤ p ∧ p < (first + 1).toNat) := by
    intro p mem
    have bound := List.mem_range.mp mem
    rw [starts p bound, stops p bound, ← Bool.decide_and, decide_eq_decide]
    omega
  have width : (first + 1).toNat - (past + 1).toNat = (first - past).toNat := by omega
  rw [between, if_neg (by omega), List.filter_reverse, List.filter_congr same, interval,
    reverse_progression, width]
  refine List.map_congr_left fun j mem => ?_
  have bound := List.mem_range.mp mem
  omega

/-- Every so many places of a progression are the ones that the step leads to. -/
theorem everyNth_forward (forward : 0 < step) :
    everyNth step.natAbs
        ((List.range (past - first).toNat).map fun (j : Nat) => (first + j).toNat) =
      (List.range (stepCount first past step)).map fun (j : Nat) => (first + j * step).toNat := by
  have size : (step.natAbs : Int) = step := Int.natAbs_of_nonneg forward.le
  have count : stepCount first past step =
      ((past - first).toNat + step.natAbs - 1) / step.natAbs := by
    rw [stepCount, if_pos forward, toNat_ceil forward, ← Int.toNat_natCast step.natAbs, size]
  rw [everyNth_progression (by omega), count]
  refine List.map_congr_left fun j _ => ?_
  rw [Nat.cast_mul, size]

theorem everyNth_back (back : step < 0) :
    everyNth step.natAbs
        ((List.range (first - past).toNat).map fun (j : Nat) => (first - j).toNat) =
      (List.range (stepCount first past step)).map fun (j : Nat) => (first + j * step).toNat := by
  have size : (step.natAbs : Int) = -step := Int.ofNat_natAbs_of_nonpos back.le
  have count : stepCount first past step =
      ((first - past).toNat + step.natAbs - 1) / step.natAbs := by
    rw [stepCount, if_neg (by omega), sub_eq_add_neg (first - past) step, toNat_ceil (by omega),
      ← Int.toNat_natCast step.natAbs, size]
  rw [everyNth_progression (by omega), count]
  refine List.map_congr_left fun j _ => ?_
  rw [Nat.cast_mul, size, mul_neg, sub_neg_eq_add]

/-- The places that a range selects are the slice of the places of the axis. -/
theorem rangePlaces_eq_sliced {step : Option Int} (moves : step.getD 1 ≠ 0) :
    rangePlaces start stop step extent = .ok (sliced start stop step extent) := by
  unfold rangePlaces sliced
  dsimp only
  rw [if_neg moves]
  rcases Int.lt_or_gt_of_ne moves with back | forward
  · have still : ¬0 < step.getD 1 := by omega
    have order : (-1 : Int) ≤ extent - 1 := by omega
    simp only [if_neg still]
    rw [← everyNth_back back]
    refine congrArg (fun places => Except.ok (everyNth _ places))
      (between_back back ?_ ?_ ?_ ?_).symm
    · cases stop with
      | none => simp
      | some n => exact (clip_between order extent n).1
    · cases start with
      | none => simp
      | some n => exact Int.lt_of_le_sub_one (clip_between order extent n).2
    · intro p bound
      cases start with
      | none => simp; omega
      | some n => exact decide_eq_decide.mpr (clip_back n bound).1.symm
    · intro p bound
      cases stop with
      | none => simp; omega
      | some n => exact decide_eq_decide.mpr (clip_back n bound).2.symm
  · simp only [if_pos forward]
    rw [← everyNth_forward forward]
    refine congrArg (fun places => Except.ok (everyNth _ places))
      (between_forward forward ?_ ?_ ?_ ?_).symm
    · cases start with
      | none => simp
      | some n => exact (clip_between (by omega) extent n).1
    · cases stop with
      | none => simp
      | some n => exact (clip_between (by omega) extent n).2
    · intro p bound
      cases start with
      | none => simp
      | some n => exact decide_eq_decide.mpr (clip_forward n bound).1.symm
    · intro p bound
      cases stop with
      | none => simp; omega
      | some n => exact decide_eq_decide.mpr (clip_forward n bound).2.symm

/-- From the last but one place back in steps of two. -/
example : sliced (some (-2)) none (some (-2)) 7 = [5, 3, 1] := by decide

/-- Bounds beyond the ends of the axis. -/
example : sliced (some (-9)) (some 9) (some 3) 7 = [0, 3, 6] := by decide

end Ranges

/-! ### What is selected -/

section Places

variable {start stop step : Option Int} {bounds : List Bound}

/-- The bounds of a range that are integers or left out. -/
def Reads (bounds : List Bound) (start stop step : Option Int) : Prop :=
  ∃ a b c, bounds3 bounds = some (a, b, c) ∧ a.number = .ok start ∧ b.number = .ok stop ∧
    c.number = .ok step

/-- A range selects the slice of the places of the axis, or nothing if that is empty. -/
theorem places_range_eq (reads : Reads bounds start stop step) (moves : step ≠ some 0)
    (axis : Axis) (extent : Nat) :
    (sliced start stop step extent ≠ [] →
      (range bounds).places axis extent = .ok (sliced start stop step extent)) ∧
    (sliced start stop step extent = [] →
      ∃ f, (range bounds).places axis extent = .error f ∧ f.kind = .shape) := by
  obtain ⟨a, b, c, three, first, last, stride⟩ := reads
  have nonzero : step.getD 1 ≠ 0 := by
    cases step with
    | none => decide
    | some n => exact fun zero => moves (congrArg some zero)
  have found : rangePlaces start stop step extent = .ok (sliced start stop step extent) :=
    rangePlaces_eq_sliced nonzero
  simp only [places, three, first, last, stride, found, bind, Except.bind, if_neg moves,
    List.isEmpty_iff]
  constructor
  · intro several
    rw [if_neg several]
    rfl
  · intro none
    rw [if_pos none]
    exact ⟨_, rfl, rfl⟩

/-- An integer selects the place that it names, counted from the end if it is negative. -/
theorem places_whole (n : Int) (text plain : String) (axis : Axis) (extent : Nat) :
    (-(extent : Int) ≤ n ∧ n < extent →
      (place (.whole n) text plain).places axis extent = .ok [(n % extent).toNat]) ∧
    (¬(-(extent : Int) ≤ n ∧ n < extent) →
      ∃ f, (place (.whole n) text plain).places axis extent = .error f ∧ f.kind = .shape) := by
  constructor
  · rintro ⟨least, less⟩
    have wrapped : Axis.wrap? n extent = some (n % extent).toNat := by
      unfold Axis.wrap?
      split
      next front =>
        rw [Int.emod_eq_of_lt front less]
      next =>
        rw [← Int.add_emod_right, Int.emod_eq_of_lt (by omega) (by omega)]
    have single : single (.whole n) plain extent = .ok (n % extent).toNat := by
      rw [single, placeOf, wrapped]
    exact bind_eq_ok.mpr ⟨_, single, rfl⟩
  · intro beyond
    have unfound : Axis.wrap? n extent = none := by
      unfold Axis.wrap?
      split
      · exact if_neg (by omega)
      · exact if_neg (by omega)
    have single : single (.whole n) plain extent = .error (.positionOutOfRange plain extent) := by
      rw [single, placeOf, unfound]
    exact ⟨_, bind_eq_error.mpr (.inl single), rfl⟩

end Places

end Selection

/-! ### What buffers hold -/

namespace Scalar

variable {a b : Scalar} {s : StorageType}

/-- Numbers of one type have a sum of that type, which replaces them as it is. -/
theorem replace_add (first : a.type? = some s) (second : b.type? = some s) :
    a.replace (a.add b) = a.add b := by
  have typed : (a.add b).type? = some s := type?_apply_self addition first second
  have sum : a.add b = addition.within s a b := by
    have common : common a b = s := (common_of_types first second).trans s.join_self
    have plain := refusal?_of_type? second
    rw [add, apply_eq addition (.inl (by simp [first])),
      unlessRefused_plain (refusal?_of_type? first) plain, common, reaches_of_type? first,
      reaches_of_type? second]
    rfl
  have kept : (a.add b).store s = a.add b := by
    rw [sum]
    cases s with
    | int t => exact congrArg (int t) (t.wrap_wrap _)
    | _ => rfl
  unfold replace
  rw [ownType_of_type? first, ownType_of_type? typed, kept]
  exact if_pos (decide_eq_true le_rfl)

end Scalar

namespace Tensor

variable {t u target g : Tensor Scalar} {type : StorageType} {shape : List Nat}

/-- The elements of an array are as a buffer of the type holds them. -/
def HeldIn (type : StorageType) (t : Tensor Scalar) : Prop :=
  ∀ x ∈ t.toList, x.type? = some type ∧ x.store type = x

theorem HeldIn.proper (held : t.HeldIn type) : t.Proper := fun x mem =>
  Scalar.refusal?_of_type? (held x mem).1

/-- Arrays that are held in a type are assigned to its buffers as they are. -/
theorem HeldIn.assign (held : t.HeldIn type) : t.assign type t.shape = .ok t := by
  rw [assign_self held.proper]
  refine congrArg Except.ok ((map_congr fun x mem => (held x mem).2).trans ?_)
  exact ext_get rfl fun pos inside => get_map (fun x => x) inside

/-- Places of an array that are held in a type. -/
theorem HeldIn.selectAxis {axis : Nat} {listed : List Nat} (held : t.HeldIn type)
    (axial : axis < t.shape.length) (below : ∀ k ∈ listed, k < t.shape.getD axis 1) :
    (t.selectAxis axis listed).HeldIn type := by
  intro x mem
  obtain ⟨q, inside, rfl⟩ := mem_toList_ofFn.mp mem
  exact held _ (get_mem (Element.Reading.window_mem below inside axial))

/-- Arrays of one type and the same extents are added in place element by element. -/
theorem addInPlace_typed (same : g.shape = target.shape) (first : target.Typed type)
    (second : g.Typed type) :
    target.addInPlace g = .ok (ofFn target.shape fun p => (target.get p).add (g.get p)) := by
  have update {x y : Scalar} (mem : x ∈ target.toList) (mem' : y ∈ g.toList) :
      x.replace (x.add y) = x.add y := Scalar.replace_add (first x mem) (second y mem')
  have unrefused : (List.zipWith (fun x y : Scalar => Element.replace x (x + y))
      (target.toList.take 1) (g.toList.take 1)).findSome? Element.refusal? = none := by
    refine List.findSome?_eq_none_iff.mpr fun z mem => ?_
    obtain ⟨k, bound, rfl⟩ := List.getElem_of_mem mem
    rw [List.getElem_zipWith]
    have sum {x y : Scalar} (mem : x ∈ target.toList) (mem' : y ∈ g.toList) :
        (x.replace (x.add y)).refusal? = none := by
      rw [update mem mem']
      exact Scalar.refusal?_of_type?
        (Scalar.type?_apply_self Scalar.addition (first x mem) (second y mem'))
    refine sum ?_ ?_
    · exact List.mem_of_mem_take (List.getElem_mem _)
    · exact List.mem_of_mem_take (List.getElem_mem _)
  have joined : broadcast? [target.shape, g.shape] = some target.shape := by
    rw [same]
    exact (Fits.refl target.shape).broadcast
  have sums : ofFn target.shape (fun p => Element.replace (target.read p)
      (target.read p + g.read p)) = ofFn target.shape fun p => (target.get p).add (g.get p) := by
    refine ext_get rfl fun p inside => ?_
    have inside : p ∈ positions target.shape := inside
    rw [get_ofFn inside, get_ofFn inside, read_self inside, read_self (same ▸ inside)]
    exact update (get_mem inside) (get_mem (same ▸ inside))
  rw [← sums]
  unfold addInPlace updateInPlace combine
  simp only [unrefused, joined]
  exact if_pos rfl

end Tensor

namespace Operator

open Tensor

variable {a : Signature} {axis : Axis} {i : Nat} {selection : Selection} {listed : List Nat}

/-! ### Slices of arrays -/

/-- An operator that shows the listed places of an axis in their order. Its backward step adds the
gradient of every place of the output to the place that is shown there, and leaves the others. -/
structure Slices (op : Operator Scalar) (a s : Signature) (i : Nat) (listed : List Nat) :
    Prop where
  inferred : op.infer [a] = .ok s
  type : s.type = a.type
  extents : s.shape.extents = a.shape.extents.set i listed.length
  shows : ∀ t : Tensor Scalar, t.shape = a.shape.extents → t.HeldIn a.type.storage →
    ∃ y, op.forward s.type.storage s.shape.extents [t] = .ok y ∧ y.shape = s.shape.extents ∧
      ∀ q ∈ positions s.shape.extents, y.get q = t.get (q.set i (listed.getD (q.getD i 0) 0))
  adds : ∀ t out g target : Tensor Scalar, t.shape = a.shape.extents → g.Conforms s →
    target.Conforms a → ∃ c b, op.contributions [t] out g [true] = [(0, .ok c)] ∧
      c.addTo target = .ok b ∧ b.shape = target.shape ∧
      (∀ j place, listed[j]? = some place → ∀ p ∈ positions a.shape.extents, p.getD i 0 = place →
        b.get p = (target.get p).add (g.get (p.set i j))) ∧
      ∀ p ∈ positions a.shape.extents, p.getD i 0 ∉ listed → b.get p = target.get p
  spares : ∀ t out g : Tensor Scalar, op.contributions [t] out g [false] = []

/-- The window of some places of an axis, none of them named twice, is added to place by place. -/
theorem addTo_window {target g : Tensor Scalar} {type : StorageType}
    (axial : i < target.shape.length)
    (below : ∀ k ∈ listed, k < target.shape.getD i 1) (nodup : listed.Nodup)
    (extents : g.shape = target.shape.set i listed.length) (first : target.Typed type)
    (second : g.Typed type) :
    ∃ b, (Contribution.window i listed g).addTo target = .ok b ∧ b.shape = target.shape ∧
      (∀ j place, listed[j]? = some place → ∀ p ∈ positions target.shape, p.getD i 0 = place →
        b.get p = (target.get p).add (g.get (p.set i j))) ∧
      ∀ p ∈ positions target.shape, p.getD i 0 ∉ listed → b.get p = target.get p := by
  have window : (target.selectAxis i listed).Typed type := by
    intro x mem
    obtain ⟨q, inside, rfl⟩ := mem_toList_ofFn.mp mem
    exact first _ (get_mem (Element.Reading.window_mem below inside axial))
  have same : g.shape = (target.selectAxis i listed).shape := extents
  have added := addInPlace_typed same window second
  refine ⟨_, bind_eq_ok.mpr ⟨_, added, rfl⟩, rfl, ?_, ?_⟩
  · intro j place found p inside here
    obtain ⟨bound, same⟩ := List.getElem?_eq_some_iff.mp found
    have index : listed.idxOf? (p.getD i 0) = some j := by
      rw [here, List.idxOf?_eq_some_iff]
      refine ⟨bound, same, fun k before again => ?_⟩
      exact absurd (nodup.getElem_inj_iff.mp (again.trans same.symm)) (Nat.ne_of_lt before)
    obtain ⟨placed, shown⟩ := get_selectAxis inside index
    rw [putAxis, get_ofFn inside, index]
    exact (get_ofFn placed).trans (congrArg (Scalar.add · _) shown)
  · intro p inside apart
    rw [putAxis, get_ofFn inside, List.idxOf?_eq_none_iff.mpr apart]

/-- The places that are selected, of which there is at least one, are what a slice shows. -/
theorem slices_of_places (resolved : axis.resolve a.shape.rank = .ok i)
    (selected : selection.places axis (a.shape.extent i) = .ok listed) (some : listed ≠ []) :
    ∃ s, Slices (slice axis selection) a s i listed := by
  have axial : i < a.shape.extents.length := Axis.resolve_lt resolved
  obtain ⟨nodup, below⟩ := Selection.places_listed selected
  change ∀ place ∈ listed, place < a.shape.extents.getD i 1 at below
  obtain ⟨shape, made, extents⟩ := Shape.set_ofInt axial (List.length_pos_iff.mpr some)
  refine ⟨⟨shape, a.type⟩, ?_, rfl, extents, ?_, ?_, fun _ _ _ => rfl⟩
  · exact bind_eq_ok.mpr ⟨a, rfl, bind_eq_ok.mpr ⟨i, resolved, bind_eq_ok.mpr ⟨listed, selected,
      bind_eq_ok.mpr ⟨shape, made, rfl⟩⟩⟩⟩
  · intro t same held
    have rank : axis.resolve t.rank = .ok i := by
      rw [Tensor.rank, same]
      exact resolved
    have extent : t.extent i = a.shape.extent i := congrArg (fun e => e.getD i 1) same
    have value : (slice axis selection).value shape.extents.length [t] =
        .ok (t.selectAxis i listed) :=
      bind_eq_ok.mpr ⟨t, rfl, bind_eq_ok.mpr ⟨i, rank, bind_eq_ok.mpr ⟨listed, extent ▸ selected,
        rfl⟩⟩⟩
    have shown : t.shape.set i listed.length = shape.extents := by rw [extents, same]
    have stored := (held.selectAxis (same ▸ axial) (same ▸ below)).assign
    rw [show (t.selectAxis i listed).shape = shape.extents from shown] at stored
    refine ⟨t.selectAxis i listed, bind_eq_ok.mpr ⟨_, value, stored⟩, shown, fun q here => ?_⟩
    rw [← shown] at here
    exact get_ofFn here
  · intro t out g target same gradient buffer
    have rank : axis.resolve t.rank = .ok i := by
      rw [Tensor.rank, same]
      exact resolved
    have extent : t.extent i = a.shape.extent i := congrArg (fun e => e.getD i 1) same
    have window : (slice axis selection).contributions [t] out g [true] =
        [(0, .ok (.window i listed g))] := by
      have made : (do pure (.window i (← selection.places axis (t.extent i)) g) :
          Except Fault (Contribution Scalar)) = .ok (.window i listed g) :=
        bind_eq_ok.mpr ⟨listed, extent ▸ selected, rfl⟩
      exact congrArg (fun c => [(0, c)]) (bind_eq_ok.mpr ⟨i, rank, made⟩)
    obtain ⟨b, added, rest⟩ := addTo_window (buffer.shape ▸ axial) (buffer.shape ▸ below) nodup
      (gradient.shape.trans (buffer.shape ▸ extents)) buffer.typed gradient.typed
    rw [buffer.shape] at rest
    exact ⟨_, b, window, added, buffer.shape ▸ rest⟩

/-- Where nothing is selected, a slice is refused for the same reason. -/
theorem slice_refused {f : Fault} (resolved : axis.resolve a.shape.rank = .ok i)
    (refused : selection.places axis (a.shape.extent i) = .error f) :
    (slice axis selection : Operator Scalar).infer [a] = .error f :=
  bind_eq_error.mpr (.inr ⟨a, rfl, bind_eq_error.mpr (.inr ⟨i, resolved,
    bind_eq_error.mpr (.inl refused)⟩)⟩)

/-- A slice of an axis with a start, a stop and a step other than zero shows the slice of the places
of the axis, and one with an integer the place that it names; both are refused for their shape if
there is no such place. -/
theorem slice_listed (resolved : axis.resolve a.shape.rank = .ok i) :
    (∀ bounds start stop step, Selection.Reads bounds start stop step → step ≠ some 0 →
      (Selection.sliced start stop step (a.shape.extent i) ≠ [] →
        ∃ s, Slices (slice axis (.range bounds)) a s i
          (Selection.sliced start stop step (a.shape.extent i))) ∧
      (Selection.sliced start stop step (a.shape.extent i) = [] →
        ∃ f, (slice axis (.range bounds) : Operator Scalar).infer [a] = .error f ∧
          f.kind = .shape)) ∧
    ∀ n text plain,
      (-(a.shape.extent i : Int) ≤ n ∧ n < a.shape.extent i →
        ∃ s, Slices (slice axis (.place (.whole n) text plain)) a s i
          [(n % a.shape.extent i).toNat]) ∧
      (¬(-(a.shape.extent i : Int) ≤ n ∧ n < a.shape.extent i) →
        ∃ f, (slice axis (.place (.whole n) text plain) : Operator Scalar).infer [a] = .error f ∧
          f.kind = .shape) := by
  constructor
  · intro bounds start stop step reads moves
    obtain ⟨found, empty⟩ := Selection.places_range_eq reads moves axis (a.shape.extent i)
    constructor
    · exact fun some => slices_of_places resolved (found some) some
    · intro none
      obtain ⟨f, refused, kind⟩ := empty none
      exact ⟨f, slice_refused resolved refused, kind⟩
  · intro n text plain
    obtain ⟨found, beyond⟩ := Selection.places_whole n text plain axis (a.shape.extent i)
    constructor
    · exact fun inside => slices_of_places resolved (found inside) (List.cons_ne_nil _ _)
    · intro outside
      obtain ⟨f, refused, kind⟩ := beyond outside
      exact ⟨f, slice_refused resolved refused, kind⟩

end Operator

namespace Sample

open Operator

/-- A row of five places. -/
def fiveRow : Signature := ⟨.vector 5 (by decide), .float64⟩

/-- Every other place from the fourth back, the last place, and an empty range, of a row of five. -/
theorem row_slices :
    Axis.resolve 0 fiveRow.shape.rank = .ok 0 ∧
    (∃ s, Slices (slice 0 (.range [.ofInt 3, .leftOut, .ofInt (-2)])) fiveRow s 0 [3, 1]) ∧
    (∃ f, (slice 0 (.range [.ofInt 4, .ofInt (-3)]) : Operator Scalar).infer [fiveRow] = .error f ∧
      f.kind = .shape) ∧
    (∃ s, Slices (slice 0 (.place (.whole (-1)) "-1" "-1")) fiveRow s 0 [4]) ∧
    ∃ f, (slice 0 (.place (.whole 5) "5" "5") : Operator Scalar).infer [fiveRow] = .error f ∧
      f.kind = .shape := by
  have resolved : Axis.resolve 0 fiveRow.shape.rank = .ok 0 := rfl
  have back : Selection.Reads [.ofInt 3, .leftOut, .ofInt (-2)] (some 3) none (some (-2)) :=
    ⟨_, _, _, rfl, rfl, rfl, rfl⟩
  have empty : Selection.Reads [.ofInt 4, .ofInt (-3)] (some 4) (some (-3)) none :=
    ⟨_, _, _, rfl, rfl, rfl, rfl⟩
  obtain ⟨ranges, places⟩ := Operator.slice_listed resolved
  refine ⟨resolved, ?_, ?_, ?_, ?_⟩
  · exact (ranges _ _ _ _ back (by decide)).1 (by decide)
  · exact (ranges _ _ _ _ empty (by decide)).2 (by decide)
  · exact (places (-1) "-1" "-1").1 (by decide)
  · exact (places 5 "5" "5").2 (by decide)

end Sample

end ReverseMode
