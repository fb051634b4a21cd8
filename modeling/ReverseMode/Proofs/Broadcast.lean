import Mathlib.Data.List.Basic
import ReverseMode.Proofs.Outcome
import ReverseMode.Shape.Broadcast

/-!
What extents combine to.

The extents of one axis have a common one if all others are ones, and arrays combine to the extents
that are common on every axis. Axes are counted from the end here, so that arrays with fewer axes
need no padding.
-/

namespace ReverseMode

/-! ### One axis -/

theorem foldlM_joinExtent {extents : List Nat} {joined e : Nat} :
    extents.foldlM joinExtent joined = some e ↔
      (∀ x ∈ joined :: extents, x = 1 ∨ x = e) ∧ e ∈ joined :: extents := by
  induction extents generalizing joined with
  | nil =>
    have : (∀ x ∈ [joined], x = 1 ∨ x = e) ∧ e ∈ [joined] ↔ joined = e := by grind
    exact Option.some_inj.trans this.symm
  | cons x extents ih =>
    rw [List.foldlM_cons, joinExtent]
    by_cases stays : x = 1 ∨ x = joined
    · rw [if_pos stays]
      refine ih.trans ?_
      simp only [List.mem_cons, forall_eq_or_imp]
      rcases stays with rfl | rfl <;> grind
    · rw [if_neg stays]
      by_cases first : joined = 1
      · rw [if_pos first]
        refine ih.trans ?_
        simp only [List.mem_cons, forall_eq_or_imp]
        grind
      · rw [if_neg first]
        simp only [List.mem_cons, forall_eq_or_imp]
        grind

/-- Extents have a common one if every other one is one. -/
theorem joinExtents_eq_some {extents : List Nat} {e : Nat} :
    joinExtents extents = some e ↔ (∀ x ∈ extents, x = 1 ∨ x = e) ∧ (e = 1 ∨ e ∈ extents) := by
  rw [joinExtents, foldlM_joinExtent]
  simp only [List.mem_cons, forall_eq_or_imp]
  grind

/-! ### All axes -/

/-- The extent of an axis counted from the end; one beyond the first axis. -/
def backExtent (extents : List Nat) (j : Nat) : Nat := extents.reverse.getD j 1

theorem backExtent_eq {extents : List Nat} {i : Nat} (bound : i < extents.length) :
    backExtent extents (extents.length - 1 - i) = extents[i] := by
  have place : extents.length - 1 - (extents.length - 1 - i) = i := by omega
  simp [backExtent, List.getD_eq_getElem?_getD, List.getElem?_reverse (show
    extents.length - 1 - i < extents.length by omega), place, bound]

theorem backExtent_beyond {extents : List Nat} {j : Nat} (beyond : extents.length ≤ j) :
    backExtent extents j = 1 := by
  simp [backExtent, List.getD_eq_getElem?_getD, beyond]

theorem getD_padTo {extents : List Nat} {rank i : Nat} (enough : extents.length ≤ rank)
    (bound : i < rank) : (padTo rank extents).getD i 1 = backExtent extents (rank - 1 - i) := by
  rw [padTo, List.getD_eq_getElem?_getD, List.getElem?_append]
  by_cases padded : i < rank - extents.length
  · rw [backExtent_beyond (by omega)]
    simp [padded]
  · have place : rank - 1 - i = extents.length - 1 - (i - (rank - extents.length)) := by omega
    rw [place, backExtent_eq (by omega)]
    simp [padded, show i - (rank - extents.length) < extents.length by omega]

theorem length_le_maxRank {shapes : List (List Nat)} {s : List Nat} (mem : s ∈ shapes) :
    s.length ≤ maxRank shapes := by
  induction shapes with
  | nil => cases mem
  | cons t shapes ih =>
    have cons : maxRank (t :: shapes) = max t.length (maxRank shapes) := rfl
    rcases List.mem_cons.mp mem with rfl | mem
    · omega
    · have := ih mem
      omega

theorem maxRank_le {shapes : List (List Nat)} {n : Nat} (each : ∀ s ∈ shapes, s.length ≤ n) :
    maxRank shapes ≤ n := by
  induction shapes with
  | nil => exact Nat.zero_le n
  | cons s shapes ih =>
    obtain ⟨here, later⟩ := List.forall_mem_cons.mp each
    exact Nat.max_le.mpr ⟨here, ih later⟩

theorem column_eq (shapes : List (List Nat)) {i : Nat} (bound : i < maxRank shapes) :
    column shapes (maxRank shapes) i = shapes.map fun s => backExtent s (maxRank shapes - 1 - i) :=
  List.map_congr_left fun _ mem => getD_padTo (length_le_maxRank mem) bound

theorem mapM_eq_some {f : Nat → Option Nat} {is es : List Nat} :
    is.mapM f = some es ↔ is.map f = es.map some := by
  induction is generalizing es with
  | nil => cases es <;> simp
  | cons i is ih =>
    cases es with
    | nil => simp [Option.bind_eq_some_iff]
    | cons e es => simp [List.mapM_cons, Option.bind_eq_some_iff, ih]

/-- Arrays combine to extents that are common on every axis. -/
theorem broadcast?_eq_some {shapes : List (List Nat)} {r : List Nat} :
    broadcast? shapes = some r ↔ r.length = maxRank shapes ∧
      ∀ j, joinExtents (shapes.map fun s => backExtent s j) = some (backExtent r j) := by
  rw [broadcast?]
  refine mapM_eq_some.trans ⟨fun same => ?_, fun ⟨length, joins⟩ => ?_⟩
  · have length : r.length = maxRank shapes := by simpa using (congrArg List.length same).symm
    refine ⟨length, fun j => ?_⟩
    by_cases beyond : maxRank shapes ≤ j
    · rw [backExtent_beyond (by omega), joinExtents_eq_some]
      refine ⟨fun x mem => .inl ?_, .inl rfl⟩
      obtain ⟨s, inside, rfl⟩ := List.mem_map.mp mem
      have := length_le_maxRank inside
      exact backExtent_beyond (by omega)
    · have place : maxRank shapes - 1 - (maxRank shapes - 1 - j) = j := by omega
      have join := congrArg (·[maxRank shapes - 1 - j]?) same
      have inside : maxRank shapes - 1 - j < maxRank shapes := by omega
      have inside' : maxRank shapes - 1 - j < r.length := by omega
      simp only [List.getElem?_map, List.getElem?_range inside, List.getElem?_eq_getElem inside',
        Option.map_some, Option.some.injEq] at join
      rw [column_eq shapes (by omega), place] at join
      rw [join, ← backExtent_eq, length, place]
  · refine List.ext_getElem (by simp [length]) fun i bound bound' => ?_
    rw [List.length_map, List.length_range] at bound
    rw [List.getElem_map, List.getElem_map, List.getElem_range, column_eq shapes bound, joins,
      ← length, backExtent_eq]

/-- An array without axes leaves the extents of the other one. -/
theorem broadcast?_scalar (s : List Nat) :
    broadcast? [s, []] = some s ∧ broadcast? [[], s] = some s := by
  have beyond (j : Nat) : backExtent [] j = 1 := backExtent_beyond (Nat.zero_le j)
  constructor <;> refine broadcast?_eq_some.mpr ⟨by simp [maxRank], fun j => ?_⟩
  all_goals simp [joinExtents_eq_some, beyond]

/-- Extents absorb those that they have been combined from. -/
theorem broadcast?_absorb {shapes : List (List Nat)} {s t : List Nat}
    (joined : broadcast? shapes = some s) (mem : t ∈ shapes) : broadcast? [s, t] = some s := by
  obtain ⟨length, joins⟩ := broadcast?_eq_some.mp joined
  have fits := length_le_maxRank mem
  refine broadcast?_eq_some.mpr ⟨by simp [maxRank]; omega, fun j => ?_⟩
  have either := (joinExtents_eq_some.mp (joins j)).1 _ (List.mem_map_of_mem mem)
  exact joinExtents_eq_some.mpr ⟨by simpa using either, .inr (by simp)⟩

theorem backExtent_set (s : List Nat) (i j : Nat) :
    backExtent (s.set i 1) j = 1 ∨ backExtent (s.set i 1) j = backExtent s j := by
  by_cases beyond : s.length ≤ j
  · exact .inl (backExtent_beyond (by simpa using beyond))
  · unfold backExtent
    rw [List.getD_eq_getElem?_getD, List.getD_eq_getElem?_getD,
      List.getElem?_reverse (by simp; omega), List.getElem?_reverse (by omega), List.length_set,
      List.getElem?_set]
    split
    · split <;> exact .inl rfl
    · exact .inr rfl

/-- Extents absorb the same ones with extent one on an axis. -/
theorem broadcast?_set (s : List Nat) (i : Nat) : broadcast? [s, s.set i 1] = some s := by
  refine broadcast?_eq_some.mpr ⟨by simp [maxRank], fun j => ?_⟩
  exact joinExtents_eq_some.mpr ⟨by simpa using backExtent_set s i j, .inr (by simp)⟩

theorem Axis.resolve_ofInt {i rank : Nat} (bound : i < rank) :
    (Axis.ofInt i).resolve rank = .ok i := by
  simp [Axis.resolve, Axis.ofInt, Axis.wrap?_ofNat bound]

theorem Axis.resolve_lt {axis : Axis} {rank i : Nat} (resolved : axis.resolve rank = .ok i) :
    i < rank := by
  unfold resolve at resolved
  split at resolved
  · cases resolved
  · split at resolved
    next wrapped =>
      cases resolved
      exact wrap?_lt wrapped
    · cases resolved

theorem Axis.kind_of_resolve {axis : Axis} {rank : Nat} {f : Fault}
    (refused : axis.resolve rank = .error f) : f.kind = .axis := by
  unfold resolve at refused
  split at refused
  · cases refused
    rfl
  · split at refused <;> cases refused
    rfl

namespace Shape

theorem extentBack_pos (s : Shape) (j : Nat) : 0 < s.extentBack j := by
  rw [extentBack, List.getD_eq_getElem?_getD]
  cases found : s.extents.reverse[j]? with
  | none => exact Nat.one_pos
  | some e => exact s.positive e (List.mem_reverse.mp (List.mem_of_getElem? found))

theorem ofInts_eq_ok {extents : List Int} {s : Shape} :
    ofInts extents = .ok s ↔ extents = s.extents.map Int.ofNat := by
  unfold ofInts
  split
  next e found =>
    refine ⟨nofun, fun same => ?_⟩
    obtain ⟨n, mem, rfl⟩ := List.mem_map.mp (same ▸ List.mem_of_find?_eq_some found)
    have small := List.find?_some found
    have positive := s.positive n mem
    simp at small
    omega
  next none =>
    have positive : ∀ e ∈ extents, 0 < e := by
      intro e mem
      have := List.find?_eq_none.mp none e mem
      simp at this
      omega
    constructor
    · intro made
      cases made
      rw [List.map_map]
      refine (List.map_id'' (fun _ => rfl) extents).symm.trans (List.map_congr_left fun e mem => ?_)
      exact (Int.toNat_of_nonneg (Int.le_of_lt (positive e mem))).symm
    · rintro rfl
      congr 1
      cases s
      simp [Function.comp_def]

theorem ofNats_eq_ok {extents : List Nat} {s : Shape} :
    ofNats extents = .ok s ↔ extents = s.extents :=
  ofInts_eq_ok.trans (Function.Injective.list_map fun _ _ => Int.ofNat.inj).eq_iff

/-- Where an extent is replaced, the new one is at least one. -/
theorem set_eq_ok {s t : Shape} {i : Nat} {e : Int} (bound : i < s.rank)
    (made : s.set (.ofInt i) e = .ok t) : t.extents = s.extents.set i e.toNat := by
  rw [set, Axis.resolve_ofInt bound] at made
  have same := congrArg (List.map Int.toNat) (ofInts_eq_ok.mp made)
  rw [List.map_set, List.map_map, List.map_map] at same
  simpa [Function.comp_def] using same.symm

/-- An extent that is at least one can be put in the place of any other. -/
theorem set_ofInt {s : Shape} {i e : Nat} (bound : i < s.rank) (positive : 0 < e) :
    ∃ t : Shape, s.set (.ofInt i) e = .ok t ∧ t.extents = s.extents.set i e := by
  have all : ∀ x ∈ s.extents.set i e, 0 < x := fun x mem =>
    (List.mem_or_eq_of_mem_set mem).elim (s.positive x) fun same => same ▸ positive
  refine ⟨⟨_, all⟩, ?_, rfl⟩
  rw [set, Axis.resolve_ofInt bound]
  exact ofInts_eq_ok.mpr (List.map_set ..).symm

/-- Nodes combine in the extents that their arrays combine to. -/
theorem broadcast_eq_ok {shapes : List Shape} {s : Shape} :
    broadcast shapes = .ok s ↔ broadcast? (shapes.map extents) = some s.extents := by
  unfold broadcast
  dsimp only
  cases joined : broadcast? (shapes.map extents) with
  | none => simp
  | some extents => simp [ofNats_eq_ok]

theorem broadcast_scalar (s : Shape) :
    broadcast [s, scalar] = .ok s ∧ broadcast [scalar, s] = .ok s :=
  ⟨broadcast_eq_ok.mpr (broadcast?_scalar s.extents).1,
    broadcast_eq_ok.mpr (broadcast?_scalar s.extents).2⟩

end Shape

end ReverseMode
