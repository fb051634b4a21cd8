import Mathlib.Data.List.Nodup
import Mathlib.Order.Basic
import ReverseMode.Operator.Value
import ReverseMode.Proofs.Assignment
import ReverseMode.Proofs.Fibres
import ReverseMode.Proofs.Rules

/-!
Places of a list in ranking order.

A list is ranked by a stable sort of its places. Where its elements are ordered as ranks in a linear
order are, a place comes before all places of higher rank, and before the later ones of its own. So
the ranking depends on the ranks alone, and the places that come first in it are those that no other
place comes before.
-/

namespace ReverseMode

/-! ### Places in the order of their ranks -/

section Places

variable {K : Type} [LinearOrder K] {rank rank' : Nat → K} {n k i j : Nat}

/-- A place comes before another one if its rank is lower, or if it is the first of two places of
one rank. -/
def Precedes (rank : Nat → K) (i j : Nat) : Prop := rank i < rank j ∨ rank i = rank j ∧ i < j

/-- The first `n` places in the order of their ranks. -/
def ranking (rank : Nat → K) (n : Nat) : List Nat :=
  (List.range n).mergeSort fun i j => decide (rank i ≤ rank j)

theorem ranking_perm (rank : Nat → K) (n : Nat) : (ranking rank n).Perm (List.range n) :=
  List.mergeSort_perm _ _

theorem nodup_ranking (rank : Nat → K) (n : Nat) : (ranking rank n).Nodup :=
  (ranking_perm rank n).nodup_iff.mpr List.nodup_range

theorem mem_ranking : i ∈ ranking rank n ↔ i < n :=
  (ranking_perm rank n).mem_iff.trans List.mem_range

theorem length_ranking (rank : Nat → K) (n : Nat) : (ranking rank n).length = n :=
  (ranking_perm rank n).length_eq.trans List.length_range

/-- Only comparisons of ranks count. -/
theorem ranking_congr (same : ∀ i j, rank i ≤ rank j ↔ rank' i ≤ rank' j) (n : Nat) :
    ranking rank n = ranking rank' n := by
  unfold ranking
  simp only [same]

theorem pair_sublist_range (less : i < j) (bound : j < n) : [i, j].Sublist (List.range n) := by
  have front : [i].Sublist (List.range j) := List.singleton_sublist.mpr (List.mem_range.mpr less)
  have pair : [i, j].Sublist (List.range (j + 1)) := by
    rw [List.range_succ]
    exact front.append (.refl [j])
  exact pair.trans (List.range_sublist.mpr bound)

/-- Elements that do not repeat stand in one order. -/
theorem not_pair_sublist {β : Type} {l : List β} {a b : β} (nodup : l.Nodup)
    (pair : [a, b].Sublist l) : ¬[b, a].Sublist l := by
  induction l with
  | nil => exact fun reversed => nomatch reversed
  | cons x l ih =>
    obtain ⟨fresh, nodup⟩ := List.nodup_cons.mp nodup
    intro reversed
    cases pair with
    | cons _ pair =>
      cases reversed with
      | cons _ reversed => exact ih nodup pair reversed
      | cons_cons _ _ => exact fresh (pair.subset (by simp))
    | cons_cons _ second =>
      cases reversed with
      | cons _ reversed => exact fresh (reversed.subset (by simp))
      | cons_cons _ _ => exact fresh (second.subset (by simp))

/-- A stable sort lists a place after those that come before it. -/
theorem pairwise_ranking (rank : Nat → K) (n : Nat) :
    (ranking rank n).Pairwise (Precedes rank) := by
  have transitive : ∀ a b c : Nat, decide (rank a ≤ rank b) = true →
      decide (rank b ≤ rank c) = true → decide (rank a ≤ rank c) = true := by
    simp only [decide_eq_true_eq]
    exact fun a b c => le_trans
  have total : ∀ a b : Nat, (decide (rank a ≤ rank b) || decide (rank b ≤ rank a)) = true := by
    simp only [Bool.or_eq_true, decide_eq_true_eq]
    exact fun a b => le_total _ _
  have sorted := List.pairwise_mergeSort transitive total (List.range n)
  rw [List.pairwise_iff_forall_sublist] at sorted ⊢
  intro i j pair
  have ordered : rank i ≤ rank j := of_decide_eq_true (sorted pair)
  rcases ordered.lt_or_eq with lower | tied
  · exact .inl lower
  · refine .inr ⟨tied, ?_⟩
    by_contra later
    have bound : i < n := mem_ranking.mp (pair.subset (by simp))
    have differ : i ≠ j := by
      rintro rfl
      have twice : [i, i].Nodup := pair.nodup (nodup_ranking rank n)
      simp at twice
    have reversed := List.pair_sublist_mergeSort transitive total
      (decide_eq_true tied.ge) (pair_sublist_range (i := j) (j := i) (by omega) bound)
    exact not_pair_sublist (nodup_ranking rank n) pair reversed

/-- The `k` first of `n` places: each of them comes before the next ones and before all others. -/
structure Leading (before : Nat → Nat → Prop) (n k : Nat) (places : List Nat) : Prop where
  length : places.length = k
  nodup : places.Nodup
  inside : ∀ i ∈ places, i < n
  sorted : places.Pairwise before
  rest : ∀ i ∈ places, ∀ j < n, j ∉ places → before i j

theorem Leading.imp {before before' : Nat → Nat → Prop} {places : List Nat}
    (leading : Leading before n k places) (imp : ∀ i < n, ∀ j < n, before i j → before' i j) :
    Leading before' n k places where
  length := leading.length
  nodup := leading.nodup
  inside := leading.inside
  sorted := leading.sorted.imp_of_mem fun {i j} mem mem' =>
    imp i (leading.inside i mem) j (leading.inside j mem')
  rest i mem j less other := imp i (leading.inside i mem) j less (leading.rest i mem j less other)

/-- The first place comes before all others. -/
theorem Leading.head {before : Nat → Nat → Prop} {places : List Nat}
    (leading : Leading before n k places) (some : 0 < k) :
    ∃ i rest, places = i :: rest ∧ i < n ∧ ∀ j < n, j ≠ i → before i j := by
  cases places with
  | nil => exact absurd leading.length some.ne
  | cons i rest =>
    refine ⟨i, rest, rfl, leading.inside i List.mem_cons_self, fun j less other => ?_⟩
    by_cases listed : j ∈ rest
    · exact List.rel_of_pairwise_cons leading.sorted listed
    · exact leading.rest i List.mem_cons_self j less fun mem =>
        (List.mem_cons.mp mem).elim other listed

theorem leading_take (rank : Nat → K) (enough : k ≤ n) :
    Leading (Precedes rank) n k ((ranking rank n).take k) := by
  obtain ⟨first, _, across⟩ := List.pairwise_append.mp
    ((List.take_append_drop k (ranking rank n)).symm ▸ pairwise_ranking rank n)
  constructor
  · rw [List.length_take, length_ranking, Nat.min_eq_left enough]
  · exact (List.take_sublist k _).nodup (nodup_ranking rank n)
  · exact fun i mem => mem_ranking.mp (List.mem_of_mem_take mem)
  · exact first
  · intro i mem j bound other
    refine across i mem j ?_
    have listed : j ∈ (ranking rank n).take k ++ (ranking rank n).drop k := by
      rw [List.take_append_drop]
      exact mem_ranking.mpr bound
    exact (List.mem_append.mp listed).resolve_left other

end Places

/-! ### Lists in ranking order -/

section Lists

variable {α K : Type} [Element α] [LinearOrder K] {rank : Nat → K} {xs : List α}

/-- The elements of a list are ordered as the ranks of their places are. -/
def Ranked (rank : Nat → K) (xs : List α) : Prop :=
  ∀ i (hi : i < xs.length) j (hj : j < xs.length),
    Tensor.ranksBefore xs[i] xs[j] = decide (rank i ≤ rank j)

theorem Ranked.congr {rank' : Nat → K} (ranked : Ranked rank xs)
    (same : ∀ i < xs.length, rank i = rank' i) : Ranked rank' xs := by
  intro i hi j hj
  rw [ranked i hi j hj, same i hi, same j hj]

theorem order_eq (ranked : Ranked rank xs) : Tensor.order xs = ranking rank xs.length := by
  have places : xs.zipIdx.map Prod.snd = List.range xs.length := by
    rw [List.zipIdx_map_snd, List.range_eq_range']
  rw [Tensor.order, ranking, ← places]
  refine List.map_mergeSort fun p mem q mem' => ?_
  obtain ⟨small, element⟩ := List.mem_zipIdx' mem
  obtain ⟨small', element'⟩ := List.mem_zipIdx' mem'
  rw [element, element']
  exact ranked _ small _ small'

/-- The places of the elements that are ranked first. -/
theorem topPlaces_eq {descending : Bool}
    (ranked : Ranked rank (xs.map (Fibre.rankingKey descending))) (k : Nat) :
    Fibre.topPlaces k descending xs = (ranking rank xs.length).take k := by
  rw [Fibre.topPlaces, order_eq ranked, List.length_map]

/-- The first places of a list are those that no other place comes before. -/
theorem leading_topPlaces {descending : Bool} {n : Nat}
    (ranked : Ranked rank (xs.map (Fibre.rankingKey descending))) (enough : n ≤ xs.length) :
    Leading (Precedes rank) xs.length n (Fibre.topPlaces n descending xs) := by
  rw [topPlaces_eq ranked]
  exact leading_take rank enough

end Lists

/-! ### Arrays in ranking order -/

namespace Tensor

open scoped Element

variable {α : Type} [Element α]

/-- The first `n` places of every fibre of an array, in ranking order. -/
def chosen (a : Tensor α) (i n : Nat) (descending : Bool) : Tensor Nat :=
  a.mapAxis i n (Fibre.topPlaces n descending)

@[simp] theorem shape_chosen (a : Tensor α) (i n : Nat) (descending : Bool) :
    (a.chosen i n descending).shape = a.shape.set i n := rfl

theorem get_chosen {a : Tensor α} {i n : Nat} {descending : Bool} {q : List Nat}
    (inside : q ∈ positions (a.shape.set i n)) : (a.chosen i n descending).get q =
      (Fibre.topPlaces n descending (a.fibre i (q.set i 0))).getD (q.getD i 0) 0 :=
  get_mapAxisAt inside

/-- A place that is chosen comes from the ranking of its fibre. -/
theorem chosen_listed {a : Tensor α} {i n : Nat} {descending : Bool} (axial : i < a.shape.length)
    (length : ∀ p ∈ positions (a.shape.set i 1),
      (Fibre.topPlaces n descending (a.fibre i p)).length = n)
    {q : List Nat} (inside : q ∈ positions (a.shape.set i n)) :
    q.set i 0 ∈ positions (a.shape.set i 1) ∧
      (a.chosen i n descending).get q ∈ Fibre.topPlaces n descending (a.fibre i (q.set i 0)) := by
  have start : q.set i 0 ∈ positions (a.shape.set i 1) := by
    have start := start_mem (i := i) inside
    rwa [List.set_set] at start
  have small : q.getD i 0 < n := getD_lt_of_set axial inside
  refine ⟨start, ?_⟩
  rw [get_chosen inside, List.getD_eq_getElem?_getD,
    List.getElem?_eq_getElem ((length _ start).symm ▸ small), Option.getD_some]
  exact List.getElem_mem _

/-- The places that are chosen are places of the array. -/
theorem chosen_inside {a : Tensor α} {i n : Nat} (descending : Bool)
    {before : List Nat → Nat → Nat → Prop} (axial : i < a.shape.length)
    (leading : ∀ p ∈ positions (a.shape.set i 1),
      Leading (before p) (a.extent i) n (Fibre.topPlaces n descending (a.fibre i p)))
    {q : List Nat} (inside : q ∈ positions (a.shape.set i n)) :
    (a.chosen i n descending).get q < a.extent i ∧
      q.set i ((a.chosen i n descending).get q) ∈ positions a.shape := by
  obtain ⟨start, listed⟩ := chosen_listed axial (fun p mem => (leading p mem).length) inside
  have small := (leading _ start).inside _ listed
  have placed := place_mem start small
  rw [List.set_set] at placed
  exact ⟨small, placed⟩

end Tensor

namespace Operator

open Tensor (chosen)

variable {α : Type} [Element α] {a : Tensor α} {k : Int} {axis : Axis} {descending : Bool}
  {i : Nat} {sa s : Signature} {indices : Bool}

omit [Element α] in
/-- Where a ranking is inferred, its axis is one of the input, and `k` places of it are left. -/
theorem topK_extents (inferred : (topK k axis descending indices : Operator α).infer [sa] = .ok s)
    (shape : a.shape = sa.shape.extents) : ∃ i, axis.resolve a.rank = .ok i ∧
      i < a.shape.length ∧ k ≤ a.extent i ∧ s.shape.extents = a.shape.set i k.toNat := by
  obtain ⟨_, given, inferred⟩ := bind_eq_ok.mp inferred
  cases given
  obtain ⟨i, resolved, enough, extents⟩ := topKRule_eq_ok inferred
  have extent : a.extent i = sa.shape.extent i := by rw [Tensor.extent, shape, Shape.extent]
  rw [Shape.rank, ← shape] at resolved
  rw [← shape] at extents
  exact ⟨i, resolved, Axis.resolve_lt resolved, extent ▸ enough, extents⟩

variable (keys : (a.map (Fibre.rankingKey descending)).Proper)
  (resolved : axis.resolve a.rank = .ok i) (enough : k ≤ a.extent i)

include keys resolved enough

/-- Where no key is refused, the places of every fibre are ranked. -/
theorem topPlaces_chosen :
    topPlaces k axis descending a = .ok (a.chosen i k.toNat descending) := by
  refine bind_eq_ok.mpr ⟨i, resolved, bind_eq_ok.mpr ⟨_, Tensor.sound_eq_ok.mpr ⟨rfl, keys⟩, ?_⟩⟩
  exact throw_unless.mpr ⟨by omega, rfl⟩

theorem topK_value (indices : Bool) (rank : Nat) :
    (topK k axis descending indices).value rank [a] =
      .ok (topKValue.ofPlaces indices a i (a.chosen i k.toNat descending)) := by
  have found := topPlaces_chosen keys resolved enough
  exact bind_eq_ok.mpr ⟨a, rfl, bind_eq_ok.mpr ⟨i, resolved, bind_eq_ok.mpr ⟨_, found, rfl⟩⟩⟩

end Operator

end ReverseMode
