import ReverseMode.Proofs.ArrayTypes
import ReverseMode.Proofs.FloatOrder
import ReverseMode.Proofs.IntegerArithmetic
import ReverseMode.Proofs.Ranking

/-!
The first entries of a ranking.

A ranking is a stable sort by keys, which are the elements or their negations. It lists the entries
of a fibre in order, equal ones by their places, wherever the keys are ordered as the entries are.
The negation of the least integer of a type is that integer, so in a ranking from the largest entry
on the least one comes first.
-/

namespace ReverseMode

open scoped Element Scalar

/-! ### Stored numbers in order -/

namespace Scalar

open Number

/-- The stored numbers of a type that are in order: integers that fit, and floats without those that
are no numbers. -/
inductive Ordered : StorageType → Scalar → Prop
  | int {u : IntegerType} {n : Int} (signed : u.signed = true) (fits : u.fits n = true) :
      Ordered (.int u) (.int u n)
  | float16 {x : Float32} (number : (x == x) = true) : Ordered .float16 (.float16 x)
  | float32 {x : Float32} (number : (x == x) = true) : Ordered .float32 (.float32 x)
  | float64 {x : Float} (number : (x == x) = true) : Ordered .float64 (.float64 x)

/-- The place of a number among those of its type. -/
def standing : Scalar → Int
  | int _ n => n
  | float16 x | float32 x => stepsSingle x
  | float64 x => steps x
  | _ => 0

/-- The least integer of a type that has a sign. -/
def IsLeast : Scalar → Prop
  | int u n => 2 * n = -2 ^ u.width.bits
  | _ => False

variable {t : StorageType} {x y : Scalar}

/-- Integers of one type are compared as they are. -/
theorem compare_int {u : IntegerType} {m n : Int} (first : u.fits m = true)
    (second : u.fits n = true) (onInt : Int → Int → Bool) (onSingle : Float32 → Float32 → Bool)
    (onDouble : Float → Float → Bool) :
    compare onInt onSingle onDouble (.int u m) (.int u n) = onInt m n := by
  have type : common (.int u m) (.int u n) = .int u := StorageType.join_self (.int u)
  rw [compare, type]
  exact congrArg₂ onInt (IntegerType.wrap_of_fits first) (IntegerType.wrap_of_fits second)

/-- Numbers are ordered as their places are. -/
theorem Ordered.lt (first : Ordered t x) (second : Ordered t y) :
    Element.lt x y = decide (x.standing < y.standing) := by
  cases first with
  | int _ fits =>
    cases second with
    | int _ fits' =>
      change Scalar.lt _ _ = _
      rw [Scalar.lt, compare_int fits fits']
      rfl
  | float16 number =>
    cases second with
    | float16 number' => exact decide_eq_decide.mpr (lt_iff_stepsSingle number number')
  | float32 number =>
    cases second with
    | float32 number' => exact decide_eq_decide.mpr (lt_iff_stepsSingle number number')
  | float64 number =>
    cases second with
    | float64 number' => exact decide_eq_decide.mpr (lt_iff_steps number number')

theorem Ordered.eq (first : Ordered t x) (second : Ordered t y) :
    Element.eq x y = decide (x.standing = y.standing) := by
  cases first with
  | int _ fits =>
    cases second with
    | int _ fits' =>
      change Scalar.eq _ _ = _
      rw [Scalar.eq, compare_int fits fits']
      rfl
  | float16 number =>
    cases second with
    | float16 number' =>
      exact Bool.eq_iff_iff.mpr ((beq_iff_stepsSingle number number').trans decide_eq_true_iff.symm)
  | float32 number =>
    cases second with
    | float32 number' =>
      exact Bool.eq_iff_iff.mpr ((beq_iff_stepsSingle number number').trans decide_eq_true_iff.symm)
  | float64 number =>
    cases second with
    | float64 number' =>
      exact Bool.eq_iff_iff.mpr ((beq_iff_steps number number').trans decide_eq_true_iff.symm)

theorem Ordered.isNaN (ordered : Ordered t x) : Tensor.isNaN x = false := by
  rw [Tensor.isNaN, ordered.eq ordered]
  simp

theorem Ordered.refusal? (ordered : Ordered t x) : Element.refusal? x = none := by
  cases ordered <;> rfl

theorem Ordered.store (ordered : Ordered t x) : Element.store t x = x := by
  cases ordered with
  | int _ fits => exact congrArg (Scalar.int _) (IntegerType.wrap_of_fits fits)
  | _ => rfl

theorem fits_neg {u : IntegerType} {n : Int} (signed : u.signed = true) (fits : u.fits n = true) :
    (2 * n = -2 ^ u.width.bits → u.wrap (-n) = n) ∧
      (2 * n ≠ -2 ^ u.width.bits → u.wrap (-n) = -n) := by
  obtain ⟨signed', width⟩ := u
  obtain rfl : signed' = true := signed
  obtain ⟨least, most⟩ := (IntegerType.fits_signed width n).mp fits
  dsimp only
  constructor
  · intro same
    have size : ((Nat.pow 2 width.bits : Nat) : Int) = 2 ^ width.bits := Nat.cast_pow 2 _
    have kept : n.bmod (Nat.pow 2 width.bits) = n := IntegerType.wrap_of_fits fits
    change (-n).bmod (Nat.pow 2 width.bits) = n
    rw [show -n = n + (Nat.pow 2 width.bits : Nat) by omega, Int.add_bmod_right, kept]
  · intro other
    refine IntegerType.wrap_of_fits ((IntegerType.fits_signed width (-n)).mpr ?_)
    constructor <;> omega

theorem Ordered.neg (ordered : Ordered t x) : Ordered t (-x) ∧
    (x.IsLeast → -x = x) ∧ (¬x.IsLeast → (-x).standing = -x.standing) := by
  cases ordered with
  | @int u n signed fits =>
    obtain ⟨least, other⟩ := fits_neg signed fits
    exact ⟨.int signed (u.fits_wrap _), fun same => congrArg (Scalar.int u) (least same), other⟩
  | float16 number =>
    obtain ⟨number', steps⟩ := stepsSingle_neg number
    exact ⟨.float16 number', False.elim, fun _ => steps⟩
  | float32 number =>
    obtain ⟨number', steps⟩ := stepsSingle_neg number
    exact ⟨.float32 number', False.elim, fun _ => steps⟩
  | float64 number =>
    obtain ⟨number', steps⟩ := steps_neg number
    exact ⟨.float64 number', False.elim, fun _ => steps⟩

theorem Ordered.isLeast_of_neg (ordered : Ordered t x) (least : (-x).IsLeast) : x.IsLeast := by
  cases ordered with
  | @int u n signed fits =>
    by_contra other
    have negated := (fits_neg signed fits).2 other
    obtain ⟨signed', width⟩ := u
    obtain rfl : signed' = true := signed
    have bound := ((IntegerType.fits_signed width n).mp fits).2
    have least : 2 * IntegerType.wrap ⟨true, width⟩ (-n) = -2 ^ width.bits := least
    omega
  | _ => exact least

theorem Ordered.standing_least (first : Ordered t x) (least : x.IsLeast) (second : Ordered t y) :
    x.standing ≤ y.standing ∧ (y.standing = x.standing → y.IsLeast) := by
  cases first with
  | @int u n signed fits =>
    cases second with
    | @int _ m _ fits' =>
      obtain ⟨signed', width⟩ := u
      obtain rfl : signed' = true := signed
      have bound := ((IntegerType.fits_signed width m).mp fits').1
      have least : 2 * n = -2 ^ width.bits := least
      refine ⟨show n ≤ m by omega, fun same => ?_⟩
      obtain rfl : m = n := same
      exact least
  | _ => exact absurd least id

/-- One number comes before another one in a ranking: it is larger, or smaller where the ranking
ascends. -/
def outranks (descending : Bool) (x y : Scalar) : Bool :=
  if descending then Element.lt y x else Element.lt x y

/-- A place comes before another one in a ranking: its number does, or it is the first of two places
of equal numbers. -/
def Before (descending : Bool) (f : Nat → Scalar) (i j : Nat) : Prop :=
  outranks descending (f i) (f j) = true ∨ Element.eq (f i) (f j) = true ∧ i < j

/-- The place of the key by which a number is ranked. -/
def keyStanding (descending : Bool) (x : Scalar) : Int :=
  (Fibre.rankingKey descending x).standing

theorem Ordered.key (ordered : Ordered t x) (descending : Bool) :
    Ordered t (Fibre.rankingKey descending x) := by
  cases descending with
  | true => exact ordered.neg.1
  | false => exact ordered

/-- Keys are ordered as the numbers are, but for the least integer. -/
theorem Ordered.outranks {descending : Bool} (first : Ordered t x) (second : Ordered t y)
    (regular : descending = true → ¬x.IsLeast ∧ ¬y.IsLeast) :
    (keyStanding descending x < keyStanding descending y ↔ x.outranks descending y = true) ∧
      (keyStanding descending x = keyStanding descending y ↔ Element.eq x y = true) := by
  rw [first.eq second, decide_eq_true_iff]
  cases descending with
  | true =>
    obtain ⟨left, right⟩ := regular rfl
    have key : keyStanding true x = -x.standing := first.neg.2.2 left
    have key' : keyStanding true y = -y.standing := second.neg.2.2 right
    have larger : x.outranks true y = decide (y.standing < x.standing) := second.lt first
    rw [key, key', larger, decide_eq_true_iff]
    constructor <;> omega
  | false =>
    have smaller : x.outranks false y = decide (x.standing < y.standing) := first.lt second
    rw [smaller, decide_eq_true_iff]
    exact ⟨Iff.rfl, Iff.rfl⟩

end Scalar

/-! ### Fibres -/

section Fibres

open Scalar (Ordered Before keyStanding)

variable {t : StorageType} {f : Nat → Scalar} {n k : Nat} {descending : Bool}

/-- A fibre is ranked by the places of its keys. -/
theorem ranked_ordered (all : ∀ l < n, Ordered t (f l)) (descending : Bool) :
    Ranked (fun l => keyStanding descending (f l))
      (((List.range n).map f).map (Fibre.rankingKey descending)) := by
  intro i hi j hj
  simp only [List.length_map, List.length_range] at hi hj
  have first := (all i hi).key descending
  have second := (all j hj).key descending
  simp only [List.getElem_map, List.getElem_range]
  simp only [Tensor.ranksBefore, first.isNaN, second.isNaN, second.lt first, Bool.false_eq_true,
    if_false, ← decide_not, not_lt]
  rfl

theorem leading_keys (all : ∀ l < n, Ordered t (f l)) (descending : Bool) (enough : k ≤ n) :
    Leading (Precedes fun l => keyStanding descending (f l)) n k
      (Fibre.topPlaces k descending ((List.range n).map f)) := by
  have leading := leading_topPlaces (ranked_ordered all descending) (n := k) (by simpa using enough)
  rwa [List.length_map, List.length_range] at leading

/-- Without the least integer the places that come first hold the largest entries, or the smallest
ones, in order. -/
theorem leading_ordered (all : ∀ l < n, Ordered t (f l)) (enough : k ≤ n)
    (regular : descending = true → ∀ l < n, ¬(f l).IsLeast) :
    Leading (Before descending f) n k
      (Fibre.topPlaces k descending ((List.range n).map f)) := by
  refine (leading_keys all descending enough).imp fun i hi j hj precedes => ?_
  obtain ⟨less, equal⟩ := (all i hi).outranks (all j hj)
    fun down => ⟨regular down i hi, regular down j hj⟩
  rcases precedes with first | ⟨tied, earlier⟩
  · exact .inl (less.mp first)
  · exact .inr ⟨equal.mp tied, earlier⟩

/-- The least integer comes first where the largest entries should. -/
theorem least_first (all : ∀ l < n, Ordered t (f l)) (some : 0 < k) (enough : k ≤ n) {l : Nat}
    (small : l < n) (least : (f l).IsLeast) :
    (f ((Fibre.topPlaces k true ((List.range n).map f)).getD 0 0)).IsLeast := by
  obtain ⟨i, rest, listed, bound, first⟩ := (leading_keys all true enough).head some
  rw [listed, List.getD_cons_zero]
  by_cases here : l = i
  · exact here ▸ least
  have key : keyStanding true (f l) = (f l).standing :=
    congrArg Scalar.standing ((all l small).neg.2.1 least)
  have less : keyStanding true (f i) ≤ (f l).standing := by
    rcases first l small here with lower | ⟨tied, _⟩
    · exact key ▸ lower.le
    · exact key ▸ tied.le
  -- the key of any other integer is above the least one
  obtain ⟨above, same⟩ := (all l small).standing_least least ((all i bound).key true)
  exact (all i bound).isLeast_of_neg (same (less.antisymm above))

end Fibres

/-! ### Arrays -/

namespace Tensor

open Scalar (Ordered Before)

/-- The numbers of an array are stored in one type and in order. -/
def InOrder (t : StorageType) (a : Tensor Scalar) : Prop := ∀ x ∈ a.toList, Ordered t x

variable {t : StorageType} {a : Tensor Scalar} {i k : Nat} {descending : Bool} {p : List Nat}

theorem InOrder.fibre (ordered : a.InOrder t) (inside : p ∈ positions (a.shape.set i 1)) :
    ∀ l < a.extent i, Ordered t (a.get (p.set i l)) := fun _ small =>
  ordered _ (get_mem (ReverseMode.place_mem inside small))

theorem InOrder.keys (ordered : a.InOrder t) (descending : Bool) :
    (a.map (Fibre.rankingKey descending)).Proper := by
  intro x mem
  rw [toList_map] at mem
  obtain ⟨y, inside, rfl⟩ := List.mem_map.mp mem
  exact ((ordered y inside).key descending).refusal?

/-- An array is stored in a buffer of its type as it is. -/
theorem InOrder.assign (ordered : a.InOrder t) : a.assign t a.shape = .ok a := by
  refine (assign_self (fun x mem => (ordered x mem).refusal?) t).trans (congrArg Except.ok ?_)
  exact (map_congr fun x mem => (ordered x mem).store).trans (by simp [Tensor.map])

/-- The places that are chosen of an array put the entries of every fibre in order. -/
structure Selected (descending : Bool) (i k : Nat) (a : Tensor Scalar) (places : Tensor Nat) :
    Prop where
  shape : places.shape = a.shape.set i k
  inside : ∀ q ∈ positions (a.shape.set i k), places.get q < a.extent i
  leading : ∀ p ∈ positions (a.shape.set i 1),
    (descending = true → ∀ l < a.extent i, ¬(a.get (p.set i l)).IsLeast) →
    Leading (Before descending fun l => a.get (p.set i l)) (a.extent i) k (places.fibre i p)
  least : ∀ p ∈ positions (a.shape.set i 1), descending = true → ∀ l < a.extent i,
    (a.get (p.set i l)).IsLeast → (a.get (p.set i (places.get p))).IsLeast

variable (descending) in
theorem InOrder.selected (ordered : a.InOrder t) (axial : i < a.shape.length) (some : 0 < k)
    (enough : k ≤ a.extent i) : Selected descending i k a (a.chosen i k descending) := by
  have leading : ∀ p ∈ positions (a.shape.set i 1), _ := fun p inside =>
    leading_keys (ordered.fibre inside) descending enough
  have listed : ∀ p ∈ positions (a.shape.set i 1), (a.chosen i k descending).fibre i p =
      Fibre.topPlaces k descending (a.fibre i p) := fun p inside =>
    fibre_mapAxisAt axial inside (leading p inside).length
  refine ⟨rfl, fun q inside => (chosen_inside descending axial leading inside).1,
    fun p inside regular => ?_, fun p inside down l small least => ?_⟩
  · rw [listed p inside]
    exact leading_ordered (ordered.fibre inside) enough regular
  · subst down
    have start : p.set i 0 = p := set_start axial inside
    have placed : p ∈ positions (a.shape.set i k) := by
      have placed : p.set i 0 ∈ positions ((a.shape.set i 1).set i k) :=
        set_mem_positions inside some
      rwa [List.set_set, start] at placed
    have length : i < p.length := by
      rw [(mem_positions_getD.mp inside).1, List.length_set]
      exact axial
    have zero : p.getD i 0 = 0 := by rw [← start, getD_set length, if_pos rfl]
    rw [get_chosen placed, start, zero]
    exact least_first (ordered.fibre inside) some enough small least

/-- The entries at the places that are chosen. -/
def picked (a : Tensor Scalar) (i : Nat) (places : Tensor Nat) : Tensor Scalar :=
  .ofFn places.shape fun q => a.get (q.set i (places.get q))

/-- Places as they are stored in 32 bits. -/
def placeNumbers (places : Tensor Nat) : Tensor Scalar :=
  places.map fun (l : Nat) => .int .int32 (IntegerType.int32.wrap l)

theorem InOrder.picked (ordered : a.InOrder t) (axial : i < a.shape.length)
    (enough : k ≤ a.extent i) (descending : Bool) :
    (a.picked i (a.chosen i k descending)).InOrder t := by
  intro x mem
  obtain ⟨q, inside, rfl⟩ := mem_toList_ofFn.mp mem
  exact ordered _ (get_mem (chosen_inside descending axial
    (fun p start => leading_keys (ordered.fibre start) descending enough) inside).2)

/-- Places are kept where the axis is not longer than 32 bits can count. -/
theorem Selected.wrap {places : Tensor Nat} (selected : Selected descending i k a places)
    (short : a.extent i ≤ 2 ^ 31) :
    ∀ q ∈ positions places.shape, IntegerType.int32.wrap (places.get q) = places.get q := by
  intro q inside
  have small := selected.inside q (selected.shape ▸ inside)
  exact IntegerType.wrap_of_fits (IntegerType.fits_int32.mpr (by omega))

theorem assign_places (places : Tensor Nat) :
    (places.map fun (l : Nat) => (Element.whole l : Scalar)).assign (.int .int32) places.shape =
      .ok places.placeNumbers := by
  refine (assign_self ?_ _).trans (congrArg Except.ok (map_map _ _ _))
  intro x mem
  rw [toList_map] at mem
  obtain ⟨l, _, rfl⟩ := List.mem_map.mp mem
  rfl

end Tensor

namespace Operator

variable {t : StorageType} {a : Tensor Scalar} {i k : Nat} {axis : Axis}

/-- A ranking of an array whose numbers are in order gives the entries that are chosen, or their
places. -/
theorem topK_ordered (ordered : a.InOrder t) (resolved : axis.resolve a.rank = .ok i)
    (enough : k ≤ a.extent i) (descending : Bool) :
    (topK k axis descending false).forward t (a.shape.set i k) [a] =
        .ok (a.picked i (a.chosen i k descending)) ∧
      (topK k axis descending true).forward (.int .int32) (a.shape.set i k) [a] =
        .ok (a.chosen i k descending).placeNumbers := by
  have axial : i < a.shape.length := Axis.resolve_lt resolved
  have made := topK_value (ordered.keys descending) resolved (Int.ofNat_le.mpr enough)
  exact ⟨bind_eq_ok.mpr ⟨_, made false _, (ordered.picked axial enough descending).assign⟩,
    bind_eq_ok.mpr ⟨_, made true _, Tensor.assign_places _⟩⟩

theorem topK_infer {a : Signature} (resolved : axis.resolve a.shape.rank = .ok i) (some : 0 < k)
    (enough : k ≤ a.shape.extent i) (descending : Bool) : ∃ shape : Shape,
      shape.extents = a.shape.extents.set i k ∧
      (topK k axis descending false : Operator Scalar).infer [a] = .ok ⟨shape, a.type⟩ ∧
      (topK k axis descending true : Operator Scalar).infer [a] = .ok ⟨shape, .index⟩ := by
  obtain ⟨shape, made, extents⟩ := Shape.set_ofInt (Axis.resolve_lt resolved) some
  have rule (indices : Bool) : (topK k axis descending indices : Operator Scalar).infer [a] =
      .ok ⟨shape, if indices then .index else a.type⟩ := by
    refine bind_eq_ok.mpr ⟨a, rfl, bind_eq_ok.mpr ⟨i, resolved, ?_⟩⟩
    exact throw_unless.mpr ⟨by omega, bind_eq_ok.mpr ⟨shape, made, rfl⟩⟩
  exact ⟨shape, extents, rule false, rule true⟩

end Operator

/-! ### Nodes -/

namespace Node

variable {leaf : Nat → Option (Tensor Scalar)} {n : Node Scalar} {a : Tensor Scalar} {i k : Nat}
  {axis : Axis} {st : Stamp}

theorem denote_topK {y : Tensor Scalar} {indices descending : Bool}
    (value : n.denote leaf = some a) (shape : a.shape = n.shape.extents)
    (extents : st.shape.extents = n.shape.extents.set i k)
    (made : (Operator.topK k axis descending indices).forward st.type.storage (a.shape.set i k)
      [a] = .ok y) :
    (Node.apply st (.topK k axis descending indices) [n]).denote leaf = some y := by
  refine denote_apply_eq_some.mpr ⟨[a], by simp [Yields, value], ?_⟩
  rw [Operator.result, extents, ← shape]
  exact made

end Node

namespace Expression

open Session (Accepts)

variable {s : Session Scalar} {w : World Scalar} {n : Node Scalar} {axis : Axis} {i k : Nat}
  {descending indices : Bool}

/-- A ranking is applied along its axis, which an equal one that is found may write otherwise. -/
theorem answers_topK (accepts : s.Accepts w n) {t : Signature}
    (inferred : (Operator.topK k axis descending indices : Operator Scalar).infer [n.signature] =
      .ok t) : ∃ st axis' s' w', applyOn n (.topK k axis descending indices) [.node n] s =
        .ok (.node (.apply st (.topK k axis' descending indices) [n])) s' ∧
      axis'.resolve = axis.resolve ∧ ⟨st.shape, st.type⟩ = t ∧ s'.Accepts w' n := by
  obtain ⟨st, axis', s', w', ran, resolve, same, kept, _⟩ :=
    applyOn_along [n] rfl (fun _ => by nofun) accepts (by simpa using accepts) inferred
  exact ⟨st, axis', s', w', ran, resolve, same, kept n accepts⟩

/-- A ranking of the entries of a node by the name of its function. -/
def ranked (k : Nat) (axis : Argument Scalar) (descending : Bool) (n : Node Scalar) :
    SessionM Scalar (Argument Scalar) :=
  Expression.call "topk" ⟨[.node n, .int k, axis, .bool descending], []⟩

theorem ranked_eq (k : Nat) (axis : Argument Scalar) (descending : Bool) (n : Node Scalar) :
    ranked k axis descending n = topK (.node n) (.int k) axis (.bool descending) := rfl

/-- The functions of extremes rank for one entry. -/
theorem ranked_one (axis : Argument Scalar) (n : Node Scalar) :
    Expression.call "argmax" ⟨[.node n, axis], []⟩ = ranked 1 axis true n ∧
      Expression.call "argmin" ⟨[.node n, axis], []⟩ = ranked 1 axis false n := by
  rw [ranked_eq, ranked_eq]
  exact ⟨rfl, rfl⟩

/-- Two nodes stand for the entries of a node that come first along an axis and for their places. -/
structure Ranks (descending : Bool) (i k : Nat) (n v p : Node Scalar) : Prop where
  values : v.type = n.type ∧ v.shape.extents = n.shape.extents.set i k
  places : p.type = .index ∧ p.shape.extents = n.shape.extents.set i k
  denote : ∀ leaf a, n.denote leaf = some a → a.shape = n.shape.extents →
    a.InOrder n.type.storage → ∃ places : Tensor Nat, a.Selected descending i k places ∧
      v.denote leaf = some (a.picked i places) ∧ p.denote leaf = some places.placeNumbers ∧
      (a.extent i ≤ 2 ^ 31 →
        ∀ q ∈ positions places.shape, IntegerType.int32.wrap (places.get q) = places.get q)

/-- A node is ranked along any of its axes for any number of its entries. -/
theorem answers_ranked (accepts : s.Accepts w n) (axis : Argument Scalar)
    (resolved : axis.toAxis.resolve n.shape.rank = .ok i) {k : Nat} (descending : Bool)
    (some : 0 < k) (enough : k ≤ n.shape.extent i) : ∃ v p s',
      ranked k axis descending n s = .ok (.tuple [.node v, .node p]) s' ∧
        Ranks descending i k n v p := by
  obtain ⟨shape, extents, inferred, inferred'⟩ :=
    Operator.topK_infer (a := n.signature) resolved some enough descending
  obtain ⟨st, first, s₁, w₁, ran, resolve, same, accepts₁⟩ := answers_topK accepts inferred
  obtain ⟨st', second, s₂, w₂, ran', resolve', same', _⟩ := answers_topK accepts₁ inferred'
  obtain ⟨held, type⟩ := Signature.mk.inj same
  obtain ⟨held', type'⟩ := Signature.mk.inj same'
  have extents₁ : st.shape.extents = n.shape.extents.set i k := held ▸ extents
  have extents₂ : st'.shape.extents = n.shape.extents.set i k := held' ▸ extents
  refine ⟨.apply st (.topK k first descending false) [n],
    .apply st' (.topK k second descending true) [n], s₂, ?_, ⟨type, extents₁⟩, ⟨type', extents₂⟩,
    fun leaf a value is ordered => ?_⟩
  · rw [ranked_eq]
    exact (run_bind ran).trans (run_bind ran')
  · have rank : a.rank = n.shape.rank := congrArg List.length is
    have enough' : k ≤ a.extent i := by rwa [Tensor.extent, is]
    rw [← rank] at resolved
    have axial : i < a.shape.length := Axis.resolve_lt resolved
    have made := (Operator.topK_ordered ordered ((congrFun resolve _).trans resolved) enough'
      descending).1
    have made' := (Operator.topK_ordered ordered ((congrFun resolve' _).trans resolved) enough'
      descending).2
    have selected := ordered.selected descending axial some enough'
    refine ⟨_, selected, ?_, ?_, selected.wrap⟩
    · exact Node.denote_topK value is extents₁ (type.symm ▸ made)
    · exact Node.denote_topK value is extents₂ (type'.symm ▸ made')

/-- The entries that come first along an axis, and their places. They are the largest ones in order,
or the smallest ones, and equal entries are taken by their places. Only where the largest ones of a
fibre with the least integer are asked for, that one comes first. The first entry alone is what the
functions of extremes answer. -/
theorem top_entries (accepts : s.Accepts w n) (axis : Argument Scalar)
    (resolved : axis.toAxis.resolve n.shape.rank = .ok i) :
    (∀ k descending, 0 < k → k ≤ n.shape.extent i → ∃ v p s',
      ranked k axis descending n s = .ok (.tuple [.node v, .node p]) s' ∧
        Ranks descending i k n v p) ∧
    Expression.call "argmax" ⟨[.node n, axis], []⟩ = ranked 1 axis true n ∧
    Expression.call "argmin" ⟨[.node n, axis], []⟩ = ranked 1 axis false n := by
  refine ⟨fun k descending some enough => ?_, ranked_one axis n⟩
  exact answers_ranked accepts axis resolved descending some enough

end Expression

namespace Sample

open Session (onGraph)
open Expression World

theorem trio_extents : ∀ e ∈ [3], 0 < e := by decide

/-- A list of three integers. -/
def trio : Node Scalar :=
  .leaf ⟨0, 0, ⟨[3], trio_extents⟩, .int32, some 0, .ofBool false, none⟩ (.constant 1)

/-- The world in which the list has been built. -/
def lined : World Scalar :=
  let w : World Scalar := start 0 { type := .int32 }
  w.next (.constant trio.shape (.constant 1) (.ok none) none) (.node trio) (w.graph.recorded trio)

/-- The session of that world. -/
def lining : Session Scalar :=
  after ((do
    let serial ← Session.addGraph { type := .int32 }
    onGraph serial (Graph.constant trio.shape (.constant 1) (.ok none) none) :
      SessionM Scalar (Node Scalar)) {})

theorem lining_accepts : lining.Accepts lined trio where
  reachable := .next (.start 0 _) (fun _ inside => nomatch inside) rfl
  inside := by decide +kernel
  graph := rfl
  known := .inr rfl
  used := rfl

/-- The two largest of three integers are ranked. -/
theorem trio_ranked : ∃ v p s',
    ranked 2 (.int 0) true trio lining = .ok (.tuple [.node v, .node p]) s' ∧
      Ranks true 0 2 trio v p :=
  (top_entries lining_accepts (.int 0) rfl).1 2 true (by decide) (by decide)

/-- The least integer of 32 bits, five and seven. -/
def lowest : Tensor Scalar :=
  ⟨[3], #[.int .int32 (-2 ^ 31), .int .int32 5, .int .int32 7], rfl⟩

/-- The least integer is answered for the largest one. -/
theorem least_for_largest : ∃ v p s' y z,
    Expression.call "argmax" ⟨[.node trio, .int 0], []⟩ lining =
        .ok (.tuple [.node v, .node p]) s' ∧
      v.denote (fun _ => some lowest) = some y ∧ y.toList = [.int .int32 (-2 ^ 31)] ∧
      p.denote (fun _ => some lowest) = some z ∧ z.toList = [.int .int32 0] ∧
      Element.lt (Scalar.int .int32 (-2 ^ 31)) (.int .int32 7) = true := by
  obtain ⟨v, p, s', ran, ranks⟩ := answers_ranked lining_accepts (.int 0) (i := 0) rfl true
    Nat.one_pos (by decide)
  have ordered : lowest.InOrder (.int .int32) := by
    intro x mem
    have mem : x ∈ [Scalar.int .int32 (-2 ^ 31), .int .int32 5, .int .int32 7] := mem
    simp only [List.mem_cons, List.not_mem_nil, or_false] at mem
    rcases mem with rfl | rfl | rfl <;> exact .int rfl (by decide)
  obtain ⟨places, selected, values, numbers, -⟩ :=
    ranks.denote (fun _ => some lowest) lowest (by rw [trio, Node.denote]) rfl ordered
  have small : places.get [0] < 3 := selected.inside [0] (by decide)
  have first : (lowest.get [places.get [0]]).IsLeast :=
    selected.least [0] (by decide) rfl 0 (by decide) (show (2 * -2 ^ 31 : Int) = -2 ^ 32 by decide)
  have zero : places.get [0] = 0 := by
    generalize places.get [0] = l at small first
    obtain rfl | rfl | rfl : l = 0 ∨ l = 1 ∨ l = 2 := by omega
    · rfl
    · exact absurd first (show ¬(2 * 5 : Int) = -2 ^ 32 by decide)
    · exact absurd first (show ¬(2 * 7 : Int) = -2 ^ 32 by decide)
  refine ⟨v, p, s', _, _, (congrFun (ranked_one _ _).1 _).trans ran, values, ?_, numbers, ?_, ?_⟩
  · have listed : (lowest.picked 0 places).toList = [lowest.get [places.get [0]]] := by
      rw [Tensor.picked, selected.shape]
      rfl
    rw [listed, zero]
    rfl
  · have listed : places.toList = [places.get [0]] := by
      rw [← Tensor.ofFn_get places, selected.shape]
      rfl
    rw [Tensor.placeNumbers, Tensor.toList_map, listed, zero]
    rfl
  · decide +kernel

end Sample

end ReverseMode
