import ReverseMode.Proofs.ArithmeticDerivatives
import ReverseMode.Proofs.RealElements
import ReverseMode.Proofs.ReductionDerivatives
import ReverseMode.Proofs.ScalarProduct

/-!
What selections pass on.

Operators that select elements of their inputs commute with adding one number to all of these. So
the amounts that they add to the gradients of their inputs should make up the gradient that they
are given, also where elements are tied. Where one of two inputs is selected, the second one is
given what the first one is not, and the first entries of a ranking are distinct places. The largest
or smallest element of a fibre however is passed on to every place where it stands, so what is added
is as many times the gradient as there are such places.
-/

namespace ReverseMode

open scoped Element

namespace Element.Reading

open Tensor

variable {α R : Type} [Element α] [CommRing R] {type : StorageType}
variable (ρ : Element.Reading α R type)

/-- An array to all elements of which a number has been added. -/
structure Shifted (c : R) (t u : Tensor α) : Prop where
  shape : u.shape = t.shape
  holds : ρ.Holds u
  entry : ∀ p ∈ positions t.shape, ρ.entry u p = ρ.entry t p + c

/-- Where one number is added to all elements of all inputs, it is added to those of the result. -/
def Shifts (op : Operator α) (shape : List Nat) (ts : List (Tensor α)) (y : Tensor α) : Prop :=
  ∀ (c : R) (us : List (Tensor α)), List.Forall₂ (ρ.Shifted c) ts us →
    ∃ z, op.forward type shape us = .ok z ∧ ρ.Shifted c y z

/-- An operator that selects elements of its inputs, and the amounts that its backward step adds to
their gradients. -/
structure Selects (op : Operator α) (shape : List Nat) (ts : List (Tensor α)) (g y : Tensor α)
    (amount : Fin ts.length → List Nat → R) : Prop where
  forward : op.forward type shape ts = .ok y
  extents : y.shape = shape
  shifts : ρ.Shifts op shape ts y
  backward : ∃ c : Fin ts.length → Contribution α,
    (∀ wanted, op.contributions ts y g wanted =
      List.ofFn fun i => ((i : Nat), Except.ok (c i))) ∧
    ∀ i, ρ.Adds (c i) (ts.get i).shape (amount i)

variable {ρ} {c : R} {t u y : Tensor α}

theorem Shifted.extent (shifted : ρ.Shifted c t u) (i : Nat) : u.extent i = t.extent i := by
  rw [Tensor.extent, Tensor.extent, shifted.shape]

theorem Shifted.resolve (shifted : ρ.Shifted c t u) {axis : Axis} {i : Nat}
    (resolved : axis.resolve t.rank = .ok i) : axis.resolve u.rank = .ok i := by
  rwa [Tensor.rank, shifted.shape]

/-- The number is added to the only input. -/
theorem shifts_one {op : Operator α} {shape : List Nat}
    (moves : ∀ c u, ρ.Shifted c t u →
      ∃ z, op.forward type shape [u] = .ok z ∧ ρ.Shifted c y z) : ρ.Shifts op shape [t] y := by
  intro c us shifted
  obtain ⟨u, none, first, last, rfl⟩ := List.forall₂_cons_left_iff.mp shifted
  obtain rfl := List.forall₂_nil_left_iff.mp last
  exact moves c u first

end Element.Reading

/-! ### One of two inputs -/

/-- The operators that select one of two elements. -/
def Joint.IsSelection (f : Joint) : Prop := f = maximum ∨ f = minimum

theorem Joint.IsSelection.reads {f : Joint} (selection : f.IsSelection) :
    f.arity? = some 2 ∧ f.readsOutput = false := by
  rcases selection with rfl | rfl <;> exact ⟨rfl, rfl⟩

namespace Element.Reading

section Pair

variable {α R : Type} [Element α] [CommRing R] [LinearOrder R] [IsOrderedRing R]
variable {type : StorageType} {ρ : Element.Reading α R type} {f : Joint} {x y u v g : α}

omit [IsOrderedRing R] in
/-- What the first element is not given, the second one is. -/
theorem selection_shares (compares : ρ.Compares) (selection : f.IsSelection) (first : ρ.carrier x)
    (second : ρ.carrier y) (gradient : ρ.carrier g) : ρ.carrier (f.value [x, y]) ∧
      ρ.carrier (f.gradientAt 0 g x y) ∧ ρ.carrier (f.gradientAt 1 g x y) ∧
      ρ.val (f.gradientAt 0 g x y) + ρ.val (f.gradientAt 1 g x y) = ρ.val g := by
  have shares (left : Bool) : ρ.carrier (g * Element.mask left) ∧
      ρ.carrier (g * Element.mask (!left)) ∧
      ρ.val (g * Element.mask left) + ρ.val (g * Element.mask (!left)) = ρ.val g := by
    obtain ⟨one, value⟩ := compares.mask left gradient
    obtain ⟨other, value'⟩ := compares.mask (!left) gradient
    refine ⟨one, other, ?_⟩
    rw [value, value']
    cases left with
    | true => exact add_zero _
    | false => exact zero_add _
  rcases selection with rfl | rfl
  · exact ⟨(compares.max first second).1, shares _⟩
  · exact ⟨(compares.min first second).1, shares _⟩

theorem selection_shift (compares : ρ.Compares) (selection : f.IsSelection) {c : R}
    (carried : ρ.carrier x ∧ ρ.carrier y ∧ ρ.carrier u ∧ ρ.carrier v)
    (first : ρ.val u = ρ.val x + c) (second : ρ.val v = ρ.val y + c) :
    ρ.carrier (f.value [u, v]) ∧ ρ.val (f.value [u, v]) = ρ.val (f.value [x, y]) + c := by
  obtain ⟨hx, hy, hu, hv⟩ := carried
  rcases selection with rfl | rfl
  · obtain ⟨kept, value⟩ := compares.max hu hv
    refine ⟨kept, ?_⟩
    change ρ.val (Element.max u v) = ρ.val (Element.max x y) + c
    rw [value, (compares.max hx hy).2, first, second, max_add_add_right]
  · obtain ⟨kept, value⟩ := compares.min hu hv
    refine ⟨kept, ?_⟩
    change ρ.val (Element.min u v) = ρ.val (Element.min x y) + c
    rw [value, (compares.min hx hy).2, first, second, min_add_add_right]

end Pair

end Element.Reading

namespace Operator

open Tensor Element.Reading

section Totals

variable {α R : Type} [Element α] [CommRing R] [LinearOrder R] [IsOrderedRing R]
variable {type : StorageType} {ρ : Element.Reading α R type} {a b g : Tensor α}
variable {sa sb s : Signature}

omit [LinearOrder R] [IsOrderedRing R] in
/-- Summed back over what it is repeated along, a gradient has the same total. -/
theorem sum_amounts {shape r : List Nat} (fits : Fits shape r) (h : List Nat → R) :
    ∑ p ∈ places shape, ∑ q ∈ places r with Tensor.clamp shape q = p, h q =
      ∑ q ∈ places r, h q := by
  refine Finset.sum_fiberwise_of_maps_to (fun q mem => ?_) h
  exact mem_places.mpr (Tensor.clamp_mem fits.broadcast (by simp) (mem_places.mp mem))

theorem joint_shifts (compares : ρ.Compares) {f : Joint} (selection : f.IsSelection) {r : List Nat}
    (joined : broadcast? [a.shape, b.shape] = some r) (left : ρ.Holds a) (right : ρ.Holds b)
    {y : Tensor α} (ran : (joint f).forward type r [a, b] = .ok y) :
    ρ.Shifts (joint f) r [a, b] y := by
  intro c us shifted
  obtain ⟨u, rest, first, others, rfl⟩ := List.forall₂_cons_left_iff.mp shifted
  obtain ⟨v, none, second, last, rfl⟩ := List.forall₂_cons_left_iff.mp others
  obtain rfl := List.forall₂_nil_left_iff.mp last
  have arity := selection.reads.1
  have fits : Fits a.shape r := .of_broadcast joined (by simp)
  have fits' : Fits b.shape r := .of_broadcast joined (by simp)
  have moved : ∀ q ∈ positions r, (ρ.carrier (f.value [a.read q, b.read q])) ∧
      ρ.carrier (f.value [u.read q, v.read q]) ∧
      ρ.val (f.value [u.read q, v.read q]) = ρ.val (f.value [a.read q, b.read q]) + c := by
    intro q inside
    have here : Tensor.clamp a.shape q ∈ positions a.shape :=
      Tensor.clamp_mem fits.broadcast (by simp) inside
    have there : Tensor.clamp b.shape q ∈ positions b.shape :=
      Tensor.clamp_mem fits'.broadcast (by simp) inside
    have same : ρ.val (u.read q) = ρ.val (a.read q) + c := by
      rw [Tensor.read, first.shape]
      exact first.entry _ here
    have same' : ρ.val (v.read q) = ρ.val (b.read q) + c := by
      rw [Tensor.read, second.shape]
      exact second.entry _ there
    have carried : ρ.carrier (u.read q) := first.holds _ (first.shape ▸ here)
    have carried' : ρ.carrier (v.read q) := second.holds _ (second.shape ▸ there)
    exact ⟨(selection_shares compares selection (left _ here) (right _ there) carried).1,
      selection_shift compares selection ⟨left _ here, right _ there, carried, carried'⟩ same same'⟩
  have held : ρ.Holds (.ofFn r fun q => f.value [a.read q, b.read q]) :=
    holds_ofFn fun q inside => (moved q inside).1
  have held' : ρ.Holds (.ofFn r fun q => f.value [u.read q, v.read q]) :=
    holds_ofFn fun q inside => (moved q inside).2.1
  obtain ⟨z, stored, extents, -, entries⟩ := held.assign
  obtain ⟨z', stored', extents', holds, entries'⟩ := held'.assign
  obtain ⟨_, made, ran⟩ := bind_eq_ok.mp ran
  cases (joint_value arity joined).symm.trans made
  obtain rfl := Except.ok.inj (stored.symm.trans ran)
  have joined' : broadcast? [u.shape, v.shape] = some r := by rw [first.shape, second.shape, joined]
  refine ⟨z', bind_eq_ok.mpr ⟨_, joint_value arity joined', stored'⟩, extents'.trans extents.symm,
    holds, fun q inside => ?_⟩
  have inside : q ∈ positions r := (show z.shape = r from extents) ▸ inside
  rw [entries' q inside, entry_ofFn inside, (moved q inside).2.2, entries q inside,
    entry_ofFn inside]

/-- Of two inputs that broadcast, what one is not given the other one is. -/
theorem joint_selects (compares : ρ.Compares) {f : Joint} (selection : f.IsSelection)
    (inferred : (joint f : Operator α).infer [sa, sb] = .ok s)
    (shapes : a.shape = sa.shape.extents ∧ b.shape = sb.shape.extents ∧ g.shape = s.shape.extents)
    (left : ρ.Holds a) (right : ρ.Holds b) (gradient : ρ.Holds g) :
    ∃ y amount, ρ.Selects (joint f) s.shape.extents [a, b] g y amount ∧
      ∑ i, ∑ p ∈ places [a, b][i].shape, amount i p =
        ∑ q ∈ places s.shape.extents, ρ.entry g q := by
  obtain ⟨extents, extents', one⟩ := shapes
  have joined : broadcast? [a.shape, b.shape] = some s.shape.extents := by
    rw [extents, extents']
    exact jointRule_eq_ok inferred
  have positive := s.shape.positive
  generalize s.shape.extents = r at joined one positive
  obtain ⟨arity, unread⟩ := selection.reads
  have fits : Fits a.shape r := .of_broadcast joined (by simp)
  have fits' : Fits b.shape r := .of_broadcast joined (by simp)
  have each : ∀ q ∈ positions r, _ := fun q inside =>
    selection_shares compares selection
      (left _ (Tensor.clamp_mem fits.broadcast (by simp) inside))
      (right _ (Tensor.clamp_mem fits'.broadcast (by simp) inside)) (gradient q (one ▸ inside))
  have held : ρ.Holds (.ofFn r fun q => f.value [a.read q, b.read q]) :=
    holds_ofFn fun q inside => (each q inside).1
  obtain ⟨y, stored, same, -, -⟩ := held.assign
  have ran : (joint f).forward type r [a, b] = .ok y :=
    bind_eq_ok.mpr ⟨_, joint_value arity joined, stored⟩
  let c (i : Fin 2) : Tensor α := .ofFn r fun q => f.gradientAt i (g.get q) (a.read q) (b.read q)
  have given : ∀ i, ρ.Holds (c i) := Fin.forall_fin_two.mpr
    ⟨holds_ofFn fun q inside => (each q inside).2.1,
      holds_ofFn fun q inside => (each q inside).2.2.1⟩
  refine ⟨y, fun i p => ∑ q ∈ places r with Tensor.clamp [a, b][i].shape q = p, ρ.entry (c i) q,
    ⟨ran, same, joint_shifts compares selection joined left right ran, fun i => .dense (c i),
      fun wanted => ?_, ?_⟩, ?_⟩
  · have opened : (joint f).contributions [a, b] y g wanted =
        [(0, asDense (jointGradient f [a, b] y g 0)),
          (1, asDense (jointGradient f [a, b] y g 1))] := by
      rcases selection with rfl | rfl <;> rfl
    rw [opened, (given 0).asDense (jointGradient_eq unread one fits fits' y 0),
      (given 1).asDense (jointGradient_eq unread one fits fits' y 1)]
    rfl
  · exact Fin.forall_fin_two.mpr
      ⟨adds_dense (given 0) positive fits, adds_dense (given 1) positive fits'⟩
  · have totals := congrArg₂ (· + ·) (sum_amounts fits (ρ.entry (c 0)))
      (sum_amounts fits' (ρ.entry (c 1)))
    refine (Fin.sum_univ_two _).trans (totals.trans ?_)
    rw [← Finset.sum_add_distrib]
    refine Finset.sum_congr rfl fun q mem => ?_
    have inside := mem_places.mp mem
    rw [entry_ofFn inside, entry_ofFn inside]
    exact (each q inside).2.2.2

/-! ### The extreme of a fibre -/

omit [LinearOrder R] [IsOrderedRing R] [CommRing R] in
/-- The gradient is looked up where an element is equal to what is left of its fibre. -/
theorem reduceGradient_extreme {r : Reduction} (extreme : r.IsExtreme) {axis : Axis} {i : Nat}
    (resolved : axis.resolve a.rank = .ok i) {y : Tensor α} (left : y.shape = a.shape.set i 1)
    (one : g.shape = a.shape.set i 1) : reduceGradient r axis a y g = .ok (.ofFn a.shape fun q =>
      g.get (q.set i 0) * Element.mask (Element.eq (a.get q) (y.get (q.set i 0)))) := by
  have axial : i < a.shape.length := Axis.resolve_lt resolved
  obtain ⟨masks, made⟩ : ∃ masks : Tensor α, masks = .ofFn a.shape fun q =>
      Element.mask (Element.eq (a.get q) (y.get (q.set i 0))) := ⟨_, rfl⟩
  have compared : a.combine (fun x y => (Element.mask (Element.eq x y) : α)) y = .ok masks := by
    rw [made]
    exact combine_set_right axial left _
  have shape : masks.shape = a.shape := by rw [made]; rfl
  have product : g.combine (· * ·) masks = .ok (.ofFn a.shape fun q =>
      g.get (q.set i 0) * Element.mask (Element.eq (a.get q) (y.get (q.set i 0)))) := by
    rw [combine_set (shape.symm ▸ axial) (shape.symm ▸ one), shape]
    refine congrArg Except.ok (ext_get rfl fun q inside => ?_)
    have inside : q ∈ positions a.shape := inside
    rw [get_ofFn inside, get_ofFn inside, made, get_ofFn inside]
  rcases extreme with rfl | rfl <;>
    exact bind_eq_ok.mpr ⟨i, resolved, bind_eq_ok.mpr ⟨masks, compared, product⟩⟩

/-- What is left of every fibre bounds its elements and is one of them. -/
structure Extremes (ρ : Element.Reading α R type) (r : Reduction) (i : Nat) (a y : Tensor α) :
    Prop where
  shape : y.shape = a.shape.set i 1
  holds : ρ.Holds y
  bounds : ∀ p ∈ positions (a.shape.set i 1), ∀ k < a.extent i,
    r.Bounds (ρ.entry y p) (ρ.entry a (p.set i k))
  attained : ∀ p ∈ positions (a.shape.set i 1), ∃ k < a.extent i,
    ρ.entry a (p.set i k) = ρ.entry y p

omit [IsOrderedRing R] in
theorem extreme_forward (compares : ρ.Compares) {r : Reduction} (extreme : r.IsExtreme)
    {axis : Axis} {i : Nat} (resolved : axis.resolve a.rank = .ok i) (some : 0 < a.extent i)
    (holds : ρ.Holds a) :
    ∃ y, (reduce r axis).forward type (a.shape.set i 1) [a] = .ok y ∧ Extremes ρ r i a y := by
  have left : ∀ p ∈ positions (a.shape.set i 1), _ := fun p inside =>
    extreme_range compares extreme some (fun k small => holds.fibre inside small)
      (Tensor.dense a.shape i)
  have held : ρ.Holds (a.reduceAxis i (Fibre.reduce r (Tensor.dense a.shape i))) :=
    holds_ofFn fun p inside => (left p inside).1
  obtain ⟨y, stored, extents, read, entries⟩ := held.assign
  have value : ∀ p ∈ positions (a.shape.set i 1), ρ.entry y p =
      ρ.val (Fibre.reduce r (Tensor.dense a.shape i) (a.fibre i p)) := fun p inside =>
    (entries p inside).trans (entry_ofFn inside)
  refine ⟨y, bind_eq_ok.mpr ⟨_, bind_eq_ok.mpr ⟨a, rfl, bind_eq_ok.mpr ⟨i, resolved, rfl⟩⟩, stored⟩,
    extents, read, fun p inside k small => ?_, fun p inside => ?_⟩
  · rw [value p inside]
    exact (left p inside).2.1 k small
  · rw [value p inside]
    exact (left p inside).2.2

theorem reduce_shifts (compares : ρ.Compares) {r : Reduction} (extreme : r.IsExtreme) {axis : Axis}
    {i : Nat} (resolved : axis.resolve a.rank = .ok i) (some : 0 < a.extent i) {y : Tensor α}
    (extremes : Extremes ρ r i a y) : ρ.Shifts (reduce r axis) (a.shape.set i 1) [a] y := by
  refine shifts_one fun c u first => ?_
  have extent := first.extent i
  obtain ⟨z, ran, extremes'⟩ :=
    extreme_forward compares extreme (first.resolve resolved) (extent ▸ some) first.holds
  have shape : z.shape = y.shape := by rw [extremes'.shape, extremes.shape, first.shape]
  rw [first.shape] at ran
  refine ⟨z, ran, shape, extremes'.holds, fun p inside => ?_⟩
  rw [extremes.shape] at inside
  have moved : ∀ k < a.extent i, ρ.entry u (p.set i k) = ρ.entry a (p.set i k) + c :=
    fun k small => first.entry _ (place_mem inside small)
  obtain ⟨k, small, here⟩ := extremes.attained p inside
  obtain ⟨l, less, there⟩ := extremes'.attained p (first.shape ▸ inside)
  have less : l < a.extent i := extent ▸ less
  have above := extremes'.bounds p (first.shape ▸ inside) k (extent ▸ small)
  have below := (extremes.bounds p inside l less).add c
  rw [moved k small, here] at above
  rw [← moved l less, there] at below
  exact above.antisymm below

/-- At how many places of a fibre the element stands that is left of it. -/
def standing (ρ : Element.Reading α R type) (i : Nat) (a y : Tensor α)
    (p : List Nat) : Nat :=
  ((Finset.range (a.extent i)).filter fun k => ρ.entry a (p.set i k) = ρ.entry y p).card

omit [IsOrderedRing R] in
theorem Extremes.standing_pos {r : Reduction} {i : Nat} {y : Tensor α}
    (extremes : Extremes ρ r i a y) {p : List Nat} (inside : p ∈ positions (a.shape.set i 1)) :
    0 < standing ρ i a y p := by
  obtain ⟨k, small, here⟩ := extremes.attained p inside
  exact Finset.card_pos.mpr ⟨k, Finset.mem_filter.mpr ⟨Finset.mem_range.mpr small, here⟩⟩

/-- The largest or smallest element of a fibre is passed on to every place where it stands. -/
theorem reduce_selects (compares : ρ.Compares) {r : Reduction} (extreme : r.IsExtreme) {axis : Axis}
    (inferred : (reduce r axis : Operator α).infer [sa] = .ok s)
    (shapes : a.shape = sa.shape.extents ∧ g.shape = s.shape.extents) (holds : ρ.Holds a)
    (gradient : ρ.Holds g) : ∃ i y amount, axis.resolve a.rank = .ok i ∧
      ρ.Selects (reduce r axis) s.shape.extents [a] g y (fun _ => amount) ∧
      ∀ p ∈ positions s.shape.extents, 0 < standing ρ i a y p ∧
        ∑ k ∈ Finset.range (a.extent i), amount (p.set i k) =
          standing ρ i a y p * ρ.entry g p := by
  obtain ⟨i, resolved, axial, some, extents, one⟩ := reduce_extents inferred shapes
  have positive : ∀ e ∈ a.shape, 0 < e := shapes.1 ▸ sa.shape.positive
  obtain ⟨y, ran, extremes⟩ := extreme_forward compares extreme resolved some holds
  have given : ∀ q ∈ positions a.shape, _ := fun q inside =>
    compares.mask (Element.eq (a.get q) (y.get (q.set i 0)))
      (gradient _ (one ▸ start_mem (i := i) inside))
  have held : ρ.Holds (.ofFn a.shape fun q =>
      g.get (q.set i 0) * Element.mask (Element.eq (a.get q) (y.get (q.set i 0)))) :=
    holds_ofFn fun q inside => (given q inside).1
  have amounts : ∀ q ∈ positions a.shape, ρ.entry (.ofFn a.shape fun q =>
      g.get (q.set i 0) * Element.mask (Element.eq (a.get q) (y.get (q.set i 0)))) q =
        if ρ.entry a q = ρ.entry y (q.set i 0) then ρ.entry g (q.set i 0) else 0 := by
    intro q inside
    rw [entry_ofFn inside, (given q inside).2, compares.eq (holds q inside)
      (extremes.holds _ (extremes.shape ▸ start_mem inside))]
    simp only [decide_eq_true_eq]
    rfl
  rw [extents]
  refine ⟨i, y, _, resolved, ⟨ran, extremes.shape, reduce_shifts compares extreme resolved some
    extremes, fun _ => .dense _, fun wanted => ?_, Fin.forall_fin_one.mpr
      ((adds_same held positive).congr amounts)⟩,
    fun p inside => ⟨extremes.standing_pos inside, ?_⟩⟩
  · have made := held.asDense (reduceGradient_extreme extreme resolved extremes.shape one)
    exact congrArg (fun c => [((0 : Nat), c)]) made
  · simp only [List.set_set, set_start axial inside]
    rw [← Finset.sum_filter, Finset.sum_const, nsmul_eq_mul]
    rfl

/-! ### The first entries of a ranking -/

omit [LinearOrder R] [IsOrderedRing R] in
/-- Amounts put at distinct places add up to themselves. -/
theorem sum_putAt (exact : ρ.Arithmetic) {n : Nat} {chosen : List Nat} (xs : List α)
    (nodup : chosen.Nodup) (inside : ∀ l ∈ chosen, l < n) (length : chosen.length = xs.length)
    (all : ∀ x ∈ xs, ρ.carrier x) :
    (∀ l < n, ρ.carrier ((Fibre.putAt n chosen xs).getD l default)) ∧
      ∑ l ∈ Finset.range n, ρ.val ((Fibre.putAt n chosen xs).getD l default) =
        (xs.map ρ.val).sum := by
  obtain ⟨number, zero⟩ : ρ.carrier (Element.whole 0) ∧ ρ.val (Element.whole 0) = 0 := by
    simpa using exact.whole 0
  have put (ls : List Nat) (ys : List α) : ∀ l < n, (Fibre.putAt n ls ys).getD l default =
      (((ls.zip ys).find? fun p => p.1 = l).map Prod.snd).getD (Element.whole 0) := by
    intro l small
    rw [Fibre.putAt, getD_map_range _ _ small]
    cases (ls.zip ys).find? fun p => p.1 = l <;> rfl
  induction chosen generalizing xs with
  | nil =>
    obtain rfl : xs = [] := List.eq_nil_of_length_eq_zero length.symm
    have empty : ∀ l < n, (Fibre.putAt n [] ([] : List α)).getD l default = Element.whole 0 :=
      fun l small => put [] [] l small
    refine ⟨fun l small => empty l small ▸ number, ?_⟩
    refine Finset.sum_eq_zero fun l mem => ?_
    rw [empty l (Finset.mem_range.mp mem), zero]
  | cons place chosen ih =>
    obtain ⟨x, xs, rfl⟩ := List.exists_cons_of_length_eq_add_one length.symm
    obtain ⟨fresh, nodup⟩ := List.nodup_cons.mp nodup
    obtain ⟨bound, inside⟩ := List.forall_mem_cons.mp inside
    obtain ⟨first, all⟩ := List.forall_mem_cons.mp all
    obtain ⟨carried, sum⟩ := ih xs nodup inside (Nat.succ.inj length) all
    have step : ∀ l < n, (Fibre.putAt n (place :: chosen) (x :: xs)).getD l default =
        if place = l then x else (Fibre.putAt n chosen xs).getD l default := by
      intro l small
      rw [put _ _ l small, put _ _ l small, List.zip_cons_cons, List.find?_cons]
      by_cases here : place = l <;> simp [here]
    -- nothing else is put at the first place
    have single : ρ.val ((Fibre.putAt n chosen xs).getD place default) = 0 := by
      have absent : (chosen.zip xs).find? (fun p => p.1 = place) = none := by
        refine List.find?_eq_none.mpr fun p mem same => fresh ?_
        rw [← of_decide_eq_true same]
        exact (List.of_mem_zip mem).1
      rw [put _ _ place bound, absent, Option.map_none, Option.getD_none, zero]
    refine ⟨fun l small => ?_, ?_⟩
    · rw [step l small]
      split
      · exact first
      · exact carried l small
    · have parts : ∀ l ∈ Finset.range n,
          ρ.val ((Fibre.putAt n (place :: chosen) (x :: xs)).getD l default) =
            (if place = l then ρ.val x else 0) +
              ρ.val ((Fibre.putAt n chosen xs).getD l default) := by
        intro l mem
        rw [step l (Finset.mem_range.mp mem)]
        split
        next here => rw [← here, single, add_zero]
        next => rw [zero_add]
      rw [Finset.sum_congr rfl parts, Finset.sum_add_distrib, Finset.sum_ite_eq, sum,
        if_pos (Finset.mem_range.mpr bound), List.map_cons, List.sum_cons]

section Ranked

variable {axis : Axis} {i : Nat} {k : Int} {descending : Bool}

omit [IsOrderedRing R] in
theorem ranked_fibre (compares : ρ.Compares) (exact : ρ.Arithmetic) (holds : ρ.Holds a)
    {p : List Nat} (inside : p ∈ positions (a.shape.set i 1)) (descending : Bool) :
    Ranked (rankOf descending fun l => ρ.entry a (p.set i l))
      ((a.fibre i p).map (Fibre.rankingKey descending)) :=
  ranked_range compares exact descending fun _ small => holds.fibre inside small

omit [LinearOrder R] [IsOrderedRing R] in
theorem proper_keys (exact : ρ.Arithmetic) (holds : ρ.Holds a) (descending : Bool) :
    (a.map (Fibre.rankingKey descending)).Proper := by
  have held : ρ.Holds (a.map (Fibre.rankingKey descending)) := by
    intro q inside
    have inside : q ∈ positions a.shape := inside
    rw [Tensor.get_map _ inside]
    cases descending with
    | true => exact (exact.neg (holds q inside)).1
    | false => exact holds q inside
  exact held.proper

/-- A number that is added to all elements does not change their ranking. -/
theorem topPlaces_shifted (compares : ρ.Compares) (exact : ρ.Arithmetic) (holds : ρ.Holds a) {c : R}
    {u : Tensor α} (shifted : ρ.Shifted c a u) {p : List Nat}
    (inside : p ∈ positions (a.shape.set i 1)) (n : Nat) :
    Fibre.topPlaces n descending (u.fibre i p) = Fibre.topPlaces n descending (a.fibre i p) := by
  have extent := shifted.extent i
  have ranked := ranked_fibre compares exact holds inside descending
  have ranked' := ranked_fibre compares exact shifted.holds (shifted.shape ▸ inside) descending
  have moved : ∀ l < ((u.fibre i p).map (Fibre.rankingKey descending)).length,
      rankOf descending (fun l => ρ.entry u (p.set i l)) l =
        rankOf descending (fun l => ρ.entry a (p.set i l) + c) l := by
    intro l small
    rw [List.length_map, Tensor.length_fibre, extent] at small
    have same := shifted.entry _ (place_mem inside small)
    simp only [rankOf, same]
  have compared (l m : Nat) : rankOf descending (fun l => ρ.entry a (p.set i l) + c) l ≤
      rankOf descending (fun l => ρ.entry a (p.set i l) + c) m ↔
        rankOf descending (fun l => ρ.entry a (p.set i l)) l ≤
          rankOf descending (fun l => ρ.entry a (p.set i l)) m := by
    cases descending with
    | true => simp only [rankOf, if_true, neg_le_neg_iff, add_le_add_iff_right]
    | false => simp [rankOf]
  rw [topPlaces_eq ranked, topPlaces_eq (ranked'.congr moved), Tensor.length_fibre,
    Tensor.length_fibre, extent, ranking_congr compared]

variable (compares : ρ.Compares) (exact : ρ.Arithmetic) (resolved : axis.resolve a.rank = .ok i)
  (enough : k ≤ a.extent i) (holds : ρ.Holds a)

include compares exact enough holds

variable (descending) in
omit [IsOrderedRing R] in
theorem leading_fibre {p : List Nat} (inside : p ∈ positions (a.shape.set i 1)) :
    Leading (Precedes (rankOf descending fun l => ρ.entry a (p.set i l))) (a.extent i) k.toNat
      (Fibre.topPlaces k.toNat descending (a.fibre i p)) := by
  have leading := leading_topPlaces (ranked_fibre compares exact holds inside descending)
    (n := k.toNat) (by rw [Tensor.length_fibre]; omega)
  rwa [Tensor.length_fibre] at leading

include resolved

variable (descending) in
omit [IsOrderedRing R] in
/-- The entries at the places that are chosen. -/
theorem topK_forward : ∃ y, (topK k axis descending false).forward type
      (a.shape.set i k.toNat) [a] = .ok y ∧ y.shape = a.shape.set i k.toNat ∧ ρ.Holds y ∧
      ∀ q ∈ positions (a.shape.set i k.toNat), ρ.entry y q =
        ρ.entry a (q.set i ((a.chosen i k.toNat descending).get q)) := by
  have axial : i < a.shape.length := Axis.resolve_lt resolved
  have made := topK_value (proper_keys exact holds descending) resolved enough false
    (a.shape.set i k.toNat).length
  have held : ρ.Holds (topKValue.ofPlaces false a i (a.chosen i k.toNat descending)) :=
    holds_ofFn fun q inside => holds _ (chosen_inside descending axial
      (fun p inside => leading_fibre descending compares exact enough holds inside) inside).2
  obtain ⟨y, stored, extents, read, entries⟩ := held.assign
  refine ⟨y, bind_eq_ok.mpr ⟨_, made, stored⟩, extents, read, fun q inside => ?_⟩
  exact (entries q inside).trans (entry_ofFn inside)

theorem topK_shifts {y : Tensor α} (ran : (topK k axis descending false).forward type
    (a.shape.set i k.toNat) [a] = .ok y) :
    ρ.Shifts (topK k axis descending false) (a.shape.set i k.toNat) [a] y := by
  refine shifts_one fun c u first => ?_
  have axial : i < a.shape.length := Axis.resolve_lt resolved
  obtain ⟨y', ran', extents, -, entries⟩ :=
    topK_forward descending compares exact resolved enough holds
  obtain rfl := Except.ok.inj (ran.symm.trans ran')
  obtain ⟨z, made, extents', read, entries'⟩ := topK_forward descending compares
    exact (first.resolve resolved) ((first.extent i).symm ▸ enough) first.holds
  rw [first.shape] at made extents' entries'
  refine ⟨z, made, extents'.trans extents.symm, read, fun q inside => ?_⟩
  have inside : q ∈ positions (a.shape.set i k.toNat) := extents ▸ inside
  have start : q.set i 0 ∈ positions (a.shape.set i 1) := by
    have start := start_mem (i := i) inside
    rwa [List.set_set] at start
  have same : (u.chosen i k.toNat descending).get q = (a.chosen i k.toNat descending).get q := by
    rw [get_chosen inside, get_chosen (first.shape.symm ▸ inside),
      topPlaces_shifted compares exact holds first start]
  have placed := (chosen_inside descending axial
    (fun p inside => leading_fibre descending compares exact enough holds inside) inside).2
  rw [entries q inside, entries' q inside, same]
  exact first.entry _ placed

end Ranked

/-- The entries that are ranked first are given the gradient, each at its own place. -/
theorem topK_selects (compares : ρ.Compares) (exact : ρ.Arithmetic) {k : Int} {axis : Axis}
    {descending : Bool}
    (inferred : (topK k axis descending false : Operator α).infer [sa] = .ok s)
    (shapes : a.shape = sa.shape.extents ∧ g.shape = s.shape.extents) (holds : ρ.Holds a)
    (gradient : ρ.Holds g) : ∃ i y amount, axis.resolve a.rank = .ok i ∧
      s.shape.extents = a.shape.set i k.toNat ∧
      ρ.Selects (topK k axis descending false) s.shape.extents [a] g y (fun _ => amount) ∧
      ∀ p ∈ positions (a.shape.set i 1), ∑ l ∈ Finset.range (a.extent i), amount (p.set i l) =
        ∑ j ∈ Finset.range k.toNat, ρ.entry g (p.set i j) := by
  obtain ⟨i, resolved, axial, enough, extents⟩ := topK_extents inferred shapes.1
  have positive : ∀ e ∈ a.shape, 0 < e := shapes.1 ▸ sa.shape.positive
  have one : g.shape = a.shape.set i k.toNat := shapes.2.trans extents
  obtain ⟨y, ran, shape, -, -⟩ :=
    topK_forward descending compares exact resolved enough holds
  let places : Tensor Nat := a.chosen i k.toNat descending
  let put : Tensor α := a.mapFibresAt i fun pos xs =>
    Fibre.putAt xs.length (places.fibre i pos) (g.fibre i pos)
  have put_shape : put.shape = a.shape := set_getD a.shape i 1
  have found := topPlaces_chosen (proper_keys exact holds descending) resolved enough
  have made : topKGradient k axis descending a g = .ok put := by
    refine bind_eq_ok.mpr ⟨i, resolved, bind_eq_ok.mpr ⟨places, found, ?_⟩⟩
    have spread : g.spread places.shape = .ok g := by
      rw [shape_chosen, ← one]
      exact spread_self g
    exact bind_eq_ok.mpr ⟨g, spread, rfl⟩
  have extent : g.extent i = k.toNat := by
    rw [Tensor.extent, one, getD_set axial, if_pos rfl]
  have sums : ∀ p ∈ positions (a.shape.set i 1), _ := fun p inside =>
    have leading := leading_fibre descending compares exact enough holds inside
    sum_putAt exact (g.fibre i p) leading.nodup leading.inside
      (by rw [leading.length, Tensor.length_fibre, extent])
      (List.forall_mem_map.mpr fun j mem => gradient _ (place_mem
        (by rw [one, List.set_set]; exact inside) (List.mem_range.mp mem)))
  have element : ∀ q ∈ positions a.shape, put.get q = (Fibre.putAt (a.extent i)
      (Fibre.topPlaces k.toNat descending (a.fibre i (q.set i 0))) (g.fibre i (q.set i 0))).getD
        (q.getD i 0) default := by
    intro q inside
    have start : q.set i 0 ∈ positions (a.shape.set i 1) := start_mem inside
    have leading := leading_fibre descending compares exact enough holds start
    have listed : places.fibre i (q.set i 0) =
        Fibre.topPlaces k.toNat descending (a.fibre i (q.set i 0)) :=
      fibre_mapAxisAt axial start leading.length
    have same : a.shape.set i (a.extent i) = a.shape := set_getD a.shape i 1
    rw [← listed]
    refine (get_mapAxisAt (same.symm ▸ inside)).trans ?_
    rw [Tensor.length_fibre]
  have held : ρ.Holds put := by
    intro q inside
    have inside : q ∈ positions a.shape := put_shape ▸ inside
    rw [element q inside]
    exact (sums _ (start_mem inside)).1 _ ((mem_positions_getD.mp inside).2 i axial)
  rw [extents]
  refine ⟨i, y, ρ.entry put, resolved, rfl, ⟨ran, shape,
    topK_shifts compares exact resolved enough holds ran, fun _ => .dense put, fun wanted => ?_,
    Fin.forall_fin_one.mpr (put_shape ▸ adds_same held (put_shape.symm ▸ positive))⟩,
    fun p inside => ?_⟩
  · exact congrArg (fun c => [((0 : Nat), c)]) (held.asDense made)
  · have length : i < p.length := by
      rw [(mem_positions_getD.mp inside).1, List.length_set]
      exact axial
    have along : ∀ l ∈ Finset.range (a.extent i), ρ.entry put (p.set i l) =
        ρ.val ((Fibre.putAt (a.extent i) (Fibre.topPlaces k.toNat descending (a.fibre i p))
          (g.fibre i p)).getD l default) := by
      intro l mem
      rw [Element.Reading.entry, element _ (place_mem inside (Finset.mem_range.mp mem)),
        List.set_set, set_start axial inside, getD_set length, if_pos rfl]
    rw [Finset.sum_congr rfl along, (sums p inside).2, Tensor.fibre, extent, List.map_map,
      ← List.sum_toFinset _ List.nodup_range, List.toFinset_range]
    rfl

end Totals

/-- Operators that select elements commute with adding one number to all elements of all inputs. For
one of two inputs and for the first entries of a ranking, what is added to the gradients of the
inputs makes up the gradient of the output, ties or not. For the extreme of a fibre it is as many
times the gradient as there are places where the extreme stands, so it is the gradient just where
there is one such place, or where the gradient is zero. -/
theorem selection_totals {α R : Type} [Element α] [CommRing R] [LinearOrder R]
    [IsStrictOrderedRing R] {type : StorageType} {ρ : Element.Reading α R type}
    (compares : ρ.Compares) (exact : ρ.Arithmetic) {s : Signature} {g : Tensor α}
    (shape : g.shape = s.shape.extents) (gradient : ρ.Holds g) :
    (∀ (f : Joint) (sa sb : Signature) (a b : Tensor α), f.IsSelection →
      (joint f : Operator α).infer [sa, sb] = .ok s → a.shape = sa.shape.extents →
      b.shape = sb.shape.extents → ρ.Holds a → ρ.Holds b →
      ∃ y amount, ρ.Selects (joint f) s.shape.extents [a, b] g y amount ∧
        ∑ i, ∑ p ∈ places [a, b][i].shape, amount i p =
          ∑ q ∈ places s.shape.extents, ρ.entry g q) ∧
    (∀ (k : Int) (axis : Axis) (descending : Bool) (sa : Signature) (a : Tensor α),
      (topK k axis descending false : Operator α).infer [sa] = .ok s →
      a.shape = sa.shape.extents → ρ.Holds a →
      ∃ i y amount, axis.resolve a.rank = .ok i ∧ s.shape.extents = a.shape.set i k.toNat ∧
        ρ.Selects (topK k axis descending false) s.shape.extents [a] g y (fun _ => amount) ∧
        ∀ p ∈ positions (a.shape.set i 1), ∑ l ∈ Finset.range (a.extent i), amount (p.set i l) =
          ∑ j ∈ Finset.range k.toNat, ρ.entry g (p.set i j)) ∧
    (∀ (r : Reduction) (axis : Axis) (sa : Signature) (a : Tensor α), r.IsExtreme →
      (reduce r axis : Operator α).infer [sa] = .ok s → a.shape = sa.shape.extents → ρ.Holds a →
      ∃ i y amount, axis.resolve a.rank = .ok i ∧
        ρ.Selects (reduce r axis) s.shape.extents [a] g y (fun _ => amount) ∧
        ∀ p ∈ positions s.shape.extents, 0 < standing ρ i a y p ∧
          ∑ k ∈ Finset.range (a.extent i), amount (p.set i k) =
            standing ρ i a y p * ρ.entry g p ∧
          (∑ k ∈ Finset.range (a.extent i), amount (p.set i k) = ρ.entry g p ↔
            standing ρ i a y p = 1 ∨ ρ.entry g p = 0)) := by
  refine ⟨?_, ?_, ?_⟩
  · intro f sa sb a b selection inferred first second left right
    exact joint_selects compares selection inferred ⟨first, second, shape⟩ left right gradient
  · intro k axis descending sa a inferred first holds
    exact topK_selects compares exact inferred ⟨first, shape⟩ holds gradient
  · intro r axis sa a extreme inferred first holds
    obtain ⟨i, y, amount, resolved, selects, totals⟩ :=
      reduce_selects compares extreme inferred ⟨first, shape⟩ holds gradient
    refine ⟨i, y, amount, resolved, selects, fun p inside => ?_⟩
    obtain ⟨some, total⟩ := totals p inside
    refine ⟨some, total, ?_⟩
    rw [total, mul_left_eq_self₀, Nat.cast_eq_one]

end Operator

namespace Sample

open Operator

/-- A column is compared with one number, and of the rows of a matrix the largest element and the
first one of a ranking are taken. -/
theorem column_totals :
    (∃ y amount, (Element.reals .float64).Selects (joint .maximum) [2, 1]
        [enumerated [2, 1], enumerated [1]] (enumerated [2, 1]) y amount ∧
      ∑ i, ∑ p ∈ places [enumerated [2, 1], enumerated [1]][i].shape, amount i p =
        ∑ q ∈ places [2, 1], (Element.reals .float64).entry (enumerated [2, 1]) q) ∧
    (∃ i y amount, Axis.last.resolve 2 = .ok i ∧ [2, 1] = [2, 3].set i 1 ∧
      (Element.reals .float64).Selects (topK 1 .last true false) [2, 1] [enumerated [2, 3]]
        (enumerated [2, 1]) y (fun _ => amount) ∧
      ∀ p ∈ positions ([2, 3].set i 1), ∑ l ∈ Finset.range ((enumerated [2, 3]).extent i),
        amount (p.set i l) =
          ∑ j ∈ Finset.range 1, (Element.reals .float64).entry (enumerated [2, 1]) (p.set i j)) ∧
    (∃ i y amount, Axis.last.resolve 2 = .ok i ∧
      (Element.reals .float64).Selects (reduce .max .last) [2, 1] [enumerated [2, 3]]
        (enumerated [2, 1]) y (fun _ => amount) ∧
      ∀ p ∈ positions [2, 1], 0 < standing (Element.reals .float64) i (enumerated [2, 3]) y p ∧
        ∑ k ∈ Finset.range ((enumerated [2, 3]).extent i), amount (p.set i k) =
          standing (Element.reals .float64) i (enumerated [2, 3]) y p *
            (Element.reals .float64).entry (enumerated [2, 1]) p ∧
        (∑ k ∈ Finset.range ((enumerated [2, 3]).extent i), amount (p.set i k) =
            (Element.reals .float64).entry (enumerated [2, 1]) p ↔
          standing (Element.reals .float64) i (enumerated [2, 3]) y p = 1 ∨
            (Element.reals .float64).entry (enumerated [2, 1]) p = 0)) := by
  let column : Signature := ⟨⟨[2, 1], by decide⟩, .float64⟩
  let single : Signature := ⟨⟨[1], by decide⟩, .float64⟩
  let grid : Signature := ⟨⟨[2, 3], by decide⟩, .float64⟩
  obtain ⟨pair, ranked, extreme⟩ := selection_totals (Element.reals_compares .float64)
    (Element.reals_arithmetic .float64) (s := column) (g := enumerated [2, 1]) rfl
    (Element.holds_reals _)
  refine ⟨?_, ?_, ?_⟩
  · exact pair .maximum column single (enumerated [2, 1]) (enumerated [1]) (.inl rfl) rfl rfl rfl
      (Element.holds_reals _) (Element.holds_reals _)
  · exact ranked 1 .last true grid (enumerated [2, 3]) rfl rfl (Element.holds_reals _)
  · exact extreme .max .last grid (enumerated [2, 3]) (.inl rfl) rfl rfl (Element.holds_reals _)

/-- The largest of three equal numbers is passed on to all of them, so a gradient of one becomes
three. -/
theorem tie_multiplied : (reduce .max 0 : Operator Scalar).infer [row] = .ok point ∧
    (reduce .max 0).forward (.int .int64) [1] [stored [3] 4] = .ok (stored [1] 4) ∧
    ∃ c t, (reduce .max 0).contributions [stored [3] 4] (stored [1] 4) (stored [1] 1) [true] =
        [(0, .ok c)] ∧
      c.addTo (stored [3] 0) = .ok t ∧
      ∑ p ∈ places [3], Element.int64.entry t p = 3 ∧
      ∑ p ∈ places [1], Element.int64.entry (stored [1] 1) p = 1 := by
  have inferred : (reduce .max 0 : Operator Scalar).infer [row] = .ok point := rfl
  have assigned : (stored [1] 4).assign (.int .int64) [1] = .ok (stored [1] 4) :=
    (Tensor.assign_self (stored_holds [1] 4).proper _).trans
      (congrArg Except.ok (Tensor.map_full [1] _ _))
  have ran : (reduce .max 0).value 1 [stored [3] 4] = .ok (stored [1] 4) := rfl
  refine ⟨inferred, bind_eq_ok.mpr ⟨_, ran, assigned⟩, .dense (stored [3] 1), stored [3] 1, rfl,
    rfl, ?_, ?_⟩
  · decide +kernel
  · decide +kernel

end Sample

end ReverseMode
