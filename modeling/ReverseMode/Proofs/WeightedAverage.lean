import ReverseMode.Proofs.ArithmeticDerivatives
import ReverseMode.Proofs.CommonShape
import ReverseMode.Proofs.Denotation
import ReverseMode.Proofs.Fractions
import ReverseMode.Proofs.Representation
import ReverseMode.Proofs.ScalarProduct

/-!
Averages by weights.

A weighted average is a sum of products divided by a sum of weights. The products are summed along
an axis of the extents that the weights are broadcast to, the weights along an axis of their own.
Where the weights are as long as the products on that axis, the average of equal numbers is that
number. Where the weights are one wide there, they are counted once below and as often as they are
repeated above; and an axis that is counted from the front is another one for weights of fewer axes.
-/

namespace ReverseMode

open scoped Element

/-! ### Axes counted from the end -/

namespace Axis

variable {axis : Axis} {rank rank' i l : Nat}

/-- The axis is written as a negative integer. -/
def Negative (axis : Axis) : Prop := ∃ n < 0, axis.number? = some n

theorem resolve_eq_ok : axis.resolve rank = .ok i ↔
    ∃ n, axis.number? = some n ∧ wrap? n rank = some i := by
  unfold resolve
  cases axis.number? with
  | none => simp
  | some n =>
    cases wrapped : wrap? n rank <;> simp [wrapped]

/-- In different numbers of axes an axis is the same one from the end where it is counted from
there. -/
theorem resolve_aligned (first : axis.resolve rank = .ok i) (second : axis.resolve rank' = .ok l) :
    rank - i = rank' - l ↔ rank' = rank ∨ axis.Negative := by
  obtain ⟨n, written, wrapped⟩ := resolve_eq_ok.mp first
  obtain ⟨_, written', wrapped'⟩ := resolve_eq_ok.mp second
  obtain rfl := Option.some.inj (written.symm.trans written')
  have negative : axis.Negative ↔ n < 0 := by simp [Negative, written]
  have bound := resolve_lt first
  have bound' := resolve_lt second
  rw [negative]
  unfold wrap? at wrapped wrapped'
  grind

end Axis

/-! ### Sums along an axis -/

section Positions

variable {R : Type} {s e p : List Nat} {i l k : Nat}

/-- The sum of a function of positions along an axis of some extents. -/
def sumAlong [AddCommMonoid R] (e : List Nat) (i : Nat) (f : List Nat → R) (p : List Nat) : R :=
  ∑ k ∈ Finset.range (e.getD i 1), f (p.set i k)

section Aligned

variable (fits : Fits s e) (axial : l < s.length) (aligned : e.length - i = s.length - l)
  (inside : p ∈ positions (e.set i 1))

include fits axial aligned inside

/-- Where an array is read along an axis of the extents that it is broadcast to. -/
theorem clamp_place : Tensor.clamp s (p.set i k) =
    (Tensor.clamp (s.set l 1) p).set l (if s.getD l 1 = 1 then 0 else k) := by
  have short := fits.length
  have place : e.length - s.length + l = i := by omega
  have length : p.length = e.length := by simpa using (mem_positions_getD.mp inside).1
  have length' : (p.set i k).length = e.length := by rw [List.length_set, length]
  have reduced : Fits (s.set l 1) e := (fits_set s l).trans fits
  have rank : (Tensor.clamp (s.set l 1) p).length = s.length := by
    rw [Tensor.length_clamp reduced length, List.length_set]
  have rank' := Tensor.length_clamp fits length'
  refine ext_getD (by rw [rank', List.length_set, rank]) fun j bound => ?_
  rw [rank'] at bound
  have beyond (q : List Nat) : (q.drop (e.length - s.length)).getD j 0 =
      q.getD (e.length - s.length + j) 0 := by
    simp [List.getD_eq_getElem?_getD]
  rw [Tensor.getD_clamp fits length' bound, getD_set (rank ▸ axial), beyond,
    getD_set (show i < p.length by omega)]
  by_cases here : j = l
  · rw [if_pos here, here, place, if_pos rfl]
  · have there : e.length - s.length + j ≠ i := by omega
    rw [if_neg here, if_neg there, Tensor.getD_clamp reduced length (by simpa using bound),
      getD_set axial, if_neg here, List.length_set, beyond]

variable (g : List Nat → R)

/-- What is as long on the axis is summed as it is. -/
theorem sumAlong_covering [AddCommMonoid R] (covers : s.getD l 1 = e.getD i 1) :
    sumAlong e i (fun q => g (Tensor.clamp s q)) p =
      sumAlong s l g (Tensor.clamp (s.set l 1) p) := by
  rw [sumAlong, sumAlong, covers]
  refine Finset.sum_congr rfl fun k mem => ?_
  have small := Finset.mem_range.mp mem
  rw [clamp_place fits axial aligned inside]
  split
  next one => rw [show k = 0 by omega]
  next => rfl

/-- What is one wide on the axis is summed as often as it is repeated. -/
theorem sumAlong_repeated [Semiring R] (one : s.getD l 1 = 1) :
    sumAlong e i (fun q => g (Tensor.clamp s q)) p =
      (e.getD i 1 : Nat) * sumAlong s l g (Tensor.clamp (s.set l 1) p) := by
  simp only [sumAlong, clamp_place fits axial aligned inside, one, if_true, Finset.sum_const,
    Finset.card_range, Finset.sum_range_one, nsmul_eq_mul]

end Aligned

end Positions

/-! ### Operators -/

namespace Operator

open Element.Reading

variable {α R : Type} [Element α] [CommRing R] {type : StorageType}
variable {ρ : Element.Reading α R type} {axis : Axis} {i : Nat} {s t r : List Nat}
variable {a b : Tensor α}

/-- The sums along an axis of an array. -/
theorem sum_represents (positive : ∀ e ∈ s, 0 < e) (resolved : axis.resolve s.length = .ok i)
    (shape : a.shape = s) (holds : ρ.Holds a) :
    ∃ y, (reduce .sum axis).forward type (s.set i 1) [a] = .ok y ∧
      ρ.Represents (s.set i 1) (sumAlong s i (ρ.entry a)) y := by
  have axial := Axis.resolve_lt resolved
  have input := holds.fibrewise shape i
  refine reduce_forward resolved input fun p inside => ?_
  exact (input.fibre axial inside).total (width_pos positive axial) _

/-- Quotients of two arrays, each read in the extents of both. -/
theorem div_represents {F : Type} [Field F] {ρ : Element.Reading α F type} {v w : List Nat → F}
    (first : ρ.Represents s v a) (second : ρ.Represents t w b)
    (joined : broadcast? [s, t] = some r)
    (quotient : ∀ {x y}, ρ.carrier x → ρ.carrier y →
      ρ.carrier (x / y) ∧ ρ.val (x / y) = ρ.val x / ρ.val y) :
    ∃ y, (joint .div).forward type r [a, b] = .ok y ∧
      ρ.Represents r (fun q => v (Tensor.clamp s q) / w (Tensor.clamp t q)) y := by
  have joined' : broadcast? [a.shape, b.shape] = some r := by rwa [first.shape, second.shape]
  have divided : ρ.Represents r (fun q => v (Tensor.clamp s q) / w (Tensor.clamp t q))
      (.ofFn r fun q => a.read q / b.read q) := by
    refine represents_ofFn fun q inside => ?_
    obtain ⟨left, value⟩ := first.read (.of_broadcast joined (by simp)) inside
    obtain ⟨right, value'⟩ := second.read (.of_broadcast joined (by simp)) inside
    rw [← value, ← value']
    exact quotient left right
  exact divided.stored rfl (joint_value rfl joined')

/-! ### Signatures -/

variable {f g : Signature} {joined : Shape} {type : ElementType}

omit [Element α] in
theorem infer_scalarProduct (together : Shape.broadcast [f.shape, g.shape] = .ok joined)
    (common : ElementType.common [f.type, g.type] = .ok type)
    (resolved : axis.resolve joined.rank = .ok i) :
    ∃ shape : Shape, shape.extents = joined.extents.set i 1 ∧
      (scalarProduct axis : Operator α).infer [f, g] = .ok ⟨shape, type⟩ := by
  obtain ⟨shape, made, extents⟩ := Shape.set_ofInt (Axis.resolve_lt resolved) Nat.one_pos
  refine ⟨shape, extents, bind_eq_ok.mpr ⟨(f, g), rfl, bind_eq_ok.mpr ⟨joined, together, ?_⟩⟩⟩
  refine bind_eq_ok.mpr ⟨i, resolved, bind_eq_ok.mpr ⟨shape, made, ?_⟩⟩
  exact bind_eq_ok.mpr ⟨type, common, rfl⟩

omit [Element α] in
theorem infer_sum (resolved : axis.resolve f.shape.rank = .ok i) :
    ∃ shape : Shape, shape.extents = f.shape.extents.set i 1 ∧
      (reduce .sum axis : Operator α).infer [f] = .ok ⟨shape, f.type⟩ := by
  obtain ⟨shape, made, extents⟩ := Shape.set_ofInt (Axis.resolve_lt resolved) Nat.one_pos
  refine ⟨shape, extents, bind_eq_ok.mpr ⟨f, rfl, ?_⟩⟩
  exact bind_eq_ok.mpr ⟨i, resolved, bind_eq_ok.mpr ⟨shape, made, rfl⟩⟩

omit [Element α] in
theorem infer_div (together : broadcast? [f.shape.extents, g.shape.extents] = some r)
    (common : ElementType.common [f.type, g.type] = .ok type) (float : type.isFloat = true) :
    ∃ shape : Shape, shape.extents = r ∧
      (joint .div : Operator α).infer [f, g] = .ok ⟨shape, type⟩ := by
  have joins : broadcast? ([f.shape, g.shape].map Shape.extents) = some r := together
  obtain ⟨shape, made⟩ := Shape.broadcast_of_some joins
  have extents := Option.some.inj ((Shape.broadcast_eq_ok.mp made).symm.trans together)
  have required : type.requireFloat "Division" = .ok type := if_pos float
  refine ⟨shape, extents, bind_eq_ok.mpr ⟨⟨shape, type⟩, ?_, ?_⟩⟩
  · exact bind_eq_ok.mpr ⟨shape, made, bind_eq_ok.mpr ⟨type, common, rfl⟩⟩
  · exact bind_eq_ok.mpr ⟨type, required, rfl⟩

end Operator

/-! ### Averages -/

namespace Tensor

variable {e : List Nat} {i l : Nat} {x u y : Tensor ℚ} {p q : List Nat} {c : ℚ}

/-- The average of an array by weights, along an axis of the extents of both. -/
def average (e : List Nat) (i : Nat) (x u : Tensor ℚ) (p : List Nat) : ℚ :=
  sumAlong e i (fun q => x.read q * u.read q) p / sumAlong e i u.read p

/-- The elements are sums of products with the weights along axis `i` of the extents of the
products, divided by sums of the weights along their own axis `l`. -/
structure Averages (e : List Nat) (i l : Nat) (x u y : Tensor ℚ) : Prop where
  shape : broadcast? [e.set i 1, u.shape.set l 1] = some y.shape
  entry : ∀ q ∈ positions y.shape, sumAlong u.shape l u.get (clamp (u.shape.set l 1) q) ≠ 0 →
    y.get q = sumAlong e i (fun q => x.read q * u.read q) (clamp (e.set i 1) q) /
      sumAlong u.shape l u.get (clamp (u.shape.set l 1) q)

/-- Equal numbers are weighted by the sum of the weights. -/
theorem sumAlong_equal (fits : Fits x.shape e) (equal : ∀ z ∈ x.toList, z = c)
    (inside : p ∈ positions (e.set i 1)) :
    sumAlong e i (fun q => x.read q * u.read q) p = c * sumAlong e i u.read p := by
  rw [sumAlong, sumAlong, Finset.mul_sum]
  refine Finset.sum_congr rfl fun k mem => ?_
  have placed := ReverseMode.place_mem inside (Finset.mem_range.mp mem)
  rw [equal (x.read (p.set i k)) (get_mem (clamp_mem fits.broadcast (.head _) placed))]

/-- The average of equal numbers is that number. -/
theorem average_equal (fits : Fits x.shape e) (equal : ∀ z ∈ x.toList, z = c)
    (inside : p ∈ positions (e.set i 1)) (divisor : sumAlong e i u.read p ≠ 0) :
    average e i x u p = c := by
  rw [average, sumAlong_equal fits equal inside, mul_div_cancel_right₀ c divisor]

namespace Averages

variable (averages : Averages e i l x u y)

include averages

/-- Equal numbers are averaged to that number exactly where the weights have the same sum above and
below, unless it is zero. -/
theorem entry_equal (fits : Fits x.shape e) (equal : ∀ z ∈ x.toList, z = c)
    (inside : q ∈ positions y.shape)
    (divisor : sumAlong u.shape l u.get (clamp (u.shape.set l 1) q) ≠ 0) :
    y.get q = c ↔ c = 0 ∨ sumAlong e i u.read (clamp (e.set i 1) q) =
      sumAlong u.shape l u.get (clamp (u.shape.set l 1) q) := by
  have placed : clamp (e.set i 1) q ∈ positions (e.set i 1) :=
    clamp_mem averages.shape (.head _) inside
  rw [averages.entry q inside divisor, sumAlong_equal fits equal placed, div_eq_iff divisor,
    mul_eq_mul_left_iff, or_comm]

section Aligned

variable (fits : Fits u.shape e) (axial : i < e.length) (axial' : l < u.shape.length)
  (aligned : e.length - i = u.shape.length - l)

include fits axial axial' aligned

/-- Along the same axis from the end the averages have the extents of the products, with one place
of the axis. -/
theorem shape_aligned : y.shape = e.set i 1 := by
  have reduced := fits.reduced axial (show e.length - 1 - i < u.shape.length by omega)
  have place : u.shape.length - 1 - (e.length - 1 - i) = l := by omega
  rw [place] at reduced
  refine Option.some.inj (averages.shape.symm.trans (Fits.broadcast_all (.head _) ?_))
  simpa using ⟨.refl _, reduced⟩

variable (inside : p ∈ positions (e.set i 1)) (divisor : sumAlong e i u.read p ≠ 0)

include inside divisor

/-- Weights that are as long on the axis as the products give the average. -/
theorem entry_covering (covers : u.shape.getD l 1 = e.getD i 1) :
    y.get p = average e i x u p := by
  have same : sumAlong e i u.read p = _ := sumAlong_covering fits axial' aligned inside u.get covers
  have placed : p ∈ positions y.shape :=
    (averages.shape_aligned fits axial axial' aligned).symm ▸ inside
  rw [averages.entry p placed (same ▸ divisor), clamp_self inside, ← same, average]

/-- Weights that are one wide on the axis give the average times the number of places there. -/
theorem entry_repeated (one : u.shape.getD l 1 = 1) :
    y.get p = (e.getD i 1 : Nat) * average e i x u p := by
  have times : sumAlong e i u.read p = _ := sumAlong_repeated fits axial' aligned inside u.get one
  have placed : p ∈ positions y.shape :=
    (averages.shape_aligned fits axial axial' aligned).symm ▸ inside
  obtain ⟨count, own⟩ := mul_ne_zero_iff.mp (times ▸ divisor)
  rw [averages.entry p placed own, clamp_self inside, average, times]
  field_simp

end Aligned

end Averages

end Tensor

/-! ### Nodes -/

namespace Element

variable {type type' : StorageType} {s : List Nat} {v : List Nat → ℚ} {t : Tensor ℚ}

theorem rationals_holds (type : StorageType) (t : Tensor ℚ) : (rationals type).Holds t :=
  fun _ _ => trivial

/-- Rational numbers are the same in all types. -/
theorem rationals_represents (represents : (rationals type).Represents s v t) :
    (rationals type').Represents s v t :=
  ⟨represents.shape, rationals_holds type' t, represents.entry⟩

end Element

namespace Node

open Element

variable {leaf : Nat → Option (Tensor ℚ)} {n m : Node ℚ} {axis axis' : Axis} {joined : Shape}
variable {i l : Nat} {x u : Tensor ℚ} {a b t : Stamp}

/-- A quotient of a sum of products and a sum of weights is an average. -/
theorem denote_average (value : n.denote leaf = some x) (value' : m.denote leaf = some u)
    (shape : x.shape = n.shape.extents) (shape' : u.shape = m.shape.extents)
    (together : Shape.broadcast [n.shape, m.shape] = .ok joined)
    (summed : axis.resolve joined.rank = .ok i) (own : axis'.resolve m.shape.rank = .ok l)
    (products : a.shape.extents = joined.extents.set i 1)
    (weights : b.shape.extents = m.shape.extents.set l 1)
    (divided : broadcast? [a.shape.extents, b.shape.extents] = some t.shape.extents) :
    ∃ y, (Node.apply t (.joint .div) [.apply a (.scalarProduct axis) [n, m],
        .apply b (.reduce .sum axis') [m]]).denote leaf = some y ∧
      y.shape = t.shape.extents ∧ Tensor.Averages joined.extents i l x u y := by
  have joins : broadcast? [x.shape, u.shape] = some joined.extents := by
    rw [shape, shape']
    exact Shape.broadcast_eq_ok.mp together
  obtain ⟨c, made, sums⟩ := Reading.scalarProduct_represents (ρ := rationals a.type.storage)
    joined.positive summed joins (rationals_holds _ x) (rationals_holds _ u)
  obtain ⟨d, made', totals⟩ := Operator.sum_represents (ρ := rationals b.type.storage)
    m.shape.positive own shape' (rationals_holds _ u)
  rw [products, weights] at divided
  obtain ⟨y, made'', quotients⟩ := Operator.div_represents (ρ := rationals t.type.storage)
    (rationals_represents sums) (rationals_represents totals) divided fun _ _ => ⟨trivial, rfl⟩
  have first : (Node.apply a (.scalarProduct axis) [n, m]).denote leaf = some c := by
    refine denote_apply_eq_some.mpr ⟨[x, u], by simp [Yields, value, value'], ?_⟩
    rw [Operator.result, products]
    exact made
  have second : (Node.apply b (.reduce .sum axis') [m]).denote leaf = some d := by
    refine denote_apply_eq_some.mpr ⟨[u], by simp [Yields, value'], ?_⟩
    rw [Operator.result, weights]
    exact made'
  refine ⟨y, denote_apply_eq_some.mpr ⟨[c, d], by simp [Yields, first, second], made''⟩,
    quotients.shape, ?_, fun q inside _ => ?_⟩
  · rw [shape', quotients.shape]
    exact divided
  · rw [shape']
    exact quotients.entry q (quotients.shape ▸ inside)

end Node

/-! ### Calls -/

theorem ElementType.common_floats {s t : ElementType} (first : s.isFloat = true)
    (second : t.isFloat = true) :
    ∃ type, common [s, t] = .ok type ∧ type.isFloat = true := by
  cases s <;> cases first <;> cases t <;> cases second <;> exact ⟨_, rfl, rfl⟩

namespace Expression

open Session (Accepts)

variable {s : Session ℚ} {w : World ℚ} {n m : Node ℚ} {axis : Argument ℚ} {joined : Shape}
variable {i l : Nat}

theorem weightedAverage_eq (n m : Node ℚ) (axis : Argument ℚ) :
    weightedAverage (.node n) (.node m) axis = (do
      let total ← applyOn n (.scalarProduct axis.toAxis) [.node n, .node m]
      div total (← applyOn m (.reduce .sum axis.toAxis) [.node m])) := rfl

/-- Nodes of floats whose extents combine are divided. -/
theorem answers_div {r : List Nat} (first : s.Accepts w n) (second : s.Accepts w m)
    (float : n.type.isFloat = true) (float' : m.type.isFloat = true)
    (together : broadcast? [n.shape.extents, m.shape.extents] = some r) :
    ∃ t s', div (.node n) (.node m) s = .ok (.node (.apply t (.joint .div) [n, m])) s' ∧
      t.shape.extents = r := by
  obtain ⟨_, common, floating⟩ := ElementType.common_floats float float'
  obtain ⟨shape, rfl, inferred⟩ := Operator.infer_div (α := ℚ) (f := n.signature)
    (g := m.signature) together common floating
  have others : ∀ k ∈ [n, m], s.Accepts w k := by simpa using ⟨first, second⟩
  obtain ⟨_, s', ran, _⟩ := applyOn_answers _ [n, m] first others inferred
  obtain ⟨t, rfl, inferred', _⟩ := applyOn_accepted [n, m] rfl rfl
    (fun _ ⟨_, mem, _⟩ => by cases mem) first others ran
  have same := congrArg Signature.shape (Except.ok.inj (inferred'.symm.trans inferred))
  exact ⟨t, s', ran, congrArg Shape.extents same⟩

/-- Every axis that is one of the products and one of the weights is averaged along. -/
theorem answers_weightedAverage (first : s.Accepts w n) (second : s.Accepts w m)
    (float : n.type.isFloat = true) (float' : m.type.isFloat = true)
    (together : Shape.broadcast [n.shape, m.shape] = .ok joined)
    (summed : axis.toAxis.resolve joined.rank = .ok i)
    (own : axis.toAxis.resolve m.shape.rank = .ok l) :
    ∃ v s', weightedAverage (.node n) (.node m) axis s = .ok (.node v) s' ∧
      ∀ leaf x u, n.denote leaf = some x → m.denote leaf = some u → x.shape = n.shape.extents →
        u.shape = m.shape.extents →
        ∃ y, v.denote leaf = some y ∧ y.shape = v.shape.extents ∧
          Tensor.Averages joined.extents i l x u y := by
  obtain ⟨type, common, floating⟩ := ElementType.common_floats float float'
  obtain ⟨products, extents, inferred⟩ := Operator.infer_scalarProduct (α := ℚ)
    (f := n.signature) (g := m.signature) together common summed
  obtain ⟨weights, extents', inferred'⟩ := Operator.infer_sum (α := ℚ) (f := m.signature) own
  obtain ⟨a, above, s₁, w₁, ran, resolve, same, kept, accepts⟩ :=
    applyOn_along [n, m] rfl (fun _ => by nofun) first (by simpa using ⟨first, second⟩) inferred
  have second₁ := kept m second
  obtain ⟨b, below, s₂, w₂, ran', resolve', same', kept', accepts'⟩ :=
    applyOn_along [m] rfl (fun _ => by nofun) second₁ (by simpa using second₁) inferred'
  obtain ⟨rfl, rfl⟩ := Signature.mk.inj same
  obtain ⟨rfl, type'⟩ := Signature.mk.inj same'
  -- both sums fit the extents of the products, so that they can be divided
  have fits : Fits m.shape.extents joined.extents :=
    .of_broadcast (Shape.broadcast_eq_ok.mp together) (by simp)
  obtain ⟨r, divided⟩ : ∃ r, broadcast? [a.shape.extents, b.shape.extents] = some r := by
    refine broadcast?_of_bound (t := joined.extents) ?_
    rw [extents, extents']
    simpa using ⟨fits_set _ i, (fits_set _ l).trans fits⟩
  obtain ⟨t, s₃, ran'', rfl⟩ := answers_div (kept' _ accepts) accepts' floating
    ((congrArg ElementType.isFloat type').trans float') divided
  have answered := (congrFun (weightedAverage_eq n m axis) s).trans
    ((run_bind ran).trans ((run_bind ran').trans ran''))
  refine ⟨_, s₃, answered, fun leaf x u value value' shape shape' => ?_⟩
  exact Node.denote_average value value' shape shape' together
    ((congrFun resolve _).trans summed) ((congrFun resolve' _).trans own) extents extents' divided

/-- An average of equal numbers is that number, and any average the sum of the products divided by
the sum of the weights, where the axis is the same one from the end in the weights and in what they
are broadcast to, and the weights are as long on it. Weights that are one wide there give the
average times the number of places. Along any axis that both operators accept, each on its own, the
sum of the products along the one is divided by the sum of the weights along the other, and equal
numbers are averaged to that number only where both sums of the weights are the same. -/
theorem weighted_average (first : s.Accepts w n) (second : s.Accepts w m)
    (float : n.type.isFloat = true) (float' : m.type.isFloat = true)
    (together : Shape.broadcast [n.shape, m.shape] = .ok joined)
    (summed : axis.toAxis.resolve joined.rank = .ok i)
    (own : axis.toAxis.resolve m.shape.rank = .ok l) :
    ∃ v s', weightedAverage (.node n) (.node m) axis s = .ok (.node v) s' ∧
      ∀ leaf x u, n.denote leaf = some x → m.denote leaf = some u → x.shape = n.shape.extents →
        u.shape = m.shape.extents →
        ∃ y, v.denote leaf = some y ∧ y.shape = v.shape.extents ∧
          Tensor.Averages joined.extents i l x u y ∧
          (∀ c, (∀ z ∈ x.toList, z = c) → ∀ q ∈ positions y.shape,
            sumAlong u.shape l u.get (Tensor.clamp (u.shape.set l 1) q) ≠ 0 →
            (y.get q = c ↔ c = 0 ∨
              sumAlong joined.extents i u.read (Tensor.clamp (joined.extents.set i 1) q) =
                sumAlong u.shape l u.get (Tensor.clamp (u.shape.set l 1) q))) ∧
          (m.shape.rank = joined.rank ∨ axis.toAxis.Negative →
            y.shape = joined.extents.set i 1 ∧
            ∀ p ∈ positions y.shape, sumAlong joined.extents i u.read p ≠ 0 →
              (∀ c, (∀ z ∈ x.toList, z = c) → Tensor.average joined.extents i x u p = c) ∧
              (m.shape.extent l = joined.extent i →
                y.get p = Tensor.average joined.extents i x u p) ∧
              (m.shape.extent l = 1 →
                y.get p = (joined.extent i : Nat) * Tensor.average joined.extents i x u p)) := by
  obtain ⟨v, s', ran, denotes⟩ :=
    answers_weightedAverage first second float float' together summed own
  refine ⟨v, s', ran, fun leaf x u value value' shape shape' => ?_⟩
  obtain ⟨y, denoted, outcome, averages⟩ := denotes leaf x u value value' shape shape'
  have joins := Shape.broadcast_eq_ok.mp together
  have fits : Fits x.shape joined.extents := shape ▸ .of_broadcast joins (by simp)
  have fits' : Fits u.shape joined.extents := shape' ▸ .of_broadcast joins (by simp)
  have axial := Axis.resolve_lt summed
  have axial' : l < u.shape.length := shape' ▸ Axis.resolve_lt own
  refine ⟨y, denoted, outcome, averages, fun c equal q inside divisor =>
    averages.entry_equal fits equal inside divisor, fun counted => ?_⟩
  have aligned : joined.extents.length - i = u.shape.length - l :=
    shape' ▸ (Axis.resolve_aligned summed own).mpr counted
  have extents := averages.shape_aligned fits' axial axial' aligned
  refine ⟨extents, fun p inside divisor => ?_⟩
  rw [extents] at inside
  refine ⟨fun c equal => Tensor.average_equal fits equal inside divisor, fun covers => ?_,
    fun one => ?_⟩
  · exact averages.entry_covering fits' axial axial' aligned inside divisor (shape' ▸ covers)
  · exact averages.entry_repeated fits' axial axial' aligned inside divisor (shape' ▸ one)

end Expression

/-! ### An example -/

namespace Sample

open Session (onGraph)
open Expression World

theorem sheet_extents : ∀ e ∈ [2, 3], 0 < e := by decide

theorem strip_extents : ∀ e ∈ [1, 3], 0 < e := by decide

/-- Two rows of three numbers. -/
def sheet : Node ℚ :=
  .leaf ⟨0, 0, ⟨[2, 3], sheet_extents⟩, .float64, some 0, .ofBool false, none⟩ (.constant 3)

/-- Weights of the three columns. -/
def band : Node ℚ :=
  .leaf ⟨0, 1, .vector 3 (Nat.succ_pos 2), .float64, some 0, .ofBool false, none⟩ (.constant 1)

/-- The world in which both have been built. -/
def laid : World ℚ :=
  let w : World ℚ := start 0 { type := .float64 }
  let w := w.next (.constant sheet.shape (.constant 3) (.ok none) none) (.node sheet)
    (w.graph.recorded sheet)
  w.next (.constant band.shape (.constant 1) (.ok none) none) (.node band) (w.graph.recorded band)

/-- The session of that world. -/
def laying : Session ℚ :=
  after ((do
    let serial ← Session.addGraph { type := .float64 }
    let _ ← onGraph serial (Graph.constant sheet.shape (.constant 3) (.ok none) none)
    onGraph serial (Graph.constant band.shape (.constant 1) (.ok none) none) :
      SessionM ℚ (Node ℚ)) {})

theorem laid_reachable : laid.Reachable :=
  .next (.next (.start 0 _) (fun _ inside => nomatch inside) rfl) (fun _ inside => nomatch inside)
    rfl

theorem laying_accepts : laying.Accepts laid sheet ∧ laying.Accepts laid band := by
  have inside : 0 < laying.graphs.size := by decide +kernel
  have graph : laying.graphAt 0 = laid.graph := rfl
  exact ⟨⟨laid_reachable, inside, graph, .inl (.inr rfl), rfl⟩,
    ⟨laid_reachable, inside, graph, .inr rfl, rfl⟩⟩

/-- The weights one, two and three. -/
def rising : Tensor ℚ := ⟨[3], #[1, 2, 3], rfl⟩

/-- Rows of threes, and the rising weights. -/
def leafValues (id : Nat) : Option (Tensor ℚ) :=
  if id = 0 then some (.full [2, 3] 3) else some rising

/-- The rows are averaged along the last axis, on which the weights are as long. -/
theorem rows_averaged : ∃ v s' y,
    weightedAverage (.node sheet) (.node band) (.int (-1)) laying = .ok (.node v) s' ∧
      v.denote leafValues = some y ∧ y.shape = [2, 1] ∧ ∀ p ∈ positions [2, 1], y.get p = 3 := by
  have together : Shape.broadcast [sheet.shape, band.shape] = .ok sheet.shape := by decide
  have summed : (Argument.int (-1) : Argument ℚ).toAxis.resolve sheet.shape.rank = .ok 1 := rfl
  have own : (Argument.int (-1) : Argument ℚ).toAxis.resolve band.shape.rank = .ok 0 := rfl
  obtain ⟨v, s', ran, denotes⟩ :=
    weighted_average laying_accepts.1 laying_accepts.2 rfl rfl together summed own
  obtain ⟨y, denoted, -, -, -, aligned⟩ := denotes leafValues (.full [2, 3] 3) rising
    (by rw [sheet, Node.denote]; rfl) (by rw [band, Node.denote]; rfl) rfl rfl
  obtain ⟨extents, each⟩ := aligned (.inr ⟨-1, by decide, rfl⟩)
  have shape : y.shape = [2, 1] := extents
  have divisor : ∀ p ∈ positions [2, 1], sumAlong [2, 3] 1 rising.read p ≠ 0 := by
    decide +kernel
  refine ⟨v, s', y, ran, denoted, shape, fun p inside => ?_⟩
  obtain ⟨equal, covering, -⟩ := each p (shape.symm ▸ inside) (divisor p inside)
  exact (covering rfl).trans (equal 3 (by decide +kernel))

/-- What the average of the threes by new weights of one answers, after a forward pass. -/
def averaged (weights : Shape) (axis : Int) : List ℚ :=
  match (do
    let n ← onGraph 0 (Graph.constant weights (.constant 1) (.ok none) none)
    match ← weightedAverage (.node sheet) (.node n) (.int axis) with
    | .node v => onGraph 0 (do Graph.forward; Graph.value (.node v))
    | _ => throw .type : SessionM ℚ (Tensor ℚ)) laying with
  | .ok t _ => t.toList
  | .error _ _ => []

/-- Threes are averaged along the first axis to six by weights that are one wide there, and to two
by weights without that axis, although the weights of every column add up to two. -/
theorem threes_averaged : averaged ⟨[1, 3], strip_extents⟩ 0 = [6, 6, 6] ∧
    averaged band.shape 0 = [2, 2, 2] ∧
    averaged band.shape (-1) = [3, 3] ∧
    ∀ p ∈ positions [1, 3], sumAlong [2, 3] 0 (Tensor.full [1, 3] (1 : ℚ)).read p = 2 ∧
      sumAlong [2, 3] 0 (Tensor.full [3] (1 : ℚ)).read p = 2 := by
  decide +kernel

end Sample

end ReverseMode
