import Mathlib.Tactic.Ring
import ReverseMode.Proofs.Representation
import ReverseMode.Proofs.Rules

/-!
The backward step of products summed along an axis.

The step multiplies the gradient of the output, which has extent one on the axis, with the other
input, and sums the product back to the extents of each input. Where the other input is as long on
the axis as the products are, this is the adjoint of the forward step in that input. Where it is
not, the product has extent one on the axis too, and it cannot be laid out in a buffer that is
longer: the step fails.
-/

namespace ReverseMode

open scoped Element

/-! ### Extents with one axis reduced -/

theorem backExtent_set_eq (s : List Nat) {i j : Nat} (bound : i < s.length) :
    backExtent (s.set i 1) j = if j = s.length - 1 - i then 1 else backExtent s j := by
  by_cases beyond : s.length ≤ j
  · rw [backExtent_beyond (by simpa using beyond), backExtent_beyond beyond]
    simp
  · have place : s.length - 1 - (s.length - 1 - j) = j := by omega
    have inside : s.length - 1 - j < s.length := by omega
    have first := backExtent_eq (show s.length - 1 - j < (s.set i 1).length by simpa using inside)
    have second := backExtent_eq inside
    simp only [List.length_set, place] at first second
    rw [first, second, List.getElem_set]
    by_cases here : j = s.length - 1 - i
    · rw [if_pos here, if_pos (by omega)]
    · rw [if_neg here, if_neg (by omega)]

theorem volume_pos {s : List Nat} (positive : ∀ e ∈ s, 0 < e) : 0 < volume s := by
  rw [← length_positions]
  exact List.length_pos_iff.mpr (positions_ne_nil positive)

theorem volume_set {s : List Nat} {i : Nat} (bound : i < s.length) :
    volume (s.set i 1) * s[i] = volume s := by
  induction s generalizing i with
  | nil => cases bound
  | cons e s ih =>
    cases i with
    | zero =>
      change 1 * volume s * e = e * volume s
      ring
    | succ i =>
      have bound : i < s.length := Nat.lt_of_succ_lt_succ bound
      change e * volume (s.set i 1) * s[i] = e * volume s
      rw [mul_assoc, ih bound]

namespace Element.Reading

open Tensor

variable {α R : Type} [Element α] [CommRing R] {type : StorageType}
variable {ρ : Element.Reading α R type} {t u : Tensor α} {r : List Nat}

/-! ### Products in common extents -/

/-- Arrays multiplied in their common extents. -/
theorem combine_mul (first : ρ.Holds t) (second : ρ.Holds u)
    (joined : broadcast? [t.shape, u.shape] = some r) :
    ∃ c, t.combine (· * ·) u = .ok c ∧ c.shape = r ∧ ρ.Holds c ∧
      ∀ q ∈ positions r, ρ.entry c q = ρ.val (t.read q) * ρ.val (u.read q) := by
  have readable : ∀ q ∈ positions r, ρ.carrier (t.read q) ∧ ρ.carrier (u.read q) := by
    intro q inside
    exact ⟨first _ (clamp_mem joined (by simp) inside),
      second _ (clamp_mem joined (by simp) inside)⟩
  refine ⟨.ofFn r fun q => t.read q * u.read q, ?_, rfl, ?_, ?_⟩
  · rw [combine, joined]
  · exact holds_ofFn fun q inside => (ρ.mul (readable q inside).1 (readable q inside).2).1
  · intro q inside
    rw [entry_ofFn inside]
    exact (ρ.mul (readable q inside).1 (readable q inside).2).2

end Element.Reading

/-! ### Extents that meet on the reduced axis -/

namespace Fits

variable {shape joined : List Nat} {i : Nat}

/-- An array that is as long on the axis as the products restores the axis. -/
theorem restores (fits : Fits shape joined) (axial : i < joined.length)
    (covers : backExtent shape (joined.length - 1 - i) =
      backExtent joined (joined.length - 1 - i)) :
    broadcast? [joined.set i 1, shape] = some joined := by
  refine broadcast?_eq_some.mpr ⟨?_, fun j => joinExtents_eq_some.mpr ?_⟩
  · have := fits.length
    simp [maxRank]
    omega
  · have agree := fits.agree j
    simp only [List.map_cons, List.map_nil, List.mem_cons, List.not_mem_nil, or_false,
      forall_eq_or_imp, forall_eq, backExtent_set_eq joined axial]
    split
    next here =>
      rw [here, covers]
      simp
    · simp [agree]

/-- An array that is one wide on the axis leaves it so. -/
theorem leaves (fits : Fits shape joined) (axial : i < joined.length)
    (short : backExtent shape (joined.length - 1 - i) = 1) :
    broadcast? [joined.set i 1, shape] = some (joined.set i 1) := by
  refine broadcast?_eq_some.mpr ⟨?_, fun j => joinExtents_eq_some.mpr ?_⟩
  · have := fits.length
    simp [maxRank]
    omega
  · have agree := fits.agree j
    simp only [List.map_cons, List.map_nil, List.mem_cons, List.not_mem_nil, or_false,
      forall_eq_or_imp, forall_eq, backExtent_set_eq joined axial]
    split
    next here =>
      rw [here, short]
      simp
    · simp [agree]

/-- Where both extents of an axis are made one, arrays still fit. -/
theorem reduced (fits : Fits shape joined) (axial : i < joined.length)
    (inside : joined.length - 1 - i < shape.length) :
    Fits (shape.set (shape.length - 1 - (joined.length - 1 - i)) 1) (joined.set i 1) := by
  refine ⟨by simpa using fits.length, fun j => ?_⟩
  rw [backExtent_set_eq _ (by omega), backExtent_set_eq _ axial]
  by_cases here : j = joined.length - 1 - i
  · exact .inl (if_pos (by omega))
  · rw [if_neg (by omega), if_neg here]
    exact fits.agree j

end Fits

/-- Whether an array is longer than another one on axis `i` of `rank` axes, where that has extent
one or no axis at all. -/
def Outruns (rank i : Nat) (shape other : List Nat) : Prop :=
  backExtent shape (rank - 1 - i) ≠ 1 ∧ backExtent other (rank - 1 - i) = 1

instance (rank i : Nat) (shape other : List Nat) : Decidable (Outruns rank i shape other) :=
  inferInstanceAs (Decidable (_ ∧ _))

namespace Element.Reading

open Tensor

variable {α R : Type} [Element α] [CommRing R] {type : StorageType}
variable {ρ : Element.Reading α R type} {joined : List Nat} {i : Nat}

/-- A product that is one wide on the axis has no place in a buffer that is longer there. -/
theorem unbroadcast_short {c : Tensor α} (holds : ρ.Holds c) (positive : ∀ e ∈ joined, 0 < e)
    (axial : i < joined.length) (extents : c.shape = joined.set i 1) {shape : List Nat}
    (fits : Fits shape joined) (some : ∀ e ∈ shape, 0 < e)
    (long : backExtent shape (joined.length - 1 - i) ≠ 1) :
    c.unbroadcast shape = .error .value := by
  have inside : joined.length - 1 - i < shape.length := by
    by_contra beyond
    exact long (backExtent_beyond (by omega))
  obtain ⟨k, place⟩ : ∃ k, k = shape.length - 1 - (joined.length - 1 - i) := ⟨_, rfl⟩
  have bound : k < shape.length := by omega
  have wide : shape[k] ≠ 1 := by
    have back : shape.length - 1 - k = joined.length - 1 - i := by omega
    rwa [← backExtent_eq bound, back]
  have small : ∀ e ∈ c.shape, 0 < e := by
    intro e mem
    rw [extents] at mem
    exact (List.mem_or_eq_of_mem_set mem).elim (positive e) fun one => one ▸ Nat.one_pos
  have reduced : Fits (shape.set k 1) c.shape := by
    rw [extents, place]
    exact fits.reduced axial inside
  obtain ⟨g, led, shape', -⟩ := sumLeading holds (.inl small)
    (show shape.length ≤ c.shape.length by simpa using reduced.length)
  have length : g.shape.length = (shape.set k 1).length := by
    have := reduced.length
    rw [shape', List.length_drop]
    simp at this ⊢
    omega
  have aligned : Fits (shape.set k 1) g.shape := by
    have := reduced.of_aligned
    rwa [Fits.aligned, List.length_set, ← shape'] at this
  have one : g.shape.getD k 1 = 1 := by
    have back : c.shape.length - shape.length + k = i := by
      have := fits.length
      rw [extents, List.length_set]
      omega
    rw [shape', List.getD_eq_getElem?_getD, List.getElem?_drop, back, extents]
    simp [axial]
  -- at the place of the axis neither is widened: the buffer is longer, the product one wide
  have same : widened g.shape shape = widened g.shape (shape.set k 1) := by
    rw [widened, widened, List.length_set]
    refine List.filter_congr fun l _ => ?_
    rw [getD_set bound]
    split
    next here =>
      rw [here, one]
      simp
    · rfl
  have kept := keptExtents_widened aligned length
  rw [← same] at kept
  have smaller : volume (shape.set k 1) ≠ volume shape := by
    have whole := volume_set bound
    have positive : 0 < volume shape := volume_pos some
    intro equal
    rw [equal] at whole
    exact wide ((Nat.mul_eq_left (by omega)).mp whole)
  rw [Tensor.unbroadcast, led]
  cases axes : widened g.shape shape with
  | nil =>
    rw [axes, keptExtents_nil] at kept
    simp only [bind, Except.bind, axes, List.isEmpty_nil, if_true]
    exact dif_neg (kept ▸ smaller)
  | cons axis rest =>
    simp only [bind, Except.bind, axes, List.isEmpty_cons, Bool.false_eq_true, if_false]
    refine dif_neg ?_
    rw [shape_sumAxes, ← axes, kept]
    exact smaller

/-! ### The operator -/

/-- The forward step leaves sums of products. -/
theorem scalarProduct_represents {axis : Axis} (positive : ∀ e ∈ joined, 0 < e)
    (resolved : axis.resolve joined.length = .ok i) {t u : Tensor α}
    (together : broadcast? [t.shape, u.shape] = some joined) (first : ρ.Holds t)
    (second : ρ.Holds u) :
    ∃ y, (Operator.scalarProduct axis).forward type (joined.set i 1) [t, u] = .ok y ∧
      ρ.Represents (joined.set i 1) (fun p => ∑ k ∈ Finset.range (joined.getD i 1),
        ρ.val (t.read (p.set i k)) * ρ.val (u.read (p.set i k))) y := by
  have axial := Axis.resolve_lt resolved
  obtain ⟨c, multiplied, shape, holds, entries⟩ := combine_mul first second together
  let v (q : List Nat) : R := ρ.val (t.read q) * ρ.val (u.read q)
  have product : ρ.Represents joined (fibrewise i fun p k => v (p.set i k)) c :=
    ⟨shape, holds, fun q inside => (entries q inside).trans (fibrewise_self v q).symm⟩
  refine (product.total positive axial (Tensor.dense c.shape i)).stored rfl ?_
  exact bind_eq_ok.mpr ⟨(t, u), rfl, bind_eq_ok.mpr ⟨c, multiplied,
    bind_eq_ok.mpr ⟨i, product.resolve resolved, rfl⟩⟩⟩

/-- The products of the output with an array are the products of all three. -/
theorem scalarProduct_forward {axis : Axis} (positive : ∀ e ∈ joined, 0 < e)
    (resolved : axis.resolve joined.length = .ok i) {t u : Tensor α}
    (together : broadcast? [t.shape, u.shape] = some joined) (first : ρ.Holds t)
    (second : ρ.Holds u) :
    ∃ y, (Operator.scalarProduct axis).forward type (joined.set i 1) [t, u] = .ok y ∧
      y.shape = joined.set i 1 ∧ ∀ g : Tensor α, g.shape = joined.set i 1 → ρ.pairing g y =
        ∑ q ∈ places joined, ρ.val (g.read q) * (ρ.val (t.read q) * ρ.val (u.read q)) := by
  have axial := Axis.resolve_lt resolved
  obtain ⟨y, ran, sums⟩ := scalarProduct_represents positive resolved together first second
  refine ⟨y, ran, sums.shape, fun g same => ?_⟩
  rw [pairing, same, sum_fibres axial]
  refine Finset.sum_congr rfl fun p mem => ?_
  have inside := mem_places.mp mem
  rw [sums.entry p inside, Finset.mul_sum]
  refine Finset.sum_congr rfl fun k small => ?_
  have placed := ReverseMode.place_mem inside (Finset.mem_range.mp small)
  rw [read_start axial same placed, List.set_set, set_start axial inside]
  rfl

section Step

variable {g x y c : Tensor α}

/-- What the step adds for an input is the product of the gradient with the other input `y`. -/
theorem slot_multiplied (gradient : ρ.Holds g) (other : ρ.Holds y) (axial : i < joined.length)
    (extents : g.shape = joined.set i 1) (fits : Fits y.shape joined) :
    ∃ c, Operator.asDense (g.combine (· * ·) y) = .ok (.dense c) ∧
      broadcast? [joined.set i 1, y.shape] = some c.shape ∧ ρ.Holds c ∧
      ∀ q ∈ positions c.shape, ρ.entry c q = ρ.val (g.read q) * ρ.val (y.read q) := by
  obtain ⟨r, met⟩ : ∃ r, broadcast? [joined.set i 1, y.shape] = some r := by
    rcases fits.agree (joined.length - 1 - i) with short | covers
    · exact ⟨_, fits.leaves axial short⟩
    · exact ⟨_, fits.restores axial covers⟩
  obtain ⟨c, multiplied, rfl, holds, entries⟩ := combine_mul gradient other (extents ▸ met)
  exact ⟨c, holds.asDense multiplied, met, holds, entries⟩

variable (holds : ρ.Holds c) (met : broadcast? [joined.set i 1, y.shape] = some c.shape)
  (positive : ∀ e ∈ joined, 0 < e) (axial : i < joined.length)
  (first : Fits x.shape joined) (second : Fits y.shape joined)

include holds met positive axial first second

/-- An input that is longer on the axis than the other one is not given its gradient. -/
theorem slot_fails (some : ∀ e ∈ x.shape, 0 < e) (outruns : Outruns joined.length i x.shape y.shape)
    {target : Tensor α} (same : target.shape = x.shape) :
    (Contribution.dense c).addTo target = .error .value := by
  have extents : c.shape = joined.set i 1 :=
    (Option.some.inj ((second.leaves axial outruns.2).symm.trans met)).symm
  have refused := unbroadcast_short holds positive axial extents first some outruns.1
  rw [Contribution.addTo, Tensor.accumulate, same, refused]
  rfl

/-- Every other input is given the adjoint of the forward step. -/
theorem slot_adjoint (entries : ∀ q ∈ positions c.shape, ρ.entry c q =
      ρ.val (g.read q) * ρ.val (y.read q))
    (meets : backExtent joined (joined.length - 1 - i) = 1 ∨
      backExtent joined (joined.length - 1 - i) = backExtent x.shape (joined.length - 1 - i) ∨
      backExtent joined (joined.length - 1 - i) = backExtent y.shape (joined.length - 1 - i))
    (fair : ¬ Outruns joined.length i x.shape y.shape)
    {along : Tensor α → Except Fault (Tensor α)}
    (forward : ∀ d : Tensor α, d.shape = x.shape → ρ.Holds d → ∃ z, along d = .ok z ∧
      z.shape = g.shape ∧ ρ.pairing g z =
        ∑ q ∈ places joined, ρ.val (g.read q) * (ρ.val (d.read q) * ρ.val (y.read q))) :
    ρ.AddsAdjoint (.dense c) x.shape g along := by
  have covers : backExtent y.shape (joined.length - 1 - i) =
      backExtent joined (joined.length - 1 - i) := by
    have agree := second.agree (joined.length - 1 - i)
    unfold Outruns at fair
    grind
  have extents : c.shape = joined :=
    (Option.some.inj ((second.restores axial covers).symm.trans met)).symm
  intro target same buffer
  obtain ⟨t, added, shape, sum, products⟩ := accumulate buffer holds (extents ▸ positive)
    (same ▸ extents ▸ first)
  refine ⟨t, added, shape.trans same, sum, fun d extent direction => ?_⟩
  obtain ⟨z, ran, shape', paired⟩ := forward d extent direction
  refine ⟨z, ran, shape', ?_⟩
  rw [products d (extent.trans same.symm), paired, extents]
  refine congrArg _ (Finset.sum_congr rfl fun q mem => ?_)
  rw [entries q (extents ▸ mem_places.mp mem)]
  ring

end Step

end Element.Reading

namespace Operator

variable {α R : Type} [Element α] [CommRing R] {type : StorageType}

omit [Element α] in
/-- The extents that a product along an axis is inferred to have. -/
theorem scalarProduct_extents {axis : Axis} {sa sb s : Signature}
    (inferred : (scalarProduct axis : Operator α).infer [sa, sb] = .ok s) :
    ∃ (joined : Shape) (i : Nat),
      broadcast? [sa.shape.extents, sb.shape.extents] = some joined.extents ∧
      axis.resolve joined.rank = .ok i ∧ s.shape.extents = joined.extents.set i 1 := by
  obtain ⟨_, given, inferred⟩ := bind_eq_ok.mp inferred
  cases given
  obtain ⟨joined, together, inferred⟩ := bind_eq_ok.mp inferred
  obtain ⟨i, resolved, inferred⟩ := bind_eq_ok.mp inferred
  obtain ⟨reduced, made, inferred⟩ := bind_eq_ok.mp inferred
  obtain ⟨_, _, inferred⟩ := bind_eq_ok.mp inferred
  cases pure_eq_ok.mp inferred
  exact ⟨joined, i, Shape.broadcast_eq_ok.mp together, resolved,
    Shape.set_eq_ok (Axis.resolve_lt resolved) made⟩

section Step

variable {ρ : Element.Reading α R type} {axis : Axis} {sa sb s : Signature} {a b g : Tensor α}

/-- What the step does for each input. An input that is longer on the axis than the other one is
not given its gradient; every other input is given the adjoint of the forward step along it. -/
theorem scalarProduct_slots (inferred : (scalarProduct axis : Operator α).infer [sa, sb] = .ok s)
    (shapes : a.shape = sa.shape.extents ∧ b.shape = sb.shape.extents ∧ g.shape = s.shape.extents)
    (holds : ρ.Holds a ∧ ρ.Holds b ∧ ρ.Holds g) :
    ∃ i ca cb, axis.resolve s.shape.rank = .ok i ∧
      (∀ out wanted, (scalarProduct axis).contributions [a, b] out g wanted =
        [(0, .ok ca), (1, .ok cb)]) ∧
      (if Outruns s.shape.rank i a.shape b.shape then
        ∀ target : Tensor α, target.shape = a.shape → ca.addTo target = .error .value
      else ρ.AddsAdjoint ca a.shape g fun da =>
        (scalarProduct axis).forward type s.shape.extents [da, b]) ∧
      (if Outruns s.shape.rank i b.shape a.shape then
        ∀ target : Tensor α, target.shape = b.shape → cb.addTo target = .error .value
      else ρ.AddsAdjoint cb b.shape g fun db =>
        (scalarProduct axis).forward type s.shape.extents [a, db]) := by
  obtain ⟨joined, i, together, resolved, extents⟩ := scalarProduct_extents inferred
  obtain ⟨first, second, third⟩ := shapes
  obtain ⟨left, right, gradient⟩ := holds
  rw [extents] at third
  rw [← first, ← second] at together
  have axial : i < joined.extents.length := Axis.resolve_lt resolved
  have fits : Fits a.shape joined.extents := .of_broadcast together (by simp)
  have fits' : Fits b.shape joined.extents := .of_broadcast together (by simp)
  have rank : s.shape.rank = joined.extents.length := by
    rw [Shape.rank, extents, List.length_set]
  have meets := (joinExtents_eq_some.mp
    ((broadcast?_eq_some.mp together).2 (joined.extents.length - 1 - i))).2
  simp only [List.map_cons, List.map_nil, List.mem_cons, List.not_mem_nil, or_false] at meets
  obtain ⟨ca, made, met, read, entries⟩ :=
    Element.Reading.slot_multiplied gradient right axial third fits'
  obtain ⟨cb, made', met', read', entries'⟩ :=
    Element.Reading.slot_multiplied gradient left axial third fits
  refine ⟨i, .dense ca, .dense cb, rank ▸ resolved, ?_, ?_, ?_⟩
  · intro out wanted
    rw [contributions, made, made']
  · rw [rank]
    split
    next outruns =>
      exact fun target => Element.Reading.slot_fails read met joined.positive axial fits fits'
        (first ▸ sa.shape.positive) outruns
    next fair =>
      refine Element.Reading.slot_adjoint read met joined.positive axial fits fits' entries meets
        fair ?_
      intro d same direction
      obtain ⟨z, ran, shape, paired⟩ := Element.Reading.scalarProduct_forward joined.positive
        resolved (same ▸ together) direction right
      exact ⟨z, extents ▸ ran, shape.trans third.symm, paired g third⟩
  · rw [rank]
    split
    next outruns =>
      exact fun target => Element.Reading.slot_fails read' met' joined.positive axial fits' fits
        (second ▸ sb.shape.positive) outruns
    next fair =>
      refine Element.Reading.slot_adjoint read' met' joined.positive axial fits' fits entries'
        (meets.imp_right Or.symm) fair ?_
      intro d same direction
      obtain ⟨z, ran, shape, paired⟩ := Element.Reading.scalarProduct_forward joined.positive
        resolved (same ▸ together) left direction
      refine ⟨z, extents ▸ ran, shape.trans third.symm, (paired g third).trans ?_⟩
      exact Finset.sum_congr rfl fun q _ => by rw [mul_comm (ρ.val (a.read q))]

/-- The backward step of a product along an axis, for each input: one that is longer on the axis
than the other one is not given its gradient, and the step fails; every other one is given the
adjoint of the forward step along it, in a buffer that keeps its extents. Where neither is longer,
buffers of zeros then hold the derivative of the forward step. -/
theorem scalarProduct_adjoint (inferred : (scalarProduct axis : Operator α).infer [sa, sb] = .ok s)
    (shapes : a.shape = sa.shape.extents ∧ b.shape = sb.shape.extents ∧ g.shape = s.shape.extents)
    (holds : ρ.Holds a ∧ ρ.Holds b ∧ ρ.Holds g) :
    ∃ i ca cb, axis.resolve s.shape.rank = .ok i ∧
      (∀ out wanted, (scalarProduct axis).contributions [a, b] out g wanted =
        [(0, .ok ca), (1, .ok cb)]) ∧
      (if Outruns s.shape.rank i a.shape b.shape then
        ∀ target : Tensor α, target.shape = a.shape → ca.addTo target = .error .value
      else ρ.AddsAdjoint ca a.shape g fun da =>
        (scalarProduct axis).forward type s.shape.extents [da, b]) ∧
      (if Outruns s.shape.rank i b.shape a.shape then
        ∀ target : Tensor α, target.shape = b.shape → cb.addTo target = .error .value
      else ρ.AddsAdjoint cb b.shape g fun db =>
        (scalarProduct axis).forward type s.shape.extents [a, db]) ∧
      (¬ Outruns s.shape.rank i a.shape b.shape → ¬ Outruns s.shape.rank i b.shape a.shape →
        ∃ ta tb, ca.addTo (.full a.shape (Element.store type (Element.whole 0))) = .ok ta ∧
          cb.addTo (.full b.shape (Element.store type (Element.whole 0))) = .ok tb ∧
          ta.shape = a.shape ∧ tb.shape = b.shape ∧
          ∀ da db : Tensor α, da.shape = a.shape → db.shape = b.shape → ρ.Holds da → ρ.Holds db →
            ∃ y y', (scalarProduct axis).forward type s.shape.extents [da, b] = .ok y ∧
              (scalarProduct axis).forward type s.shape.extents [a, db] = .ok y' ∧
              ρ.pairing g y + ρ.pairing g y' = ρ.pairing ta da + ρ.pairing tb db) := by
  obtain ⟨i, ca, cb, resolved, made, left, right⟩ := scalarProduct_slots inferred shapes holds
  refine ⟨i, ca, cb, resolved, made, left, right, fun fair fair' => ?_⟩
  rw [if_neg fair] at left
  rw [if_neg fair'] at right
  exact left.both right

end Step

end Operator

namespace Sample

open Operator

/-- An array of integers of 64 bits that are all the same. -/
def stored (shape : List Nat) (n : Int) : Tensor Scalar := .full shape (.int .int64 n)

theorem stored_holds (shape : List Nat) (n : Int) : Element.int64.Holds (stored shape n) :=
  Element.Reading.holds_full (show Scalar.IsInt64 _ from ⟨n, rfl⟩) shape

def matrix : Signature := ⟨⟨[2, 3], by decide⟩, .int64⟩

def row : Signature := ⟨⟨[3], by decide⟩, .int64⟩

def sums : Signature := ⟨⟨[2, 1], by decide⟩, .int64⟩

def point : Signature := ⟨⟨[1], by decide⟩, .int64⟩

/-- A matrix and a row are multiplied along the rows of the matrix, and both are given gradients of
their extents. -/
theorem rows_adjoint : ∃ ca cb,
    (scalarProduct 1).contributions [stored [2, 3] 4, stored [3] 5] (stored [2, 1] 60)
      (stored [2, 1] 7) [true, true] = [(0, .ok ca), (1, .ok cb)] ∧
    ∃ ta tb, ca.addTo (stored [2, 3] 0) = .ok ta ∧ cb.addTo (stored [3] 0) = .ok tb ∧
      ta.shape = [2, 3] ∧ tb.shape = [3] ∧
      ∃ y y',
        (scalarProduct 1).forward (.int .int64) [2, 1] [stored [2, 3] 2, stored [3] 5] = .ok y ∧
        (scalarProduct 1).forward (.int .int64) [2, 1] [stored [2, 3] 4, stored [3] 3] = .ok y' ∧
        Element.int64.pairing (stored [2, 1] 7) y + Element.int64.pairing (stored [2, 1] 7) y' =
          Element.int64.pairing ta (stored [2, 3] 2) + Element.int64.pairing tb (stored [3] 3) := by
  have inferred : (scalarProduct 1 : Operator Scalar).infer [matrix, row] = .ok sums := rfl
  obtain ⟨i, ca, cb, resolved, made, -, -, both⟩ := scalarProduct_adjoint (ρ := Element.int64)
    (a := stored [2, 3] 4) (b := stored [3] 5) (g := stored [2, 1] 7) inferred ⟨rfl, rfl, rfl⟩
    ⟨stored_holds _ _, stored_holds _ _, stored_holds _ _⟩
  cases resolved
  obtain ⟨ta, tb, added, added', extents, extents', derivative⟩ :=
    both (by decide) (by decide)
  exact ⟨ca, cb, made _ _, ta, tb, added, added', extents, extents',
    derivative _ _ rfl rfl (stored_holds _ _) (stored_holds _ _)⟩

/-- Three numbers are multiplied with one number, and cannot be given their gradient. -/
theorem row_fails : (scalarProduct 0 : Operator Scalar).infer [row, point] = .ok point ∧
    ∃ ca cb, (scalarProduct 0).contributions [stored [3] 4, stored [1] 5] (stored [1] 60)
      (stored [1] 7) [true, true] = [(0, .ok ca), (1, .ok cb)] ∧
    ca.addTo (stored [3] 0) = .error .value := by
  have inferred : (scalarProduct 0 : Operator Scalar).infer [row, point] = .ok point := rfl
  refine ⟨inferred, ?_⟩
  obtain ⟨i, ca, cb, resolved, made, fails, -⟩ := scalarProduct_slots (ρ := Element.int64)
    (a := stored [3] 4) (b := stored [1] 5) (g := stored [1] 7) inferred ⟨rfl, rfl, rfl⟩
    ⟨stored_holds _ _, stored_holds _ _, stored_holds _ _⟩
  cases resolved
  rw [if_pos (by decide)] at fails
  exact ⟨ca, cb, made _ _, fails _ rfl⟩

end Sample

end ReverseMode
