import Mathlib.Algebra.BigOperators.Field
import Mathlib.Algebra.Order.Field.Basic
import ReverseMode.Proofs.DescentSums

/-!
Moments as weighted averages.

The averages that an optimizer keeps of a gradient and of its square start at zero, and a step
divides them by the total weight of all steps of the optimizer so far. In exact arithmetic what
comes out weighs the gradients that the parameter has been moved with, and none of them negatively.
The weights add up to one exactly where no step has passed the parameter over: the optimizer counts
its steps, and not those that move the parameter.
-/

namespace ReverseMode

open scoped Element

/-! ### Weights -/

section Weights

variable {F : Type} [Field F] [LinearOrder F] [IsStrictOrderedRing F] {β : F} {g : ℕ → F}
  {k t j : ℕ}

variable (positive : 0 < β) (proper : β < 1)

include positive proper

theorem remainder_pos (later : 0 < t) : 0 < 1 - β ^ t :=
  sub_pos.mpr (pow_lt_one₀ positive.le proper later.ne')

end Weights

/-! ### The rule -/

section Rule

open Element.Reading UpdateRule

variable {α R : Type} [Element α] [CommRing R] {type : StorageType}
  {ρ : Element.Reading α R type} {β β' : R} {decay first second : Decay α}

/-- The quantities of the decay by a number. -/
structure Decay.Weighs (ρ : Element.Reading α R type) (β : R) (decay : Decay α) : Prop where
  factor : ∃ x, decay.factor = .ok (.scalar x) ∧ ρ.val x = β
  complement : ∃ x, decay.complement = .ok (.scalar x) ∧ ρ.val x = 1 - β
  weight (t : ℕ) : ∃ x, decay.weight t = .ok (.scalar x) ∧ ρ.val x = 1 - β ^ t

namespace UpdateRule

variable {s : List ℕ} {v w g : List ℕ → R} {t d u y : Tensor α}

/-- An average moved on. -/
theorem nextAverage_exact (exact : ρ.Exact) (weighs : decay.Weighs ρ β)
    (held : ρ.Represents s v u) (new : ρ.Represents s w y) (i : ℕ) (ts : List (Tensor α)) :
    ∃ u', nextAverage i decay u y ⟨t, some ts⟩ = .ok u' ⟨t, some (ts.set i u')⟩ ∧
      ρ.Represents s (fun q => v q * β + (1 - β) * w q) u' := by
  obtain ⟨b, factor, rfl⟩ := weighs.factor
  obtain ⟨c, complement, value⟩ := weighs.complement
  obtain ⟨faded, fades, fading⟩ := exact.updateNumber (· * ·) exact.mul held b
  obtain ⟨amount, scaled, amounts⟩ := exact.scaled new c
  obtain ⟨u', updated, represents⟩ := exact.update (· + ·) exact.add fading amounts
  rw [value] at represents
  refine ⟨u', ?_, represents⟩
  rw [nextAverage, run_bind (given_answers factor _), run_bind (given_answers fades _),
    run_bind (setAverage_answers i ts), run_bind (given_answers complement _),
    run_bind (given_answers scaled _), run_bind (given_answers updated _),
    run_bind (setAverage_answers i _), List.set_set]
  rfl

end UpdateRule

end Rule

section Quotients

open Element.Reading

variable {α F : Type} [Element α] [Field F] {type : StorageType} {ρ : Element.Reading α F type}
  {β β' : F} {decay first second : Decay α}

namespace UpdateRule

variable {s : List ℕ} {v w g : List ℕ → F} {t d u y : Tensor α} {a : Option (List (Tensor α))}
  {steps : ℕ}

/-- A corrected average. -/
theorem corrected_exact (exact : ρ.Exact) (divides : ρ.Divides) (weighs : decay.Weighs ρ β)
    (held : ρ.Represents s v u) (remains : 1 - β ^ steps ≠ 0) :
    ∃ c, corrected decay steps u = .ok c ∧
      ρ.Represents s (fun q => v q / (1 - β ^ steps)) c := by
  obtain ⟨x, weight, value⟩ := weighs.weight steps
  refine ⟨u.map (· / x), ?_, ?_⟩
  · unfold corrected
    rw [weight]
    exact bind_eq_ok.mpr ⟨_, rfl, bind_eq_ok.mpr ⟨_, (Tensor.combine_number x u).2, exact.sound _⟩⟩
  · rw [← value] at remains ⊢
    exact held.map (· / ρ.val x) fun y _ => divides.quotient (exact.all y) (exact.all x) remains

/-- A value is moved by averages of its extents, which stay. -/
theorem moveByMoments_answers (exact : ρ.Exact) (rate eps : α) (value : t.shape = s)
    (mean : u.shape = s) (square : y.shape = s) :
    ∃ t', moveByMoments (.ok (.scalar rate)) (.ok (.scalar eps)) u y ⟨t, a⟩ = .ok () ⟨t', a⟩ := by
  obtain ⟨pull, scaled, pulls⟩ := exact.scaled (exact.represents mean) rate
  have spreads : ((y.map Element.sqrt).map (· + eps)).shape = s := square
  have quotient := Tensor.combine_alike (f := (· / ·)) (pulls.shape.trans spreads.symm)
  have move : ∀ x y : α, ρ.val (x - Element.like x y) = ρ.val x - ρ.val y := fun x y => by
    rw [exact.minus, (ρ.like (exact.all x) (exact.all y)).2]
  obtain ⟨t', moved, _⟩ := exact.update (· - ·) move (exact.represents value)
    (exact.represents (t := pull.zipWith (· / ·) ((y.map Element.sqrt).map (· + eps))) pulls.shape)
  refine ⟨t', ?_⟩
  rw [moveByMoments, run_bind (given_answers rfl _), run_bind (given_answers scaled _),
    run_bind (given_answers rfl _),
    run_bind (given_answers (Tensor.combine_number eps _).2 _),
    run_bind (given_answers quotient _)]
  exact moveValue_answers moved

/-- A rule that moves values by averages with decays by numbers. -/
inductive Weighs (ρ : Element.Reading α F type) (β β' : F) : UpdateRule α → Prop
  | moments {rate eps : α} {first second : Decay α} (mean : first.Weighs ρ β)
    (square : second.Weighs ρ β') :
    Weighs ρ β β' (.moments (.ok (.scalar rate)) first second (.ok (.scalar eps)))

/-- A rule has moved a value by two averages, which it has corrected for the steps so far. -/
inductive MovesBy (steps : ℕ) (x mean square : Tensor α) : UpdateRule α → Moving α → Prop
  | moments {rate eps : Quantity α} {first second : Decay α} {m v : Tensor α} {x' : Tensor α}
    (average : corrected first steps m = .ok mean)
    (average' : corrected second steps v = .ok square)
    (moved : moveByMoments rate eps mean square ⟨x, some [m, v]⟩ = .ok () ⟨x', some [m, v]⟩) :
    MovesBy steps x mean square (.moments rate first second eps) ⟨x', some [m, v]⟩

theorem Weighs.defined {rule : UpdateRule α} (weighs : rule.Weighs ρ β β') :
    rule ≠ .undefined := by
  rintro rfl
  cases weighs

/-- A step of such a rule moves both averages on, and the value by what they are corrected to. -/
theorem Weighs.step {rule : UpdateRule α} (weighs : rule.Weighs ρ β β') (exact : ρ.Exact)
    (divides : ρ.Divides) (value : t.shape = s) (grad : ρ.Represents s g d)
    (kept : ρ.Averages s [v, w] a) (remains : 1 - β ^ steps ≠ 0) (remains' : 1 - β' ^ steps ≠ 0) :
    ∃ m mean square, rule.step steps d ⟨t, a⟩ = .ok () m ∧ rule.MovesBy steps t mean square m ∧
      ρ.Averages s [fun q => v q * β + (1 - β) * g q, fun q => w q * β' + (1 - β') * g q ^ 2]
        m.averages ∧
      ρ.Represents s (fun q => (v q * β + (1 - β) * g q) / (1 - β ^ steps)) mean ∧
      ρ.Represents s (fun q => (w q * β' + (1 - β') * g q ^ 2) / (1 - β' ^ steps)) square := by
  obtain @⟨rate, eps, first, second, mean, square⟩ := weighs
  obtain ⟨ts, started, each⟩ := averages_exact exact 2 kept rfl value
  obtain ⟨m, _, held, each', rfl⟩ := List.forall₂_cons_left_iff.mp each
  obtain ⟨u, _, held', none, rfl⟩ := List.forall₂_cons_left_iff.mp each'
  cases none
  have squares : ρ.Represents s (fun q => g q ^ 2) (d.map fun x => x * x) :=
    (grad.map (fun x => x * x) fun x _ => ⟨exact.all _, exact.mul x x⟩).congr
      fun q _ => (sq (g q)).symm
  obtain ⟨m', next, average⟩ := nextAverage_exact (t := t) exact mean held grad 0 [m, u]
  obtain ⟨u', next', average'⟩ := nextAverage_exact (t := t) exact square held' squares 1 [m', u]
  obtain ⟨c, corrected, corrects⟩ := corrected_exact exact divides mean average remains
  obtain ⟨c', corrected', corrects'⟩ := corrected_exact exact divides square average' remains'
  obtain ⟨t', moved⟩ := moveByMoments_answers (a := some [m', u']) exact rate eps value
    corrects.shape corrects'.shape
  refine ⟨_, c, c', ?_, .moments corrected corrected' moved,
    .some (.cons average (.cons average' .nil)), corrects, corrects'⟩
  rw [UpdateRule.step, run_bind started]
  dsimp only
  rw [run_bind next]
  dsimp only [List.set]
  rw [run_bind next', run_bind (given_answers corrected _), run_bind (given_answers corrected' _)]
  exact moved

end UpdateRule

end Quotients

/-! ### Moments -/

namespace Element.Reading

variable {α R : Type} [Element α] [CommRing R] {type : StorageType}

/-- The average, started at zero, of a function of the entries at a position along some arrays. -/
def moment (ρ : Element.Reading α R type) (β : R) (z : R → R) (ds : List (Tensor α))
    (q : List ℕ) : R :=
  (1 - β) * aged β (fun j => z (ρ.series ds q j)) ds.length

variable {ρ : Element.Reading α R type} {ds : List (Tensor α)} {d : Tensor α} {q : List ℕ} {β : R}
  {z : R → R}

theorem moment_nil : ρ.moment β z [] q = 0 := by
  rw [moment, List.length_nil, aged_zero, mul_zero]

theorem moment_append : ρ.moment β z (ds ++ [d]) q =
    ρ.moment β z ds q * β + (1 - β) * z (ρ.entry d q) := by
  rw [moment, List.length_append, List.length_singleton, aged_succ, series_last,
    aged_congr fun j below => congrArg z (series_append below), moment]
  ring

end Element.Reading

/-! ### Runs -/

namespace Session

open Element.Reading

variable {α F : Type} [Element α] [Field F] [LinearOrder F] [IsStrictOrderedRing F]
  {type : StorageType} {ρ : Element.Reading α F type} {β β' : F} {number : ℕ} {n : Node α}
  {o : Optimizer α} {s₀ s : Session α} {gs : List (Option (Tensor α))} {known : Node α → Prop}

/-- A run in which an optimizer moves a parameter that it has to itself by averages, of which there
are none at the start. -/
structure Averaging (ρ : Element.Reading α F type) (β β' : F) (number : ℕ) (n : Node α)
    (o : Optimizer α) (s₀ : Session α) (gs : List (Option (Tensor α))) (known : Node α → Prop)
    (s : Session α) : Prop where
  rule : o.rule.Weighs ρ β β'
  positive : 0 < β ∧ 0 < β'
  proper : β < 1 ∧ β' < 1
  lone : o.Lone n
  fresh : o.state? n.label = none
  record : s₀.optimizers[number]? = some o
  run : Run (fun _ _ => True) number n s₀ gs known s

/-- What an optimizer keeps are the averages of some gradients and of their squares. -/
def Averaged (ρ : Element.Reading α F type) (β β' : F) (number : ℕ) (n : Node α)
    (ds : List (Tensor α)) (s : Session α) : Prop :=
  ρ.Averages n.shape.extents [ρ.moment β (fun x => x) ds, ρ.moment β' (· ^ 2) ds]
    (s.course number n).averages

namespace Averaging

/-- A gradient can be applied, and is one more. -/
theorem applies (averaging : Averaging ρ β β' number n o s₀ gs known s) (exact : ρ.Exact)
    (divides : ρ.Divides) {ds : List (Tensor α)} (averaged : Averaged ρ β β' number n ds s)
    {steps : ℕ} (later : 0 < steps) {x d : Tensor α} (value : x.shape = n.shape.extents)
    (grad : d.shape = n.shape.extents) :
    ∃ m mean square, o.rule.step steps d ⟨x, (s.course number n).averages⟩ = .ok () m ∧
      o.rule.MovesBy steps x mean square m ∧
      ρ.Averages n.shape.extents
        [ρ.moment β (fun x => x) (ds ++ [d]), ρ.moment β' (· ^ 2) (ds ++ [d])] m.averages ∧
      ∀ q ∈ positions n.shape.extents,
        ρ.entry mean q = ρ.moment β (fun x => x) (ds ++ [d]) q / (1 - β ^ steps) ∧
          ρ.entry square q = ρ.moment β' (· ^ 2) (ds ++ [d]) q / (1 - β' ^ steps) := by
  have remains := (remainder_pos averaging.positive.1 averaging.proper.1 later).ne'
  have remains' := (remainder_pos averaging.positive.2 averaging.proper.2 later).ne'
  obtain ⟨m, mean, square, applied, moves, kept, means, squares⟩ := averaging.rule.step exact
    divides value (exact.represents grad) averaged remains remains'
  have first : ρ.moment β (fun x => x) (ds ++ [d]) =
      fun q => ρ.moment β (fun x => x) ds q * β + (1 - β) * ρ.entry d q :=
    funext fun _ => moment_append
  have second : ρ.moment β' (· ^ 2) (ds ++ [d]) =
      fun q => ρ.moment β' (· ^ 2) ds q * β' + (1 - β') * ρ.entry d q ^ 2 :=
    funext fun _ => moment_append
  rw [first, second]
  exact ⟨m, mean, square, applied, moves, kept, fun q inside =>
    ⟨means.entry q inside, squares.entry q inside⟩⟩

/-- Along a run the gradients of the steps that move the parameter are averaged. -/
theorem averaged (averaging : Averaging ρ β β' number n o s₀ gs known s) (exact : ρ.Exact)
    (divides : ρ.Divides) : Averaged ρ β β' number n gs.reduceOption s := by
  obtain ⟨rule, positive, proper, lone, fresh, record, run⟩ := averaging
  induction run with
  | start attained =>
    rw [Averaged, course_eq record, fresh, List.reduceOption_nil]
    refine .none fun v mem q => ?_
    obtain rfl | rfl : v = _ ∨ v = _ := by simpa using mem
    · exact moment_nil
    · exact moment_nil
  | aside _ _ same _ ih =>
    rw [Averaged, course, same]
    exact ih
  | @step gs _ s _ before answered ih =>
    obtain ⟨idle, moves⟩ := before.next record lone answered
    rw [Averaged, List.reduceOption_append, List.reduceOption_singleton]
    cases pulled : s.pull n with
    | none =>
      rw [idle pulled, Option.toList_none, List.append_nil]
      exact ih
    | some d =>
      obtain ⟨x, m, _, value, grad, applied, course⟩ := moves d pulled
      obtain ⟨_, _, _, applied', _, kept, _⟩ :=
        applies ⟨rule, positive, proper, lone, fresh, record, before⟩ exact divides ih
          (Nat.succ_pos _) value grad
      cases applied.symm.trans applied'
      rw [course, Option.toList_some]
      exact kept

/-- The rule can always be applied to the parameter. -/
theorem able (averaging : Averaging ρ β β' number n o s₀ gs known s) (exact : ρ.Exact)
    (divides : ρ.Divides) : (s.course number n).begun.fault? o.rule (s.gradOf n) = none := by
  refine averaging.run.able averaging.record averaging.lone fun x d _ value grad => ?_
  obtain ⟨m, _, _, applied, _⟩ := averaging.applies exact divides
    (averaging.averaged exact divides) (Nat.succ_pos _) value grad
  exact ⟨m, applied⟩

end Averaging

end Session

/-! ### Examples -/

namespace Sample

open Session UpdateRule

end Sample

end ReverseMode
