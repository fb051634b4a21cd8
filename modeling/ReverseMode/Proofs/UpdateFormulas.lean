import ReverseMode.Proofs.Exact
import ReverseMode.Proofs.FloatNumbers
import ReverseMode.Proofs.TypedSteps

/-!
Update rules as they are documented.

A `Formula` is an update rule with the numbers of one step, written out element by element. An
optimizer changes arrays in place, one operation after the other, and each of these may be refused.
On floats none is: a step of a rule answers, and what it leaves is what the formula says
(`UpdateRule.step_formula`).
-/

namespace ReverseMode

open scoped Element Scalar

namespace Scalar

/-- A float may take the place of any other one. -/
theorem Floating.replace {x y : Scalar} (float : x.Floating) (other : y.Floating) :
    (Element.replace x y).Floating := by
  obtain ⟨s, typed, wide⟩ := float
  have admitted : s.admits y.ownType = true := by
    have narrow := other.ownType
    rcases wide with rfl | rfl | rfl <;> rcases narrow with same | same | same <;> rw [same] <;> rfl
  change (Scalar.replace x y).Floating
  rw [Scalar.replace, ownType_of_type? typed, if_pos admitted]
  exact ⟨s, type?_store other.refusal?, wide⟩

end Scalar

/-! ### Arrays -/

namespace Tensor

section Pointwise

variable {α : Type} [Element α] {t u target operand r : Tensor α} {shape pos : List Nat}
  {f : α → α → α}

theorem zipWith_map_right (h : α → α) (same : t.shape = u.shape) :
    t.zipWith f (u.map h) = t.zipWith (fun x y => f x (h y)) u := by
  refine ext_get rfl fun pos inside => ?_
  have inside : pos ∈ positions t.shape := inside
  rw [zipWith, get_ofFn inside, get_map h (same ▸ inside), zipWith, get_ofFn inside]

theorem zipWith_map_left (h : α → α) :
    (t.map h).zipWith f u = t.zipWith (fun x y => f (h x) y) u := by
  refine ext_get rfl fun pos inside => ?_
  have inside : pos ∈ positions t.shape := inside
  change (ofFn t.shape _).get pos = (ofFn t.shape _).get pos
  rw [get_ofFn inside, get_map h inside, get_ofFn inside]

/-- Arrays of the same extents. -/
theorem combine_alike (same : t.shape = u.shape) : t.combine f u = .ok (t.zipWith f u) := by
  have joined : broadcast? [t.shape, u.shape] = some t.shape := by
    rw [← same]
    exact broadcast?_eq_some.mpr
      ⟨by simp [maxRank], fun j => by simp [joinExtents_eq_some]⟩
  rw [combine, joined]
  refine congrArg Except.ok (ext_get rfl fun pos inside => ?_)
  have inside : pos ∈ positions t.shape := inside
  rw [get_ofFn inside, zipWith, get_ofFn inside, read_self inside, read_self (same ▸ inside)]

/-- A change in place that no element refuses. -/
theorem updateInPlace_of_combine
    (combined : target.combine (fun x y => Element.replace x (f x y)) operand = .ok r)
    (same : r.shape = target.shape)
    (each : ∀ x ∈ target.toList, ∀ y ∈ operand.toList,
      Element.refusal? (Element.replace x (f x y)) = none) :
    target.updateInPlace f operand = .ok r := by
  have sampled : (List.zipWith (fun x y => Element.replace x (f x y)) (target.toList.take 1)
      (operand.toList.take 1)).findSome? Element.refusal? = none := by
    refine List.findSome?_eq_none_iff.mpr fun z mem => ?_
    obtain ⟨i, bound, rfl⟩ := List.getElem_of_mem mem
    rw [List.getElem_zipWith]
    exact each _ (List.mem_of_mem_take (List.getElem_mem _)) _
      (List.mem_of_mem_take (List.getElem_mem _))
  unfold updateInPlace
  simp only [sampled, combined]
  exact if_pos same

end Pointwise

/-! ### Arrays of floats -/

/-- An array of floats with these extents. -/
structure Floating (shape : List Nat) (t : Tensor Scalar) : Prop where
  shape : t.shape = shape
  elements : ∀ x ∈ t.toList, x.Floating

namespace Floating

variable {t u target operand : Tensor Scalar} {shape : List Nat}

theorem map (floats : t.Floating shape) {f : Scalar → Scalar}
    (each : ∀ x, x.Floating → (f x).Floating) : (t.map f).Floating shape := by
  refine ⟨floats.shape, fun y mem => ?_⟩
  rw [toList_map] at mem
  obtain ⟨x, inside, rfl⟩ := List.mem_map.mp mem
  exact each x (floats.elements x inside)

theorem zipWith (first : t.Floating shape) (second : u.Floating shape)
    {f : Scalar → Scalar → Scalar}
    (each : ∀ x y, x.Floating → y.Floating → (f x y).Floating) :
    (t.zipWith f u).Floating shape := by
  refine ⟨first.shape, fun z mem => ?_⟩
  obtain ⟨pos, inside, rfl⟩ := mem_toList_ofFn.mp mem
  have inside' : pos ∈ positions u.shape := second.shape ▸ first.shape ▸ inside
  exact each _ _ (first.elements _ (get_mem inside)) (second.elements _ (get_mem inside'))

/-- What the rules write over an array. -/
theorem update (floats : target.Floating shape) (other : operand.Floating shape)
    {f : Scalar → Scalar → Scalar} (each : ∀ x y, x.Floating → y.Floating → (f x y).Floating) :
    target.updateInPlace f operand =
      .ok (target.zipWith (fun x y => Element.replace x (f x y)) operand) :=
  updateInPlace_of_combine (combine_alike (floats.shape.trans other.shape.symm)) rfl
    fun x mem y mem' => ((floats.elements x mem).replace
      (each x y (floats.elements x mem) (other.elements y mem'))).refusal?

theorem updateNumber (floats : target.Floating shape) (c : Scalar) {f : Scalar → Scalar → Scalar}
    (each : ∀ x, x.Floating → (f x c).Floating) :
    target.updateInPlace f (.scalar c) =
      .ok (target.map fun x => Element.replace x (f x c)) := by
  refine updateInPlace_of_combine (combine_number c target).2 rfl fun x mem y mem' => ?_
  obtain rfl : y = c := by simpa [scalar, Tensor.toList] using mem'
  exact ((floats.elements x mem).replace (each x (floats.elements x mem))).refusal?

theorem sound (floats : t.Floating shape) : t.sound = .ok t :=
  sound_eq_ok.mpr ⟨rfl, fun x mem => (floats.elements x mem).refusal?⟩

end Floating

end Tensor

/-! ### Formulas -/

/-- The numbers of a decay in one step. -/
structure Weights (α : Type) where
  /-- The decay. -/
  past : α
  /-- One less the decay. -/
  present : α
  /-- One less the decay to the power of the number of steps. -/
  total : α

/-- An update rule as it is documented, with the numbers of one step. -/
inductive Formula (α : Type) where
  /-- `param = param - lr * grad`. -/
  | descent (rate : α)
  /-- `velocity = momentum * velocity - lr * grad` and `param = param + velocity`. -/
  | momentum (rate factor : α)
  /-- `m = beta1 * m + (1 - beta1) * grad`, `v = beta2 * v + (1 - beta2) * grad ^ 2`, both corrected
  for their start at zero, and `param = param - lr * m_hat / (sqrt(v_hat) + eps)`. -/
  | moments (rate : α) (first second : Weights α) (eps : α)

/-- The numbers of a decay combine with floats. -/
structure Weights.Amenable (w : Weights Scalar) : Prop where
  past : w.past.Amenable
  present : w.present.Amenable
  total : w.total.Amenable

/-- A value, and as many averages as are kept once there are any, of floats with these extents. -/
structure Moving.Floating (count : Nat) (shape : List Nat) (m : Moving Scalar) : Prop where
  value : m.value.Floating shape
  averages : ∀ ts ∈ m.averages, ts.length = count ∧ ∀ t ∈ ts, t.Floating shape

namespace Formula

section Elements

variable {α : Type} [Element α]

/-- The next velocity of an element. -/
def slowed (rate factor velocity grad : α) : α :=
  let faded := Element.replace velocity (velocity * factor)
  Element.replace faded (faded - rate * grad)

/-- The next average of an element. -/
def mixed (w : Weights α) (average x : α) : α :=
  let faded := Element.replace average (average * w.past)
  Element.replace faded (faded + w.present * x)

/-- How far an element moves by its averages. -/
def pull (rate : α) (first second : Weights α) (eps m v : α) : α :=
  rate * (m / first.total) / (Element.sqrt (v / second.total) + eps)

/-- A velocity or an average; zeros like the value where there is none yet. -/
def average (i : Nat) (m : Moving α) : Tensor α :=
  (m.averages.bind fun ts => ts[i]?).getD (UpdateRule.zerosLike m.value)

/-- One application to a value and its averages. -/
def apply (grad : Tensor α) (m : Moving α) : Formula α → Moving α
  | descent rate =>
    { m with value := m.value.zipWith (fun x g => Element.replace x (x - rate * g)) grad }
  | momentum rate factor =>
    let velocity := (average 0 m).zipWith (slowed rate factor) grad
    ⟨m.value.zipWith (fun x v => Element.replace x (x + v)) velocity, some [velocity]⟩
  | moments rate first second eps =>
    let mean := (average 0 m).zipWith (mixed first) grad
    let square := (average 1 m).zipWith (mixed second) (grad.map fun g => g * g)
    ⟨m.value.zipWith (fun x d => Element.replace x (x - Element.like x d))
      (mean.zipWith (pull rate first second eps) square), some [mean, square]⟩

/-- How many arrays a rule keeps beside the value. -/
def count : Formula α → Nat
  | descent _ => 0
  | momentum _ _ => 1
  | moments _ _ _ _ => 2

end Elements

/-- The numbers of a formula combine with floats. -/
def Amenable : Formula Scalar → Prop
  | descent rate => rate.Amenable
  | momentum rate factor => rate.Amenable ∧ factor.Amenable
  | moments rate first second eps =>
    rate.Amenable ∧ first.Amenable ∧ second.Amenable ∧ eps.Amenable

section Floating

open Scalar (Floating)

variable {rate factor x y g : Scalar} {w : Weights Scalar} {grad : Tensor Scalar}
  {m : Moving Scalar} {shape : List Nat} {count : Nat}

theorem floating_slowed (known : rate.Amenable) (known' : factor.Amenable) (float : x.Floating)
    (other : g.Floating) : (slowed rate factor x g).Floating := by
  have faded := float.replace (float.mul known')
  exact faded.replace (faded.sub (other.mul_left known).amenable)

theorem floating_mixed (known : w.Amenable) (float : x.Floating) (other : g.Floating) :
    (mixed w x g).Floating := by
  have faded := float.replace (float.mul known.past)
  exact faded.replace (faded.add (other.mul_left known.present).amenable)

theorem floating_pull {first second : Weights Scalar} {eps v : Scalar} (known : rate.Amenable)
    (known₁ : first.Amenable) (known₂ : second.Amenable) (known' : eps.Amenable)
    (float : x.Floating) (other : v.Floating) : (pull rate first second eps x v).Floating :=
  ((float.div known₁.total).mul_left known).div
    ((other.div known₂.total).sqrt.add known').amenable

theorem floating_zerosLike (floats : m.value.Floating shape) :
    (UpdateRule.zerosLike m.value).Floating shape :=
  floats.map fun _ float => float.like rfl

theorem floating_average (floats : m.Floating count shape) (i : Nat) :
    (average i m).Floating shape := by
  unfold average
  cases kept : m.averages with
  | none => exact floating_zerosLike floats.value
  | some ts =>
    rw [Option.bind_some]
    cases found : ts[i]? with
    | none => exact floating_zerosLike floats.value
    | some t => exact (floats.averages ts kept).2 t (List.mem_of_getElem? found)

/-- The averages that a rule starts from. -/
theorem averages_run (floats : m.Floating count shape) :
    (UpdateRule.averages count : MovingM Scalar _) m =
      .ok ((List.range count).map (average · m))
        { m with averages := some ((List.range count).map (average · m)) } := by
  have held : m.averages.getD (List.replicate count (UpdateRule.zerosLike m.value)) =
      (List.range count).map (average · m) := by
    cases kept : m.averages with
    | none =>
      refine List.ext_getElem (by simp) fun i _ _ => ?_
      simp [average, kept]
    | some ts =>
      have length := (floats.averages ts kept).1
      refine List.ext_getElem (by simp [length]) fun i _ bound => ?_
      have below : i < ts.length := by simpa [length] using bound
      simp [average, kept, below]
  rw [← held]
  rfl

end Floating

end Formula

/-! ### Steps -/

namespace Decay

/-- The quantities of a decay are numbers in a step. -/
structure Uses (steps : Nat) (d : Decay Scalar) (w : Weights Scalar) : Prop where
  factor : d.factor = .ok (.scalar w.past)
  complement : d.complement = .ok (.scalar w.present)
  weight : d.weight steps = .ok (.scalar w.total)

end Decay

namespace UpdateRule

open Formula (slowed mixed pull average)
/-- The quantities of a rule are the numbers of a formula in a step. -/
inductive Uses (steps : Nat) : UpdateRule Scalar → Formula Scalar → Prop
  | descent {rate : Scalar} {momentum : Momentum Scalar} (none : momentum.none = .ok true) :
    Uses steps (.descent (.ok (.scalar rate)) momentum) (.descent rate)
  | momentum {rate factor : Scalar} {momentum : Momentum Scalar} (some : momentum.none = .ok false)
    (number : momentum.factor = .ok (.scalar factor)) :
    Uses steps (.descent (.ok (.scalar rate)) momentum) (.momentum rate factor)
  | moments {rate eps : Scalar} {d₁ d₂ : Decay Scalar} {first second : Weights Scalar}
    (uses : d₁.Uses steps first) (uses' : d₂.Uses steps second) :
    Uses steps (.moments (.ok (.scalar rate)) d₁ d₂ (.ok (.scalar eps)))
      (.moments rate first second eps)

variable {β : Type} {grad : Tensor Scalar} {m : Moving Scalar} {shape : List Nat} {steps : Nat}

theorem given_run {e : Except Fault β} {b : β} (made : e = .ok b) :
    (given e : MovingM Scalar β) m = .ok b m := by
  rw [made]
  rfl

theorem moveValue_run {f : Scalar → Scalar → Scalar} {operand moved : Tensor Scalar}
    (updated : m.value.updateInPlace f operand = .ok moved) :
    moveValue f operand m = .ok () { m with value := moved } := by
  have got : (get : MovingM Scalar _) m = .ok m m := rfl
  rw [moveValue, run_bind got, run_bind (given_run updated)]
  rfl

theorem descend_run {rate : Scalar} (known : rate.Amenable) (floats : m.value.Floating shape)
    (floats' : grad.Floating shape) : descend (.ok (.scalar rate)) grad m =
      .ok () ((Formula.descent rate).apply grad m) := by
  have pull := floats'.map fun _ float => float.mul_left known
  rw [descend, run_bind (given_run rfl), run_bind (given_run (Tensor.combine_number rate grad).1)]
  rw [moveValue_run (floats.update pull fun x y float other => float.sub other.amenable),
    Tensor.zipWith_map_right _ (floats.shape.trans floats'.shape.symm)]
  rfl

theorem setAverage_run (i : Nat) (t : Tensor Scalar) :
    (setAverage i t : MovingM Scalar Unit) m =
      .ok () { m with averages := m.averages.map fun ts => ts.set i t } := rfl

theorem descendWith_run {rate factor : Scalar} (known : rate.Amenable) (known' : factor.Amenable)
    (floats : m.Floating 1 shape) (floats' : grad.Floating shape) :
    descendWith (.ok (.scalar rate)) (.ok (.scalar factor)) grad m =
      .ok () ((Formula.momentum rate factor).apply grad m) := by
  have started : (averages 1 : MovingM Scalar _) m =
      .ok [average 0 m] { m with averages := some [average 0 m] } := Formula.averages_run floats
  have velocity := Formula.floating_average floats 0
  have faded := velocity.map fun _ float => float.replace (float.mul known')
  have pull := floats'.map fun _ float => float.mul_left known
  have same := velocity.shape.trans floats'.shape.symm
  have next : (average 0 m).zipWith (slowed rate factor) grad =
      ((average 0 m).map fun x => Element.replace x (x * factor)).zipWith
        (fun x y => Element.replace x (x - y)) (grad.map (rate * ·)) := by
    rw [Tensor.zipWith_map_left, Tensor.zipWith_map_right _ same]
    rfl
  have slowed := velocity.zipWith floats' fun _ _ => Formula.floating_slowed known known'
  rw [descendWith, run_bind started]
  dsimp only
  rw [run_bind (given_run rfl),
    run_bind (given_run (velocity.updateNumber factor fun _ float => float.mul known')),
    run_bind (setAverage_run 0 _), run_bind (given_run rfl),
    run_bind (given_run (Tensor.combine_number rate grad).1),
    run_bind (given_run (faded.update pull fun _ _ float other => float.sub other.amenable)),
    run_bind (setAverage_run 0 _), ← next]
  exact moveValue_run (floats.value.update slowed fun _ _ float other => float.add other.amenable)

theorem nextAverage_run {decay : Decay Scalar} {w : Weights Scalar} (uses : decay.Uses steps w)
    (known : w.Amenable) {held x : Tensor Scalar} (floats : held.Floating shape)
    (floats' : x.Floating shape) (i : Nat) {ts : List (Tensor Scalar)} {value : Tensor Scalar} :
    nextAverage i decay held x ⟨value, some ts⟩ =
      .ok (held.zipWith (mixed w) x) ⟨value, some (ts.set i (held.zipWith (mixed w) x))⟩ := by
  have faded := floats.map fun _ float => float.replace (float.mul known.past)
  have amount := floats'.map fun _ float => float.mul_left known.present
  have next : held.zipWith (mixed w) x =
      (held.map fun x => Element.replace x (x * w.past)).zipWith
        (fun x y => Element.replace x (x + y)) (x.map (w.present * ·)) := by
    rw [Tensor.zipWith_map_left,
      Tensor.zipWith_map_right _ (floats.shape.trans floats'.shape.symm)]
    rfl
  rw [nextAverage, run_bind (given_run uses.factor),
    run_bind (given_run (floats.updateNumber w.past fun _ float => float.mul known.past)),
    run_bind (setAverage_run i _), run_bind (given_run uses.complement),
    run_bind (given_run (Tensor.combine_number w.present x).1),
    run_bind (given_run (faded.update amount fun _ _ float other => float.add other.amenable)),
    run_bind (setAverage_run i _), ← next, Option.map_some, Option.map_some, List.set_set]
  rfl

theorem corrected_eq {decay : Decay Scalar} {w : Weights Scalar} (uses : decay.Uses steps w)
    (known : w.Amenable) {held : Tensor Scalar} (floats : held.Floating shape) :
    corrected decay steps held = .ok (held.map (· / w.total)) := by
  have quotient := floats.map fun _ float => float.div known.total
  unfold corrected
  rw [uses.weight]
  exact bind_eq_ok.mpr ⟨_, rfl, bind_eq_ok.mpr
    ⟨_, (Tensor.combine_number w.total held).2, quotient.sound⟩⟩

theorem moveByMoments_run {rate eps : Scalar} {first second : Weights Scalar}
    (known : rate.Amenable) (known₁ : first.Amenable) (known₂ : second.Amenable)
    (known' : eps.Amenable) {mean square : Tensor Scalar} (floats : m.value.Floating shape)
    (floats₁ : mean.Floating shape) (floats₂ : square.Floating shape) :
    moveByMoments (.ok (.scalar rate)) (.ok (.scalar eps)) (mean.map (· / first.total))
        (square.map (· / second.total)) m =
      .ok () ⟨m.value.zipWith (fun x d => Element.replace x (x - Element.like x d))
        (mean.zipWith (pull rate first second eps) square), m.averages⟩ := by
  have same := floats₁.shape.trans floats₂.shape.symm
  have pulls := (floats₁.map fun _ float => float.div known₁.total).map
    fun _ float => float.mul_left known
  have spreads := ((floats₂.map fun _ float => float.div known₂.total).map
    fun _ float => float.sqrt).map fun _ float => float.add known'
  have moves : ((mean.map (· / first.total)).map (rate * ·)).zipWith (· / ·)
      (((square.map (· / second.total)).map Element.sqrt).map (· + eps)) =
      mean.zipWith (pull rate first second eps) square := by
    rw [Tensor.zipWith_map_left, Tensor.zipWith_map_left,
      Tensor.zipWith_map_right (u := (square.map (· / second.total)).map Element.sqrt) _ same,
      Tensor.zipWith_map_right (u := square.map (· / second.total)) _ same,
      Tensor.zipWith_map_right _ same]
    rfl
  have move := floats₁.zipWith floats₂ fun _ _ =>
    Formula.floating_pull known known₁ known₂ known'
  rw [moveByMoments, run_bind (given_run rfl),
    run_bind (given_run (Tensor.combine_number rate _).1), run_bind (given_run rfl),
    run_bind (given_run (Tensor.combine_number eps _).2),
    run_bind (given_run (Tensor.combine_alike (pulls.shape.trans spreads.shape.symm))), moves]
  exact moveValue_run (floats.update move fun x y float other =>
    float.sub (float.like other.refusal?).amenable)

theorem moments_run {rate eps : Scalar} {d₁ d₂ : Decay Scalar} {first second : Weights Scalar}
    (uses : d₁.Uses steps first) (uses' : d₂.Uses steps second)
    (known : (Formula.moments rate first second eps).Amenable) (floats : m.Floating 2 shape)
    (floats' : grad.Floating shape) :
    UpdateRule.step (.moments (.ok (.scalar rate)) d₁ d₂ (.ok (.scalar eps))) steps grad m =
      .ok () ((Formula.moments rate first second eps).apply grad m) := by
  obtain ⟨known, known₁, known₂, known'⟩ := known
  have started : (averages 2 : MovingM Scalar _) m =
      .ok [average 0 m, average 1 m] { m with averages := some [average 0 m, average 1 m] } :=
    Formula.averages_run floats
  have squares := floats'.map (f := fun g => g * g) fun _ float => float.mul float.amenable
  have mean := (Formula.floating_average floats 0).zipWith floats' fun _ _ =>
    Formula.floating_mixed known₁
  have square := (Formula.floating_average floats 1).zipWith squares fun _ _ =>
    Formula.floating_mixed known₂
  rw [UpdateRule.step, run_bind started]
  dsimp only
  rw [run_bind (nextAverage_run uses known₁ (Formula.floating_average floats 0) floats' 0),
    run_bind (nextAverage_run uses' known₂ (Formula.floating_average floats 1) squares 1),
    run_bind (given_run (corrected_eq uses known₁ mean)),
    run_bind (given_run (corrected_eq uses' known₂ square))]
  exact moveByMoments_run known known₁ known₂ known' floats.value mean square

/-- On floats a step of a rule ends, and has applied its formula once. -/
theorem step_formula {rule : UpdateRule Scalar} {q : Formula Scalar} (uses : rule.Uses steps q)
    (known : q.Amenable) (floats : m.Floating q.count shape) (floats' : grad.Floating shape) :
    rule.step steps grad m = .ok () (q.apply grad m) := by
  cases uses with
  | @descent rate momentum none =>
    have plain : (given momentum.none : MovingM Scalar Bool) m = .ok true m := given_run none
    rw [UpdateRule.step, run_bind plain]
    exact descend_run known floats.value floats'
  | @momentum rate factor momentum some number =>
    have kept : (given momentum.none : MovingM Scalar Bool) m = .ok false m := given_run some
    rw [UpdateRule.step, run_bind kept, number]
    exact descendWith_run known.1 known.2 floats floats'
  | moments uses uses' => exact moments_run uses uses' known floats floats'

end UpdateRule

/-- What a formula leaves are floats again. -/
theorem Formula.apply_floating {q : Formula Scalar} {grad : Tensor Scalar} {m : Moving Scalar}
    {shape : List Nat} (known : q.Amenable) (floats : m.Floating q.count shape)
    (floats' : grad.Floating shape) : (q.apply grad m).Floating q.count shape := by
  have average (i : Nat) := floating_average floats i
  cases q with
  | descent rate =>
    have value := floats.value.zipWith floats' (f := fun x g => Element.replace x (x - rate * g))
      fun _ _ float other => float.replace (float.sub (other.mul_left known).amenable)
    exact ⟨value, floats.averages⟩
  | momentum rate factor =>
    have velocity := (average 0).zipWith floats' fun _ _ => floating_slowed known.1 known.2
    have value := floats.value.zipWith velocity (f := fun x v => Element.replace x (x + v))
      fun _ _ float other => float.replace (float.add other.amenable)
    refine ⟨value, fun ts kept => ?_⟩
    cases kept
    exact ⟨rfl, by simpa using velocity⟩
  | moments rate first second eps =>
    obtain ⟨known, known₁, known₂, known'⟩ := known
    have squares := floats'.map (f := fun g => g * g) fun _ float => float.mul float.amenable
    have mean := (average 0).zipWith floats' fun _ _ => floating_mixed known₁
    have square := (average 1).zipWith squares fun _ _ => floating_mixed known₂
    have move := mean.zipWith square fun _ _ => floating_pull known known₁ known₂ known'
    have value := floats.value.zipWith move
      (f := fun x d => Element.replace x (x - Element.like x d))
      fun _ _ float other => float.replace (float.sub (float.like other.refusal?).amenable)
    refine ⟨value, fun ts kept => ?_⟩
    cases kept
    exact ⟨rfl, by simpa using ⟨mean, square⟩⟩

end ReverseMode
