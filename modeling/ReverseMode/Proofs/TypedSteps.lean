import ReverseMode.Proofs.Assurance
import ReverseMode.Proofs.ArrayTypes
import ReverseMode.Optimizer.Basic

/-!
Optimizers keep the types of parameters.

A rule changes the value of a parameter and its averages in place, by operands that are combined
from gradients, averages and the quantities of the rule. All of these are homogeneous, so every
array that is changed keeps its type, also where a change fails half way.
-/

namespace ReverseMode

open scoped Element Scalar
open Scalar (Kin)

/-- Where a quantity can be had its elements are stored in one type, or equal. -/
def Quantity.Homogeneous (q : Quantity Scalar) : Prop := ∀ t, q = .ok t → t.Homogeneous

/-- The quantities of a decay are homogeneous. -/
structure Decay.Homogeneous (d : Decay Scalar) : Prop where
  factor : Quantity.Homogeneous d.factor
  complement : Quantity.Homogeneous d.complement
  weight : ∀ steps, Quantity.Homogeneous (d.weight steps)

namespace UpdateRule

/-- The quantities of a rule are homogeneous. -/
def Homogeneous : UpdateRule Scalar → Prop
  | undefined => True
  | descent rate momentum => Quantity.Homogeneous rate ∧ Quantity.Homogeneous momentum.factor
  | moments rate first second eps =>
    Quantity.Homogeneous rate ∧ first.Homogeneous ∧ second.Homogeneous ∧ Quantity.Homogeneous eps

/-- A value of a type, and averages each of which is of some type. -/
structure Moves (s : StorageType) (m : Moving Scalar) : Prop where
  value : m.value.Typed s
  averages : ∀ ts ∈ m.averages, ∀ t ∈ ts, ∃ s', t.Typed s'

variable {s s' : StorageType} {β : Type} {P : β → Prop} {grad t u : Tensor Scalar}

theorem assures_given {e : Except Fault β} (holds : ∀ b, e = .ok b → P b) :
    Assures (Moves s) P (given e : MovingM Scalar β) := by
  cases e with
  | ok b => exact .of_pure (holds b rfl)
  | error f => exact .of_throw f

theorem zerosLike_typed (typed : t.Typed s) : (zerosLike t).Typed s := by
  refine typed.map (f := fun x => Element.like x (Element.whole 0)) fun same => ?_
  change (Scalar.store _ _).type? = some s
  rw [Scalar.ownType_of_type? same]
  exact Scalar.type?_store rfl

theorem averages_assures (count : Nat) :
    Assures (Moves s) (fun ts => ∀ t ∈ ts, ∃ s', Tensor.Typed s' t) (averages count) := by
  intro m moves
  have held : ∀ t ∈ m.averages.getD (List.replicate count (zerosLike m.value)),
      ∃ s', t.Typed s' := by
    intro t mem
    cases found : m.averages with
    | none =>
      rw [found, Option.getD_none] at mem
      rw [(List.mem_replicate.mp mem).2]
      exact ⟨s, zerosLike_typed moves.value⟩
    | some ts =>
      rw [found, Option.getD_some] at mem
      exact moves.averages ts found t mem
  refine ⟨⟨moves.value, fun ts kept => ?_⟩, fun b m' answered => ?_⟩
  · cases kept
    exact held
  · cases answered
    exact held

theorem setAverage_assures {i : Nat} (typed : t.Typed s') :
    Assures (Moves s) (fun _ => True) (setAverage i t) := by
  refine .of_modify fun m moves => ⟨moves.value, fun ts kept u mem => ?_⟩
  obtain ⟨old, found, rfl⟩ := Option.map_eq_some_iff.mp kept
  rcases List.mem_or_eq_of_mem_set mem with before | rfl
  · exact moves.averages old found u before
  · exact ⟨s', typed⟩

/-- A value changed in place keeps its type. -/
theorem moveValue_assures {f : Scalar → Scalar → Scalar}
    (congr : ∀ {x x' y y'}, Kin x x' → Kin y y' → Kin (f x y) (f x' y'))
    (homogeneous : t.Homogeneous) : Assures (Moves s) (fun _ => True) (moveValue f t) := by
  refine .bind .of_get fun m moves => ?_
  refine .bind (assures_given fun _ moved =>
    (moves.value.updateInPlace congr homogeneous moved).2) fun moved typed => ?_
  exact .of_modify fun m' moves' => ⟨typed, moves'.averages⟩

/-- A quantity times an array that is homogeneous. -/
theorem scaled_assures {q : Quantity Scalar} (known : Quantity.Homogeneous q)
    (homogeneous : t.Homogeneous) :
    Assures (Moves s) Tensor.Homogeneous
      (do given ((← given q).combine (· * ·) t) : MovingM Scalar (Tensor Scalar)) := by
  refine .bind (assures_given known) fun r rate => assures_given fun _ combined => ?_
  exact Tensor.Homogeneous.combine (Kin.apply Scalar.multiplication) rate homogeneous combined

/-- An average changed in place keeps its type. -/
theorem update_assures {f : Scalar → Scalar → Scalar}
    (congr : ∀ {x x' y y'}, Kin x x' → Kin y y' → Kin (f x y) (f x' y'))
    (typed : t.Typed s') (homogeneous : u.Homogeneous) :
    Assures (Moves s) (Tensor.Typed s') (given (t.updateInPlace f u) : MovingM Scalar _) :=
  assures_given fun _ updated => (typed.updateInPlace congr homogeneous updated).2

theorem descend_assures {rate : Quantity Scalar} (known : Quantity.Homogeneous rate)
    (homogeneous : grad.Homogeneous) : Assures (Moves s) (fun _ => True) (descend rate grad) := by
  have pulled := scaled_assures (s := s) known homogeneous
  rw [descend, ← bind_assoc]
  exact .bind pulled fun pull homogeneous => moveValue_assures Kin.sub homogeneous

theorem descendWith_assures {rate factor : Quantity Scalar} (known : Quantity.Homogeneous rate)
    (known' : Quantity.Homogeneous factor) (homogeneous : grad.Homogeneous) :
    Assures (Moves s) (fun _ => True) (descendWith rate factor grad) := by
  refine .bind (averages_assures 1) fun ts each => ?_
  split
  next velocity =>
    obtain ⟨s', kept⟩ := each velocity (by simp)
    refine .bind (assures_given known') fun f plain => ?_
    refine .bind (update_assures (Kin.apply Scalar.multiplication) kept plain) fun slowed kept => ?_
    refine .bind (setAverage_assures kept) fun _ _ => ?_
    rw [← bind_assoc]
    refine .bind (scaled_assures known homogeneous) fun pull plain => ?_
    refine .bind (update_assures Kin.sub kept plain) fun pulled kept => ?_
    refine .bind (setAverage_assures kept) fun _ _ => ?_
    exact moveValue_assures (Kin.apply Scalar.addition) kept.homogeneous
  · exact .of_throw _

theorem nextAverage_assures {i : Nat} {decay : Decay Scalar} (known : decay.Homogeneous)
    (typed : t.Typed s') (homogeneous : u.Homogeneous) :
    Assures (Moves s) (Tensor.Typed s') (nextAverage i decay t u) := by
  refine .bind (assures_given known.factor) fun f plain => ?_
  refine .bind (update_assures (Kin.apply Scalar.multiplication) typed plain) fun faded kept => ?_
  refine .bind (setAverage_assures kept) fun _ _ => ?_
  rw [← bind_assoc]
  refine .bind (scaled_assures known.complement homogeneous) fun amount plain => ?_
  refine .bind (update_assures (Kin.apply Scalar.addition) kept plain) fun next kept => ?_
  exact .bind (setAverage_assures kept) fun _ _ => .of_pure kept

theorem corrected_homogeneous {decay : Decay Scalar} (known : decay.Homogeneous) {steps : Nat}
    (typed : t.Typed s') (made : corrected decay steps t = .ok u) : u.Homogeneous := by
  obtain ⟨w, weight, made⟩ := bind_eq_ok.mp made
  obtain ⟨quotient, combined, made⟩ := bind_eq_ok.mp made
  obtain ⟨rfl, _⟩ := Tensor.sound_eq_ok.mp made
  exact Tensor.Homogeneous.combine Kin.div typed.homogeneous (known.weight steps w weight) combined

theorem moveByMoments_assures {rate eps : Quantity Scalar} (known : Quantity.Homogeneous rate)
    (known' : Quantity.Homogeneous eps) {m v : Tensor Scalar} (first : m.Homogeneous)
    (second : v.Homogeneous) : Assures (Moves s) (fun _ => True) (moveByMoments rate eps m v) := by
  unfold moveByMoments
  rw [← bind_assoc]
  refine .bind (scaled_assures known first) fun pull plain => ?_
  refine .bind (assures_given known') fun e epsilon => ?_
  refine .bind (assures_given fun _ combined => Tensor.Homogeneous.combine
    (Kin.apply Scalar.addition) (second.map (Kin.function Float.sqrt)) epsilon combined)
    fun spread plain' => ?_
  refine .bind (assures_given fun _ combined =>
    Tensor.Homogeneous.combine Kin.div plain plain' combined) fun move plain => ?_
  exact moveValue_assures (fun first second => first.sub (first.like second)) plain

/-- A step with a homogeneous gradient keeps the types of value and averages. -/
theorem step_assures {rule : UpdateRule Scalar} (known : rule.Homogeneous) (steps : Nat)
    (homogeneous : grad.Homogeneous) :
    Assures (Moves s) (fun _ => True) (rule.step steps grad) := by
  cases rule with
  | undefined => exact .of_throw _
  | descent rate momentum =>
    obtain ⟨rate, factor⟩ := known
    refine .bind (assures_given fun _ _ => trivial) fun none (_ : True) => ?_
    split
    · exact descend_assures rate homogeneous
    · exact descendWith_assures rate factor homogeneous
  | moments rate first second eps =>
    obtain ⟨rate, first, second, eps⟩ := known
    refine .bind (averages_assures 2) fun ts each => ?_
    split
    next m v =>
      obtain ⟨s₁, typed⟩ := each m (by simp)
      obtain ⟨s₂, typed'⟩ := each v (by simp)
      have squares : (grad.map fun g => g * g).Homogeneous :=
        homogeneous.map fun same => same.apply Scalar.multiplication same
      refine .bind (nextAverage_assures first typed homogeneous) fun m typed => ?_
      refine .bind (nextAverage_assures second typed' squares) fun v typed' => ?_
      refine .bind (assures_given fun _ made => corrected_homogeneous first typed made)
        fun m plain => ?_
      refine .bind (assures_given fun _ made => corrected_homogeneous second typed' made)
        fun v plain' => ?_
      exact moveByMoments_assures rate eps plain plain'
    · exact .of_throw _

end UpdateRule

end ReverseMode
