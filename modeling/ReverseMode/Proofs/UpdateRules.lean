import ReverseMode.Proofs.Assurance
import ReverseMode.Proofs.BackwardPass
import ReverseMode.Optimizer.Basic

/-!
What the steps of update rules keep.

Whatever a rule computes with, and wherever it fails, it writes values of the same extents and
averages only. So the extents of the value stay (`step_shape`), averages that have been kept once
are kept on (`step_isSome`), and a rule that keeps none leaves them alone (`step_of_not_keeps`).
-/

namespace ReverseMode

namespace UpdateRule

section Lasting

variable {α β : Type} [Element α] {I : Moving α → Prop} {grad : Tensor α} {rule : UpdateRule α}

/-- A property of what is moved that new averages do not break, nor values of the same extents. -/
structure Lasting (I : Moving α → Prop) : Prop where
  value : ∀ m t, I m → t.shape = m.value.shape → I { m with value := t }
  averages : ∀ m held, I m → I { m with averages := some held }

omit [Element α] in
theorem given_keeps (e : Except Fault β) : Assures I (fun _ => True) (given e : MovingM α β) := by
  cases e with
  | ok b => exact .of_pure trivial
  | error f => exact .of_throw f

section Value

variable (value : ∀ m t, I m → t.shape = m.value.shape → I { m with value := t })

include value

theorem moveValue_keeps (f : α → α → α) (t : Tensor α) :
    Assures I (fun _ => True) (moveValue f t) := by
  intro m holds
  refine ⟨?_, fun _ _ _ => trivial⟩
  have got : (get : MovingM α _) m = .ok m m := rfl
  rw [moveValue, run_bind got]
  cases updated : m.value.updateInPlace f t with
  | error e => exact holds
  | ok moved => exact value m moved holds (Tensor.updateInPlace_shape updated)

theorem descend_keeps (rate : Quantity α) : Assures I (fun _ => True) (descend rate grad) := by
  refine .bind (given_keeps _) fun r _ => ?_
  exact .bind (given_keeps _) fun pull _ => moveValue_keeps value _ pull

theorem moveByMoments_keeps (rate eps : Quantity α) (m v : Tensor α) :
    Assures I (fun _ => True) (moveByMoments rate eps m v) := by
  refine .bind (given_keeps _) fun r _ => ?_
  refine .bind (given_keeps _) fun pull _ => ?_
  refine .bind (given_keeps _) fun e _ => ?_
  refine .bind (given_keeps _) fun spread _ => ?_
  exact .bind (given_keeps _) fun move _ => moveValue_keeps value _ move

end Value

variable (lasting : Lasting I)

include lasting

theorem averages_keeps (count : Nat) :
    Assures I (fun _ => True) (averages count : MovingM α _) := fun m holds =>
  ⟨lasting.averages m _ holds, fun _ _ _ => trivial⟩

omit [Element α] in
theorem setAverage_keeps (i : Nat) (t : Tensor α) :
    Assures I (fun _ => True) (setAverage i t) := by
  refine .of_modify fun m holds => ?_
  obtain ⟨value, averages⟩ := m
  cases averages with
  | none => exact holds
  | some ts => exact lasting.averages _ _ holds

theorem descendWith_keeps (rate factor : Quantity α) :
    Assures I (fun _ => True) (descendWith rate factor grad) := by
  refine .bind (averages_keeps lasting 1) fun ts _ => ?_
  split
  · refine .bind (given_keeps _) fun f _ => ?_
    refine .bind (given_keeps _) fun slowed _ => ?_
    refine .bind (setAverage_keeps lasting 0 slowed) fun _ _ => ?_
    refine .bind (given_keeps _) fun r _ => ?_
    refine .bind (given_keeps _) fun pull _ => ?_
    refine .bind (given_keeps _) fun pulled _ => ?_
    exact .bind (setAverage_keeps lasting 0 pulled) fun _ _ =>
      moveValue_keeps lasting.value _ pulled
  · exact .of_throw _

theorem nextAverage_keeps (i : Nat) (decay : Decay α) (t u : Tensor α) :
    Assures I (fun _ => True) (nextAverage i decay t u) := by
  refine .bind (given_keeps _) fun f _ => ?_
  refine .bind (given_keeps _) fun faded _ => ?_
  refine .bind (setAverage_keeps lasting i faded) fun _ _ => ?_
  refine .bind (given_keeps _) fun c _ => ?_
  refine .bind (given_keeps _) fun amount _ => ?_
  refine .bind (given_keeps _) fun next _ => ?_
  exact .bind (setAverage_keeps lasting i next) fun _ _ => .of_pure trivial

theorem step_keeps (rule : UpdateRule α) (steps : Nat) :
    Assures I (fun _ => True) (rule.step steps grad) := by
  cases rule with
  | undefined => exact .of_throw _
  | descent rate momentum =>
    refine .bind (given_keeps _) fun none _ => ?_
    split
    · exact descend_keeps lasting.value rate
    · exact descendWith_keeps lasting rate momentum.factor
  | moments rate first second eps =>
    refine .bind (averages_keeps lasting 2) fun ts _ => ?_
    split
    · refine .bind (nextAverage_keeps lasting 0 first _ grad) fun m _ => ?_
      refine .bind (nextAverage_keeps lasting 1 second _ _) fun v _ => ?_
      refine .bind (given_keeps _) fun m _ => ?_
      exact .bind (given_keeps _) fun v _ => moveByMoments_keeps lasting.value rate eps m v
    · exact .of_throw _

end Lasting

section Kept

variable {α : Type} [Element α] {grad : Tensor α} {rule : UpdateRule α} (steps : Nat)
  (m : Moving α)

/-- A step keeps the extents of the value. -/
theorem step_shape :
    (after (rule.step steps grad m)).value.shape = m.value.shape :=
  (step_keeps (I := fun m' => m'.value.shape = m.value.shape)
    ⟨fun _ _ holds same => same.trans holds, fun _ _ holds => holds⟩ rule steps m rfl).1

/-- Averages that have been kept once are kept on. -/
theorem step_isSome (some : m.averages.isSome) : (after (rule.step steps grad m)).averages.isSome :=
  (step_keeps (I := fun m' => m'.averages.isSome)
    ⟨fun _ _ holds _ => holds, fun _ _ _ => rfl⟩ rule steps m some).1

/-- Whether a rule keeps averages. -/
def Keeps : UpdateRule α → Prop
  | undefined => False
  | descent _ momentum => momentum.none = .ok false
  | moments _ _ _ _ => True

/-- A rule that keeps no averages leaves them alone. -/
theorem step_of_not_keeps (not : ¬ rule.Keeps) :
    (after (rule.step steps grad m)).averages = m.averages := by
  have value : ∀ (m' : Moving α) (t : Tensor α), m'.averages = m.averages →
      t.shape = m'.value.shape → ({ m' with value := t } : Moving α).averages = m.averages :=
    fun _ _ holds _ => holds
  suffices assures : Assures (fun m' => m'.averages = m.averages) (fun _ => True)
      (rule.step steps grad) from (assures m rfl).1
  cases rule with
  | undefined => exact .of_throw _
  | moments => exact absurd trivial not
  | descent rate momentum =>
    cases none : momentum.none with
    | error f =>
      rw [step, none]
      exact .of_throw f
    | ok plain =>
      cases plain with
      | false => exact absurd none not
      | true =>
        rw [step, none]
        exact descend_keeps value rate

end Kept

end UpdateRule

end ReverseMode
