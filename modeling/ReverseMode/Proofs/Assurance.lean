import Mathlib.Data.List.Forall2
import ReverseMode.Proofs.Outcome

/-!
Calls that keep an invariant.

`Assures` is a triple: where an invariant of the state holds before a call it holds after it,
whether the call answers or raises, and what is answered has a property. There is one rule for
each way in which calls are put together, so a call is taken apart as it is written.
-/

namespace ReverseMode

variable {σ β γ δ : Type}

/-- A call keeps an invariant, and what it answers has a property. -/
def Assures (I : σ → Prop) (P : β → Prop) (x : EStateM Fault σ β) : Prop :=
  ∀ s, I s → I (after (x s)) ∧ ∀ b s', x s = .ok b s' → P b

namespace Assures

variable {I : σ → Prop} {P : β → Prop} {Q : γ → Prop}

theorem mono {P' : β → Prop} {x : EStateM Fault σ β} (assures : Assures I P x)
    (weaker : ∀ b, P b → P' b) : Assures I P' x := fun s holds =>
  ⟨(assures s holds).1, fun b s' answered => weaker b ((assures s holds).2 b s' answered)⟩

theorem of_pure {b : β} (holds : P b) : Assures I P (pure b : EStateM Fault σ β) := by
  intro s before
  refine ⟨before, fun c s' answered => ?_⟩
  rwa [← (answer_pure.mp answered).1]

theorem of_throw (f : Fault) : Assures I P (throw f : EStateM Fault σ β) :=
  fun _ before => ⟨before, fun _ _ answered => absurd answered not_answer_throw⟩

/-- The invariant holds of the state that is read. -/
theorem of_get : Assures I I (get : EStateM Fault σ σ) := by
  intro s before
  refine ⟨before, fun b s' answered => ?_⟩
  rwa [← (answer_get.mp answered).1]

theorem of_modify {f : σ → σ} (keeps : ∀ s, I s → I (f s)) :
    Assures I (fun _ => True) (modify f : EStateM Fault σ PUnit) :=
  fun s before => ⟨keeps s before, fun _ _ _ => trivial⟩

theorem bind {x : EStateM Fault σ β} {f : β → EStateM Fault σ γ} (first : Assures I P x)
    (second : ∀ b, P b → Assures I Q (f b)) : Assures I Q (x >>= f) := by
  intro s before
  obtain ⟨between, answers⟩ := first s before
  cases run : x s with
  | ok b s₁ =>
    rw [run, after_ok] at between
    rw [run_bind run]
    exact second b (answers b s₁ run) s₁ between
  | error f s₁ =>
    rw [run, after_error] at between
    rw [raise_bind.mpr (.inl run)]
    exact ⟨between, fun _ _ impossible => nomatch impossible⟩

theorem of_discard {x : EStateM Fault σ β} (assures : Assures I P x) :
    Assures I (fun _ => True) (discard x : EStateM Fault σ PUnit) := by
  intro s before
  obtain ⟨afterwards, _⟩ := assures s before
  rw [discard_run]
  cases run : x s with
  | ok b s₁ =>
    rw [run, after_ok] at afterwards
    exact ⟨afterwards, fun _ _ _ => trivial⟩
  | error e s₁ =>
    rw [run, after_error] at afterwards
    exact ⟨afterwards, fun _ _ _ => trivial⟩

theorem forM {f : γ → EStateM Fault σ PUnit} {as : List γ}
    (each : ∀ a ∈ as, Assures I (fun _ => True) (f a)) :
    Assures I (fun _ => True) (as.forM f) := by
  induction as with
  | nil => exact of_pure trivial
  | cons a as ih =>
    have rest := ih fun b mem => each b (List.mem_cons_of_mem a mem)
    exact bind (f := fun _ => as.forM f) (each a List.mem_cons_self) fun _ _ => rest

/-- What is answered for the items of a list has their properties, one by one. -/
theorem mapM {f : γ → EStateM Fault σ δ} {R : δ → γ → Prop} {as : List γ}
    (each : ∀ a ∈ as, Assures I (fun b => R b a) (f a)) :
    Assures I (fun bs => List.Forall₂ R bs as) (as.mapM f) := by
  induction as with
  | nil =>
    rw [List.mapM_nil]
    exact of_pure .nil
  | cons a as ih =>
    rw [List.mapM_cons]
    refine bind (each a (by simp)) fun b first => ?_
    refine bind (ih fun c mem => each c (by simp [mem])) fun bs others => ?_
    exact of_pure (.cons first others)

end Assures

end ReverseMode
