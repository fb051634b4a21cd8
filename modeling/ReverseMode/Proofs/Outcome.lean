import Mathlib.Logic.Relation
import ReverseMode.Fault

/-!
Calls as transitions.

A call ends in a state whether it answers or raises. `after` is that state, and a
relation `Leads` a call if it holds between the state before and the state after. The
inversion lemmas open one step of a call that is known to have answered.
-/

namespace ReverseMode

section Deferred

variable {β γ : Type}

theorem bind_eq_ok {x : Except Fault β} {f : β → Except Fault γ} {c : γ} :
    (x >>= f) = .ok c ↔ ∃ b, x = .ok b ∧ f b = .ok c := by
  cases x with
  | error => simp [bind, Except.bind]
  | ok b => simp [bind, Except.bind]

theorem bind_eq_error {x : Except Fault β} {g : β → Except Fault γ} {f : Fault} :
    (x >>= g) = .error f ↔ x = .error f ∨ ∃ b, x = .ok b ∧ g b = .error f := by
  cases x with
  | error => simp [bind, Except.bind]
  | ok b => simp [bind, Except.bind]

theorem map_eq_ok {x : Except Fault β} {f : β → γ} {c : γ} :
    f <$> x = .ok c ↔ ∃ b, x = .ok b ∧ f b = c := by
  cases x with
  | error => simp [Functor.map, Except.map]
  | ok b => simp [Functor.map, Except.map]

theorem pure_eq_ok {b c : β} : (pure b : Except Fault β) = .ok c ↔ b = c := by
  simp [pure, Except.pure]

/-- Where every call answers, so does a pass over all of them. -/
theorem mapM_total {f : β → Except Fault γ} {P : γ → Prop} {xs : List β}
    (each : ∀ x ∈ xs, ∃ y, f x = .ok y ∧ P y) :
    ∃ ys, xs.mapM f = .ok ys ∧ ys.length = xs.length ∧ ∀ y ∈ ys, P y := by
  induction xs with
  | nil => exact ⟨[], rfl, rfl, fun y mem => nomatch mem⟩
  | cons x xs ih =>
    obtain ⟨⟨y, here, holds⟩, later⟩ := List.forall_mem_cons.mp each
    obtain ⟨ys, rest, length, all⟩ := ih later
    refine ⟨y :: ys, ?_, by simp [length], List.forall_mem_cons.mpr ⟨holds, all⟩⟩
    rw [List.mapM_cons, here, rest]
    rfl

end Deferred

section Calls

variable {σ β γ : Type}

/-- The state that a call leaves. -/
def after : EStateM.Result Fault σ β → σ
  | .ok _ s | .error _ s => s

@[simp] theorem after_ok (b : β) (s : σ) : after (.ok b s : EStateM.Result Fault σ β) = s := rfl

@[simp] theorem after_error (f : Fault) (s : σ) :
    after (.error f s : EStateM.Result Fault σ β) = s := rfl

/-- Whether a call answers. -/
def answers : EStateM.Result Fault σ β → Bool
  | .ok _ _ => true
  | .error _ _ => false

theorem answer_of_answers {r : EStateM.Result Fault σ β} (h : answers r = true) :
    ∃ b, r = .ok b (after r) := by
  cases r with
  | ok b s => exact ⟨b, rfl⟩
  | error => cases h

theorem raise_of_answers {r : EStateM.Result Fault σ β} (h : answers r = false) :
    ∃ f, r = .error f (after r) := by
  cases r with
  | ok => cases h
  | error f s => exact ⟨f, rfl⟩

theorem answer_bind {x : EStateM Fault σ β} {f : β → EStateM Fault σ γ} {s s' : σ} {c : γ} :
    (x >>= f) s = .ok c s' ↔ ∃ b s₁, x s = .ok b s₁ ∧ f b s₁ = .ok c s' := by
  change EStateM.bind x f s = _ ↔ _
  unfold EStateM.bind
  cases x s with
  | ok b s₁ =>
    refine ⟨fun h => ⟨b, s₁, rfl, h⟩, ?_⟩
    rintro ⟨_, _, same, h⟩
    cases same
    exact h
  | error => simp

theorem run_bind {x : EStateM Fault σ β} {f : β → EStateM Fault σ γ} {s s' : σ} {b : β}
    (ran : x s = .ok b s') : (x >>= f) s = f b s' := by
  change EStateM.bind x f s = _
  unfold EStateM.bind
  rw [ran]

theorem answer_pure {b c : β} {s s' : σ} :
    (pure b : EStateM Fault σ β) s = .ok c s' ↔ b = c ∧ s = s' := by
  change EStateM.Result.ok b s = _ ↔ _
  simp

theorem not_answer_throw {f : Fault} {c : β} {s s' : σ} :
    (throw f : EStateM Fault σ β) s ≠ .ok c s' := by
  change EStateM.Result.error f s ≠ _
  simp

theorem answer_get {c s s' : σ} : (get : EStateM Fault σ σ) s = .ok c s' ↔ s = c ∧ s = s' := by
  change EStateM.Result.ok s s = _ ↔ _
  simp

theorem answer_modify {f : σ → σ} {c : PUnit} {s s' : σ} :
    (modify f : EStateM Fault σ PUnit) s = .ok c s' ↔ f s = s' := by
  change EStateM.Result.ok PUnit.unit (f s) = _ ↔ _
  simp

theorem answer_modifyGet {f : σ → β × σ} {c : β} {s s' : σ} :
    (modifyGet f : EStateM Fault σ β) s = .ok c s' ↔ f s = (c, s') := by
  change EStateM.Result.ok (f s).1 (f s).2 = _ ↔ _
  simp [Prod.ext_iff]

theorem discard_run (x : EStateM Fault σ β) (s : σ) :
    (discard x : EStateM Fault σ PUnit) s =
      match x s with
      | .ok _ s' => .ok ⟨⟩ s'
      | .error e s' => .error e s' := by
  change EStateM.map _ x s = _
  unfold EStateM.map
  cases x s with
  | ok b s' => rfl
  | error e s' => rfl

theorem raise_bind {x : EStateM Fault σ β} {f : β → EStateM Fault σ γ} {s s' : σ} {e : Fault} :
    (x >>= f) s = .error e s' ↔
      x s = .error e s' ∨ ∃ b s₁, x s = .ok b s₁ ∧ f b s₁ = .error e s' := by
  change EStateM.bind x f s = _ ↔ _
  unfold EStateM.bind
  cases x s with
  | ok b s₁ =>
    refine ⟨fun h => .inr ⟨b, s₁, rfl, h⟩, ?_⟩
    rintro (impossible | ⟨_, _, same, h⟩)
    · cases impossible
    · cases same
      exact h
  | error => simp

theorem not_raise_pure {b : β} {s s' : σ} {e : Fault} :
    (pure b : EStateM Fault σ β) s ≠ .error e s' := by
  change EStateM.Result.ok b s ≠ _
  simp

theorem raise_throw {f e : Fault} {s s' : σ} :
    (throw f : EStateM Fault σ β) s = .error e s' ↔ f = e ∧ s = s' := by
  change EStateM.Result.error f s = _ ↔ _
  simp

theorem not_raise_get {s s' : σ} {e : Fault} : (get : EStateM Fault σ σ) s ≠ .error e s' := by
  change EStateM.Result.ok s s ≠ _
  simp

theorem not_raise_modify {f : σ → σ} {s s' : σ} {e : Fault} :
    (modify f : EStateM Fault σ PUnit) s ≠ .error e s' := by
  change EStateM.Result.ok PUnit.unit (f s) ≠ _
  simp

theorem answer_forM_cons {f : γ → EStateM Fault σ PUnit} {a : γ} {as : List γ} {c : PUnit}
    {s s' : σ} :
    (a :: as).forM f s = .ok c s' ↔ ∃ s₁, f a s = .ok ⟨⟩ s₁ ∧ as.forM f s₁ = .ok c s' := by
  change (f a >>= fun _ => as.forM f) s = _ ↔ _
  rw [answer_bind]
  exact ⟨fun ⟨_, s₁, first, rest⟩ => ⟨s₁, first, rest⟩,
    fun ⟨s₁, first, rest⟩ => ⟨⟨⟩, s₁, first, rest⟩⟩

theorem answer_mapM_cons {f : γ → EStateM Fault σ β} {a : γ} {as : List γ} {cs : List β}
    {s s' : σ} :
    (a :: as).mapM f s = .ok cs s' ↔
      ∃ b s₁ bs, f a s = .ok b s₁ ∧ as.mapM f s₁ = .ok bs s' ∧ b :: bs = cs := by
  rw [List.mapM_cons, answer_bind]
  simp only [answer_bind, answer_pure]
  constructor
  · rintro ⟨b, s₁, first, bs, s₂, rest, rfl, rfl⟩
    exact ⟨b, s₁, bs, first, rest, rfl⟩
  · rintro ⟨b, s₁, bs, first, rest, rfl⟩
    exact ⟨b, s₁, first, bs, s', rest, rfl, rfl⟩

theorem run_forM_append {f : γ → EStateM Fault σ PUnit} {as bs : List γ} {s s₁ : σ}
    (ran : as.forM f s = .ok ⟨⟩ s₁) : (as ++ bs).forM f s = bs.forM f s₁ := by
  induction as generalizing s with
  | nil => rw [(answer_pure.mp ran).2, List.nil_append]
  | cons a as ih =>
    obtain ⟨s₂, first, rest⟩ := answer_forM_cons.mp ran
    change (f a >>= fun _ => (as ++ bs).forM f) s = _
    rw [run_bind first]
    exact ih rest

/-- A relation holds between the states before and after a call. -/
def Leads (R : σ → σ → Prop) (x : EStateM Fault σ β) : Prop := ∀ s, R s (after (x s))

namespace Leads

variable {R : σ → σ → Prop}

theorem mono {R' : σ → σ → Prop} {x : EStateM Fault σ β} (weaker : ∀ s s', R s s' → R' s s')
    (h : Leads R x) : Leads R' x := fun s => weaker _ _ (h s)

theorem of_pure (reflexive : ∀ s, R s s) (b : β) : Leads R (pure b) := reflexive

theorem of_throw (reflexive : ∀ s, R s s) (f : Fault) :
    Leads R (throw f : EStateM Fault σ β) := reflexive

theorem of_get (reflexive : ∀ s, R s s) : Leads R (get : EStateM Fault σ σ) := reflexive

theorem of_modify {f : σ → σ} (h : ∀ s, R s (f s)) : Leads R (modify f : EStateM Fault σ PUnit) := h

theorem of_modifyGet {f : σ → β × σ} (h : ∀ s, R s (f s).2) :
    Leads R (modifyGet f : EStateM Fault σ β) := h

/-- A call followed by another one; the second is looked at in the states that the first
answers in. -/
theorem bind_at {x : EStateM Fault σ β} {f : β → EStateM Fault σ γ} {s : σ}
    (transitive : ∀ {a b c}, R a b → R b c → R a c) (first : R s (after (x s)))
    (second : ∀ b s₁, x s = .ok b s₁ → R s₁ (after (f b s₁))) : R s (after ((x >>= f) s)) := by
  change R s (after (EStateM.bind x f s))
  unfold EStateM.bind
  cases run : x s with
  | ok b s₁ =>
    rw [run] at first
    exact transitive first (second b s₁ run)
  | error f s₁ => rwa [run] at first

theorem bind {x : EStateM Fault σ β} {f : β → EStateM Fault σ γ}
    (transitive : ∀ {a b c}, R a b → R b c → R a c) (first : Leads R x)
    (second : ∀ b, Leads R (f b)) : Leads R (x >>= f) :=
  fun s => bind_at transitive (first s) fun b s₁ _ => second b s₁

theorem of_discard {x : EStateM Fault σ β} (h : Leads R x) :
    Leads R (discard x : EStateM Fault σ PUnit) := by
  intro s
  have := h s
  rw [discard_run]
  cases run : x s with
  | ok b s' => rwa [run] at this
  | error e s' => rwa [run] at this

theorem forM {f : γ → EStateM Fault σ PUnit} {as : List γ} (reflexive : ∀ s, R s s)
    (transitive : ∀ {a b c}, R a b → R b c → R a c) (each : ∀ a ∈ as, Leads R (f a)) :
    Leads R (as.forM f) := by
  induction as with
  | nil => exact of_pure reflexive _
  | cons a as ih =>
    change Leads R (f a >>= fun _ => as.forM f)
    exact bind transitive (each a (by simp)) fun _ => ih fun b mem => each b (by simp [mem])

theorem mapM {f : γ → EStateM Fault σ β} {as : List γ} (reflexive : ∀ s, R s s)
    (transitive : ∀ {a b c}, R a b → R b c → R a c) (each : ∀ a ∈ as, Leads R (f a)) :
    Leads R (as.mapM f) := by
  induction as with
  | nil => exact of_pure reflexive _
  | cons a as ih =>
    rw [List.mapM_cons]
    exact bind transitive (each a (by simp)) fun _ =>
      bind transitive (ih fun b mem => each b (by simp [mem])) fun _ => of_pure reflexive _

end Leads

end Calls

end ReverseMode
