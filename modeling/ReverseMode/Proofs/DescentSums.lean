import Mathlib.Data.List.ReduceOption
import ReverseMode.Proofs.ExactUpdates
import ReverseMode.Proofs.LoneParameters

/-!
Gradient descent in closed form.

A velocity is the sum of the gradients that have come so far, each weighted by a power of the
momentum that is its age, and a value moves by all its velocities. So in exact arithmetic the value
of a parameter that an optimizer has to itself is a double sum over the gradients of its steps,
whichever branch of the rule makes them, and steps that find no gradient do not count.
-/

namespace ReverseMode

/-! ### Histories -/

section Aged

variable {R : Type} [CommRing R] {μ : R} {g h : ℕ → R} {k : ℕ}

/-- What has come so far added up, each amount weighted by a power that is its age. -/
def aged (μ : R) (g : ℕ → R) (k : ℕ) : R := ∑ j ∈ Finset.range k, μ ^ (k - 1 - j) * g j

theorem aged_zero : aged μ g 0 = 0 := Finset.sum_range_zero _

theorem aged_succ : aged μ g (k + 1) = aged μ g k * μ + g k := by
  have older : ∑ j ∈ Finset.range k, μ ^ (k - j) * g j = aged μ g k * μ := by
    rw [aged, Finset.sum_mul]
    refine Finset.sum_congr rfl fun j mem => ?_
    have age : k - j = k - 1 - j + 1 := by
      have := Finset.mem_range.mp mem
      omega
    rw [age, pow_succ]
    ring
  rw [aged, Finset.sum_range_succ, Nat.add_sub_cancel, older, Nat.sub_self, pow_zero, one_mul]

theorem aged_congr (same : ∀ j < k, g j = h j) : aged μ g k = aged μ h k :=
  Finset.sum_congr rfl fun j mem => by rw [same j (Finset.mem_range.mp mem)]

end Aged

namespace Element.Reading

variable {α R : Type} [Element α] [CommRing R] {type : StorageType}
  {ρ : Element.Reading α R type} {ds : List (Tensor α)} {d : Tensor α} {q : List Nat} {μ : R}

/-- The entries at a position along some arrays. -/
def series (ρ : Element.Reading α R type) (ds : List (Tensor α)) (q : List Nat) (j : ℕ) : R :=
  (ds[j]?.map fun d => ρ.entry d q).getD 0

theorem series_append {j : ℕ} (below : j < ds.length) :
    ρ.series (ds ++ [d]) q j = ρ.series ds q j := by
  rw [series, List.getElem?_append_left below, series]

theorem series_last : ρ.series (ds ++ [d]) q ds.length = ρ.entry d q := by
  rw [series, List.getElem?_concat_length]
  rfl

/-- One more array: what came before is older by one. -/
theorem aged_append : aged μ (ρ.series (ds ++ [d]) q) (ds ++ [d]).length =
    aged μ (ρ.series ds q) ds.length * μ + ρ.entry d q := by
  rw [List.length_append, List.length_singleton, aged_succ, series_last,
    aged_congr fun j below => series_append below]

theorem total_append : ∑ i ∈ Finset.range (ds ++ [d]).length,
      aged μ (ρ.series (ds ++ [d]) q) (i + 1) =
    ∑ i ∈ Finset.range ds.length, aged μ (ρ.series ds q) (i + 1) +
      (aged μ (ρ.series ds q) ds.length * μ + ρ.entry d q) := by
  rw [← aged_append, List.length_append, List.length_singleton, Finset.sum_range_succ]
  refine congrArg (· + _) (Finset.sum_congr rfl fun i mem => aged_congr fun j below => ?_)
  have := Finset.mem_range.mp mem
  exact series_append (by omega)

end Element.Reading

/-! ### The rule -/

namespace UpdateRule

open Element.Reading

variable {α R : Type} [Element α] [CommRing R] {type : StorageType}
  {ρ : Element.Reading α R type} {rule : UpdateRule α} {rate μ : R}

/-- Gradient descent by numbers, in either of its branches: without a velocity the momentum is
zero. -/
inductive Descends (ρ : Element.Reading α R type) (rate : R) : R → UpdateRule α → Prop
  | plain {r : α} {momentum : Momentum α} (none : momentum.none = .ok true)
    (number : ρ.val r = rate) : Descends ρ rate 0 (.descent (.ok (.scalar r)) momentum)
  | keeping {r f : α} {momentum : Momentum α} (some : momentum.none = .ok false)
    (factor : momentum.factor = .ok (.scalar f)) (number : ρ.val r = rate) :
    Descends ρ rate (ρ.val f) (.descent (.ok (.scalar r)) momentum)

theorem Descends.defined (descends : rule.Descends ρ rate μ) : rule ≠ .undefined := by
  rintro rfl
  cases descends

/-- A step moves a value by the next velocity, and leaves that where velocities are kept. -/
theorem Descends.step (descends : rule.Descends ρ rate μ) (exact : ρ.Exact) (steps : ℕ)
    {s : List ℕ} {x v g : List ℕ → R} {t d : Tensor α} {a : Option (List (Tensor α))}
    (value : ρ.Represents s x t) (grad : ρ.Represents s g d)
    (kept : rule.Keeps → ρ.Averages s [v] a) :
    ∃ m, rule.step steps d ⟨t, a⟩ = .ok () m ∧
      ρ.Represents s (fun q => x q + (v q * μ - rate * g q)) m.value ∧
      (rule.Keeps → ρ.Averages s [fun q => v q * μ - rate * g q] m.averages) := by
  cases descends with
  | @plain r momentum none number =>
    obtain ⟨t', moved, represents⟩ := descend_exact (a := a) exact r value grad
    have stepped : (UpdateRule.descent (.ok (.scalar r)) momentum).step steps d ⟨t, a⟩ =
        .ok () ⟨t', a⟩ := by
      rw [UpdateRule.step, run_bind (given_answers none _)]
      exact moved
    refine ⟨_, stepped, represents.congr fun q _ => ?_, fun keeps => ?_⟩
    · rw [number, mul_zero, zero_sub, sub_eq_add_neg]
    · cases none.symm.trans keeps
  | @keeping r f momentum some factor number =>
    obtain ⟨t', u', moved, velocity, represents⟩ :=
      descendWith_exact exact r f (kept some) value grad
    have stepped : (UpdateRule.descent (.ok (.scalar r)) momentum).step steps d ⟨t, a⟩ =
        .ok () ⟨t', Option.some [u']⟩ := by
      rw [UpdateRule.step, run_bind (given_answers some _), factor]
      exact moved
    rw [number] at velocity represents
    exact ⟨_, stepped, represents, fun _ => .some (.cons velocity .nil)⟩

end UpdateRule

/-! ### Runs -/

namespace Session

open Element.Reading

variable {α R : Type} [Element α] [CommRing R] {type : StorageType}
  {ρ : Element.Reading α R type} {rate μ : R} {number : ℕ} {n : Node α} {x₀ : Tensor α}
  {gs : List (Option (Tensor α))} {known : Node α → Prop} {s s' : Session α}

/-- What happens between the steps of an optimizer leaves the value of a node. -/
def Unmoved (n : Node α) (s s' : Session α) : Prop := s'.valueOf n = s.valueOf n

/-- A run in which an optimizer descends a parameter that it has to itself, from a value and without
a velocity. -/
structure Descent (ρ : Element.Reading α R type) (rate μ : R) (number : ℕ) (n : Node α)
    (o : Optimizer α) (s₀ : Session α) (x₀ : Tensor α) (gs : List (Option (Tensor α)))
    (known : Node α → Prop) (s : Session α) : Prop where
  rule : o.rule.Descends ρ rate μ
  lone : o.Lone n
  fresh : o.state? n.label = none
  record : s₀.optimizers[number]? = some o
  value : s₀.valueOf n = some x₀
  run : Run (Unmoved n) number n s₀ gs known s

/-- What some gradients have made of a value and of its velocity. -/
structure Descended (ρ : Element.Reading α R type) (rate μ : R) (number : ℕ) (n : Node α)
    (o : Optimizer α) (x₀ : Tensor α) (ds : List (Tensor α)) (s : Session α) : Prop where
  value : ∃ x, s.valueOf n = some x ∧ ρ.Represents n.shape.extents (fun q => ρ.entry x₀ q -
    rate * ∑ i ∈ Finset.range ds.length, aged μ (ρ.series ds q) (i + 1)) x
  velocity : o.rule.Keeps → ρ.Averages n.shape.extents
    [fun q => -(rate * aged μ (ρ.series ds q) ds.length)] (s.course number n).averages

namespace Descended

variable {o : Optimizer α} {ds : List (Tensor α)} {d x : Tensor α}

/-- Only the value and the averages of a node matter. -/
theorem congr (descended : Descended ρ rate μ number n o x₀ ds s)
    (value : s'.valueOf n = s.valueOf n)
    (averages : (s'.course number n).averages = (s.course number n).averages) :
    Descended ρ rate μ number n o x₀ ds s' := by
  obtain ⟨held, velocity⟩ := descended
  rw [← value] at held
  rw [← averages] at velocity
  exact ⟨held, velocity⟩

/-- A gradient of the extents of the node can be applied, and is one more. -/
theorem applies (descended : Descended ρ rate μ number n o x₀ ds s) (exact : ρ.Exact)
    (rule : o.rule.Descends ρ rate μ) (steps : ℕ) (held : s.valueOf n = some x)
    (shape : d.shape = n.shape.extents) :
    ∃ m, o.rule.step steps d ⟨x, (s.course number n).averages⟩ = .ok () m ∧
      ∀ s', s'.valueOf n = some m.value → (s'.course number n).averages = m.averages →
        Descended ρ rate μ number n o x₀ (ds ++ [d]) s' := by
  obtain ⟨⟨_, found, value⟩, velocity⟩ := descended
  cases held.symm.trans found
  obtain ⟨m, applied, value', velocity'⟩ :=
    rule.step exact steps value (exact.represents shape) velocity
  have next (q : List ℕ) : -(rate * aged μ (ρ.series ds q) ds.length) * μ - rate * ρ.entry d q =
      -(rate * aged μ (ρ.series (ds ++ [d]) q) (ds ++ [d]).length) := by
    rw [aged_append]
    ring
  refine ⟨m, applied, fun s' value averages => ⟨⟨m.value, value, ?_⟩, fun keeps => ?_⟩⟩
  · refine value'.congr fun q _ => ?_
    rw [total_append]
    ring
  · rw [averages]
    simp only [← next]
    exact velocity' keeps

end Descended

namespace Descent

variable {o : Optimizer α} {s₀ : Session α}

/-- Along a run the gradients of the steps are applied, one after the other. -/
theorem descended (exact : ρ.Exact)
    (descent : Descent ρ rate μ number n o s₀ x₀ gs known s) :
    Descended ρ rate μ number n o x₀ gs.reduceOption s := by
  obtain ⟨rule, lone, fresh, record, value, run⟩ := descent
  induction run with
  | start attained =>
    have run : Run (Unmoved n) number n s₀ [] _ s₀ := .start attained
    obtain ⟨values, _⟩ := run.extents record lone
    refine ⟨⟨x₀, value, (exact.represents (values x₀ value)).congr fun q _ => ?_⟩, fun _ => ?_⟩
    · rw [List.reduceOption_nil, List.length_nil, Finset.sum_range_zero, mul_zero, sub_zero]
    · rw [course_eq record, fresh]
      refine .none fun v mem q => ?_
      obtain rfl := List.mem_singleton.mp mem
      change -(rate * aged μ _ 0) = 0
      rw [aged_zero, mul_zero, neg_zero]
  | aside _ _ same unmoved ih =>
    refine ih.congr unmoved ?_
    rw [course, course, same]
  | @step gs _ s _ before answered ih =>
    obtain ⟨idle, moves⟩ := before.next record lone answered
    cases pulled : s.pull n with
    | none =>
      have course := idle pulled
      rw [List.reduceOption_append, List.reduceOption_singleton, Option.toList_none,
        List.append_nil]
      refine ih.congr (congrArg Course.value course) ?_
      rw [course]
      rfl
    | some d =>
      obtain ⟨x, m, held, _, shape, applied, course⟩ := moves d pulled
      obtain ⟨_, applied', next⟩ := ih.applies exact rule _ held shape
      cases applied.symm.trans applied'
      rw [List.reduceOption_append, List.reduceOption_singleton, Option.toList_some]
      exact next _ (congrArg Course.value course) (congrArg Course.averages course)

/-- The rule can always be applied to the parameter. -/
theorem able (exact : ρ.Exact) (descent : Descent ρ rate μ number n o s₀ x₀ gs known s) :
    (s.course number n).begun.fault? o.rule (s.gradOf n) = none := by
  refine descent.run.able descent.record descent.lone fun x d held _ shape => ?_
  obtain ⟨m, applied, _⟩ := (descent.descended exact).applies exact descent.rule _ held shape
  exact ⟨m, applied⟩

end Descent

end Session

/-! ### Examples -/

namespace Sample

open Session

end Sample

end ReverseMode
