import ReverseMode.Proofs.RealElements
import ReverseMode.Proofs.Representation
import ReverseMode.Proofs.UpdateFormulas

/-!
Update rules in exact arithmetic.

Where every element is read in a ring and nothing is rounded or refused, the changes in place that
a rule makes cannot fail on arrays of the same extents, and what they leave represents what the
rule says. A rule that keeps averages starts them at zero.
-/

namespace ReverseMode

open scoped Element

namespace Element.Reading

open Tensor

variable {α R : Type} [Element α] [CommRing R] {type : StorageType}

/-- Every element is read, the arithmetic is that of the ring, and an element that is put in the
place of another one is kept as it is. -/
structure Exact (ρ : Element.Reading α R type) : Prop extends ρ.Arithmetic where
  all (x : α) : ρ.carrier x
  replace (x y : α) : ρ.val (Element.replace x y) = ρ.val y

variable {ρ : Element.Reading α R type} {s : List Nat} {v w : List Nat → R} {t u : Tensor α}
  {h : α → α} {f : α → α → α}

/-- A function of elements applied to an array that represents something. -/
theorem Represents.map (represents : ρ.Represents s v t) (z : R → R)
    (each : ∀ x, ρ.carrier x → ρ.carrier (h x) ∧ ρ.val (h x) = z (ρ.val x)) :
    ρ.Represents s (fun q => z (v q)) (t.map h) := by
  obtain ⟨rfl, holds, entry⟩ := represents
  refine ⟨rfl, fun q inside => ?_, fun q inside => ?_⟩
  · have inside : q ∈ positions t.shape := inside
    rw [get_map h inside]
    exact (each _ (holds q inside)).1
  · rw [Element.Reading.entry, get_map h inside, (each _ (holds q inside)).2]
    exact congrArg z (entry q inside)

namespace Exact

variable (exact : ρ.Exact)

include exact

theorem represents (shape : t.shape = s) : ρ.Represents s (ρ.entry t) t :=
  ⟨shape, fun _ _ => exact.all _, fun _ _ => rfl⟩

theorem add (x y : α) : ρ.val (x + y) = ρ.val x + ρ.val y := (ρ.add (exact.all x) (exact.all y)).2

theorem mul (x y : α) : ρ.val (x * y) = ρ.val x * ρ.val y := (ρ.mul (exact.all x) (exact.all y)).2

theorem minus (x y : α) : ρ.val (x - y) = ρ.val x - ρ.val y :=
  (exact.sub (exact.all x) (exact.all y)).2

theorem sound (t : Tensor α) : t.sound = .ok t :=
  sound_eq_ok.mpr ⟨rfl, fun x _ => ρ.refusal? (exact.all x)⟩

/-- A number times an array. -/
theorem scaled (represents : ρ.Represents s v t) (c : α) :
    ∃ u, (Tensor.scalar c).combine (· * ·) t = .ok u ∧
      ρ.Represents s (fun q => ρ.val c * v q) u :=
  ⟨_, (combine_number c t).1, represents.map (ρ.val c * ·) fun x _ => ⟨exact.all _, exact.mul c x⟩⟩

/-- An array changed in place by one of the same extents. -/
theorem update (z : R → R → R) (each : ∀ x y, ρ.val (f x y) = z (ρ.val x) (ρ.val y))
    (first : ρ.Represents s v t) (second : ρ.Represents s w u) :
    ∃ r, t.updateInPlace f u = .ok r ∧ ρ.Represents s (fun q => z (v q) (w q)) r := by
  have joined : broadcast? [t.shape, u.shape] = some s := by
    rw [first.shape, second.shape]
    exact (Fits.refl s).broadcast
  obtain ⟨r, combined, represents⟩ := represents_combine (h := fun x y => Element.replace x (f x y))
    z joined (fun _ => first.here) (fun _ => second.here) fun {x y} _ _ =>
      ⟨exact.all _, (exact.replace x _).trans (each x y)⟩
  exact ⟨r, updateInPlace_of_combine combined (represents.shape.trans first.shape.symm)
    fun _ _ _ _ => ρ.refusal? (exact.all _), represents⟩

/-- An array changed in place by a number. -/
theorem updateNumber (z : R → R → R) (each : ∀ x y, ρ.val (f x y) = z (ρ.val x) (ρ.val y))
    (represents : ρ.Represents s v t) (c : α) :
    ∃ r, t.updateInPlace f (.scalar c) = .ok r ∧
      ρ.Represents s (fun q => z (v q) (ρ.val c)) r :=
  ⟨_, updateInPlace_of_combine (combine_number c t).2 rfl fun _ _ _ _ => ρ.refusal? (exact.all _),
    represents.map (z · (ρ.val c)) fun x _ =>
      ⟨exact.all _, (exact.replace x _).trans (each x c)⟩⟩

/-- Zeros like an array. -/
theorem zerosLike (shape : t.shape = s) :
    ρ.Represents s (fun _ => 0) (UpdateRule.zerosLike t) := by
  refine (exact.represents shape).map (fun _ => 0) fun x _ => ⟨exact.all _, ?_⟩
  rw [(ρ.like (exact.all x) (exact.all _)).2]
  exact (exact.whole 0).2.trans Nat.cast_zero

end Exact

/-- Averages that represent functions of positions; there may be none yet where all are zero. -/
inductive Averages (ρ : Element.Reading α R type) (s : List Nat) (vs : List (List Nat → R)) :
    Option (List (Tensor α)) → Prop
  | none (zero : ∀ v ∈ vs, ∀ q, v q = 0) : Averages ρ s vs none
  | some {ts : List (Tensor α)} (each : List.Forall₂ (ρ.Represents s) vs ts) :
    Averages ρ s vs (some ts)

end Element.Reading

namespace UpdateRule

open Element.Reading

variable {α R : Type} [Element α] [CommRing R] {type : StorageType}
  {ρ : Element.Reading α R type} {s : List Nat} {v w x g : List Nat → R} {t u d : Tensor α}
  {a : Option (List (Tensor α))}

omit [Element α] in
theorem given_answers {β : Type} {e : Except Fault β} {b : β} (made : e = .ok b) (m : Moving α) :
    (given e : MovingM α β) m = .ok b m := by
  rw [made]
  rfl

theorem moveValue_answers {f : α → α → α} (updated : t.updateInPlace f u = .ok d) :
    moveValue f u ⟨t, a⟩ = .ok () ⟨d, a⟩ := by
  have got : (get : MovingM α _) ⟨t, a⟩ = .ok ⟨t, a⟩ ⟨t, a⟩ := rfl
  rw [moveValue, run_bind got, run_bind (given_answers updated _)]
  rfl

omit [Element α] in
theorem setAverage_answers (i : Nat) (ts : List (Tensor α)) :
    (setAverage i u : MovingM α Unit) ⟨t, some ts⟩ = .ok () ⟨t, some (ts.set i u)⟩ := rfl

variable (exact : ρ.Exact)

include exact

/-- The averages that a rule starts from. -/
theorem averages_exact (count : Nat) {vs : List (List Nat → R)} (kept : ρ.Averages s vs a)
    (length : vs.length = count) (shape : t.shape = s) :
    ∃ ts, (averages count : MovingM α _) ⟨t, a⟩ = .ok ts ⟨t, some ts⟩ ∧
      List.Forall₂ (ρ.Represents s) vs ts := by
  subst length
  cases kept with
  | @some ts each => exact ⟨ts, rfl, each⟩
  | none zero =>
    refine ⟨List.replicate vs.length (UpdateRule.zerosLike t), rfl, ?_⟩
    refine List.forall₂_iff_get.mpr ⟨by simp, fun i bound _ => ?_⟩
    rw [List.get_eq_getElem, List.get_eq_getElem, List.getElem_replicate]
    exact (exact.zerosLike shape).congr fun q _ => (zero _ (List.getElem_mem bound) q).symm

/-- Gradient descent without a velocity. -/
theorem descend_exact (rate : α) (value : ρ.Represents s x t) (grad : ρ.Represents s g d) :
    ∃ t', descend (.ok (.scalar rate)) d ⟨t, a⟩ = .ok () ⟨t', a⟩ ∧
      ρ.Represents s (fun q => x q - ρ.val rate * g q) t' := by
  obtain ⟨pull, scaled, represents⟩ := exact.scaled grad rate
  obtain ⟨t', updated, represents⟩ := exact.update (· - ·) exact.minus value represents
  refine ⟨t', ?_, represents⟩
  rw [descend, run_bind (given_answers rfl _), run_bind (given_answers scaled _)]
  exact moveValue_answers updated

/-- Gradient descent with a velocity. -/
theorem descendWith_exact (rate factor : α) (kept : ρ.Averages s [v] a)
    (value : ρ.Represents s x t) (grad : ρ.Represents s g d) :
    ∃ t' u', descendWith (.ok (.scalar rate)) (.ok (.scalar factor)) d ⟨t, a⟩ =
        .ok () ⟨t', some [u']⟩ ∧
      ρ.Represents s (fun q => v q * ρ.val factor - ρ.val rate * g q) u' ∧
      ρ.Represents s (fun q => x q + (v q * ρ.val factor - ρ.val rate * g q)) t' := by
  obtain ⟨ts, started, each⟩ := averages_exact exact 1 kept rfl value.shape
  obtain ⟨velocity, _, held, none, rfl⟩ := List.forall₂_cons_left_iff.mp each
  cases none
  obtain ⟨pull, scaled, pulls⟩ := exact.scaled grad rate
  obtain ⟨slowed, faded, slows⟩ := exact.updateNumber (· * ·) exact.mul held factor
  obtain ⟨u', pulled, moves⟩ := exact.update (· - ·) exact.minus slows pulls
  obtain ⟨t', moved, represents⟩ := exact.update (· + ·) exact.add value moves
  refine ⟨t', u', ?_, moves, represents⟩
  rw [descendWith, run_bind started]
  dsimp only
  rw [run_bind (given_answers rfl _), run_bind (given_answers faded _),
    run_bind (setAverage_answers 0 _), run_bind (given_answers rfl _),
    run_bind (given_answers scaled _), run_bind (given_answers pulled _),
    run_bind (setAverage_answers 0 _)]
  exact moveValue_answers moved

end UpdateRule

/-! ### Numbers -/

end ReverseMode
