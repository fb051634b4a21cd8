import ReverseMode.Operator.Fibres
import ReverseMode.Operator.Pointwise
import ReverseMode.Proofs.Typing

/-!
Numbers in float types.

Numbers that are stored in float types combine to such numbers, also with literals. So nothing that
an operator does to floats is refused, be it one element at a time or a whole fibre. Two literals
are left out here, since a quotient of them may be refused and an integer among them may not fit.
-/

namespace ReverseMode

open scoped Element
open Element (whole real)

namespace Scalar

variable {x y z : Scalar} {xs : List Scalar}

/-- A number that is stored in a float type. -/
def Floating (x : Scalar) : Prop := ∃ s, x.type? = some s ∧ s.Floating

/-- A number that combines with every float: a float, or a literal that a double can hold. -/
def Amenable (x : Scalar) : Prop :=
  x.Floating ∨ x.type? = none ∧ x.refusal? = none ∧ x.reaches .float64 = true

theorem Floating.amenable (float : x.Floating) : x.Amenable := .inl float

theorem Floating.refusal? (float : x.Floating) : x.refusal? = none := by
  obtain ⟨s, typed, _⟩ := float
  exact refusal?_of_type? typed

theorem Floating.stored (float : x.Floating) : x.type?.isSome := by
  obtain ⟨s, typed, _⟩ := float
  simp [typed]

theorem Amenable.refusal? (amenable : x.Amenable) : x.refusal? = none := by
  rcases amenable with float | ⟨_, plain, _⟩
  · exact float.refusal?
  · exact plain

theorem amenable_real (c : Float) : (real c : Scalar).Amenable :=
  .inr ⟨rfl, rfl, reaches_real .float64 c⟩

theorem amenable_whole {n : Int} (held : (Scalar.whole n).reaches .float64 = true) :
    (whole n : Scalar).Amenable :=
  .inr ⟨rfl, rfl, held⟩

theorem amenable_zero : (whole 0 : Scalar).Amenable := amenable_whole (by decide +kernel)

theorem amenable_one : (whole 1 : Scalar).Amenable := amenable_whole (by decide +kernel)

/-- An amenable number reaches every float type, since singles and halves take as large literals
as doubles do. -/
theorem Amenable.reaches (amenable : x.Amenable) {s : StorageType} (float : s.Floating) :
    x.reaches s = true := by
  rcases amenable with ⟨t, typed, _⟩ | ⟨_, _, held⟩
  · exact reaches_of_type? typed s
  · rcases float with rfl | rfl | rfl
    · cases x <;> exact held
    · cases x <;> exact held
    · exact held

/-! ### Types of results -/

theorem join_floating {s t : StorageType} (first : s.Floating) (second : t.Floating) :
    (s.join t).Floating := by
  rcases first with rfl | rfl | rfl <;> rcases second with rfl | rfl | rfl
  · exact .inl rfl
  · exact .inr (.inl rfl)
  · exact .inr (.inr rfl)
  · exact .inr (.inl rfl)
  · exact .inr (.inl rfl)
  · exact .inr (.inr rfl)
  · exact .inr (.inr rfl)
  · exact .inr (.inr rfl)
  · exact .inr (.inr rfl)

/-- A literal takes the type of the float beside it. -/
theorem common_literal {s : StorageType} (typed : x.type? = some s) (float : s.Floating)
    (literal : y.type? = none) (plain : y.refusal? = none) : common x y = s ∧ common y x = s := by
  unfold common
  rw [typed, literal]
  cases y with
  | whole => rcases float with rfl | rfl | rfl <;> exact ⟨rfl, rfl⟩
  | real => rcases float with rfl | rfl | rfl <;> exact ⟨rfl, rfl⟩
  | refused => cases plain
  | _ => cases literal

theorem common_floating (first : x.Amenable) (second : y.Amenable)
    (either : x.Floating ∨ y.Floating) : (common x y).Floating := by
  rcases first with ⟨s, typed, float⟩ | ⟨literal, plain, _⟩
  · rcases second with ⟨t, typed', float'⟩ | ⟨literal, plain, _⟩
    · rw [common_of_types typed typed']
      exact join_floating float float'
    · rw [(common_literal typed float literal plain).1]
      exact float
  · rcases either with float | ⟨t, typed, float⟩
    · exact absurd float.stored (by simp [literal])
    · rw [(common_literal typed float literal plain).2]
      exact float

/-- Numbers of which at least one is a float combine to a float. -/
theorem floating_apply (f : Binary) (first : x.Amenable) (second : y.Amenable)
    (either : x.Floating ∨ y.Floating) : (f.apply x y).Floating := by
  have float := common_floating first second either
  rw [apply_eq f (either.imp Floating.stored Floating.stored),
    unlessRefused_plain first.refusal? second.refusal?, first.reaches float, second.reaches float]
  exact ⟨_, type?_within f _ x y, float⟩

theorem floating_div (first : x.Amenable) (second : y.Amenable)
    (either : x.Floating ∨ y.Floating) : (x.div y).Floating := by
  have float := common_floating first second either
  have same : quotientType (common x y) = common x y := by
    rcases float with is | is | is <;> rw [is] <;> rfl
  rw [div_eq (either.imp Floating.stored Floating.stored), same,
    unlessRefused_plain first.refusal? second.refusal?, first.reaches float, second.reaches float]
  exact ⟨_, type?_within division _ x y, float⟩

/-! ### Operations -/

/-- Floats are no truth values. -/
theorem Floating.ne_bool (float : x.Floating) : x.type? ≠ some .bool := by
  obtain ⟨s, typed, rfl | rfl | rfl⟩ := float <;> simp [typed]

theorem floating_sub (first : x.Amenable) (second : y.Amenable)
    (either : x.Floating ∨ y.Floating) : (x.sub y).Floating := by
  have numbers : ¬(x.type? = some .bool ∧ y.type? = some .bool) := fun ⟨one, other⟩ =>
    either.elim (fun float => float.ne_bool one) fun float => float.ne_bool other
  rw [sub_eq, if_neg numbers]
  exact floating_apply subtraction first second either

theorem Floating.add (float : x.Floating) (other : y.Amenable) : (x + y).Floating :=
  floating_apply addition float.amenable other (.inl float)

theorem Floating.sub (float : x.Floating) (other : y.Amenable) : (x - y).Floating :=
  floating_sub float.amenable other (.inl float)

theorem Floating.sub_left (float : x.Floating) (other : y.Amenable) : (y - x).Floating :=
  floating_sub other float.amenable (.inr float)

theorem Floating.mul (float : x.Floating) (other : y.Amenable) : (x * y).Floating :=
  floating_apply multiplication float.amenable other (.inl float)

theorem Floating.mul_left (float : x.Floating) (other : y.Amenable) : (y * x).Floating :=
  floating_apply multiplication other float.amenable (.inr float)

theorem Floating.div (float : x.Floating) (other : y.Amenable) : (x / y).Floating :=
  floating_div float.amenable other (.inl float)

theorem Floating.div_left (float : x.Floating) (other : y.Amenable) : (y / x).Floating :=
  floating_div other float.amenable (.inr float)

theorem type?_neg (number : x.type? ≠ some .bool) : (-x).type? = x.type? := by
  cases x with
  | bool => exact absurd rfl number
  | _ => rfl

theorem type?_abs (x : Scalar) : (Element.abs x).type? = x.type? := by
  cases x <;> rfl

theorem Floating.neg (float : x.Floating) : (-x).Floating := by
  obtain ⟨s, typed, is⟩ := id float
  exact ⟨s, (type?_neg float.ne_bool).trans typed, is⟩

theorem Floating.abs (float : x.Floating) : (Element.abs x).Floating := by
  obtain ⟨s, typed, is⟩ := float
  exact ⟨s, (type?_abs x).trans typed, is⟩

/-- A real function of a float is a float of that type. -/
theorem Floating.function (f : Float → Float) (float : x.Floating) : (function f x).Floating := by
  obtain ⟨s, typed, float⟩ := float
  unfold Scalar.function
  rw [refusal?_of_type? typed, ownType_of_type? typed]
  rcases float with rfl | rfl | rfl
  · exact ⟨.float16, rfl, .inl rfl⟩
  · exact ⟨.float32, rfl, .inr (.inl rfl)⟩
  · exact ⟨.float64, rfl, .inr (.inr rfl)⟩

theorem Floating.exp (float : x.Floating) : (Element.exp x).Floating := float.function Float.exp

theorem Floating.log (float : x.Floating) : (Element.log x).Floating := float.function Float.log

theorem Floating.sqrt (float : x.Floating) : (Element.sqrt x).Floating := float.function Float.sqrt

/-- A number stored as a float is. -/
theorem Floating.like (float : x.Floating) (plain : y.refusal? = none) :
    (Element.like x y).Floating := by
  obtain ⟨s, typed, float⟩ := float
  refine ⟨s, ?_, float⟩
  change (y.store x.ownType).type? = some s
  rw [ownType_of_type? typed]
  exact type?_store plain

theorem Floating.max (float : x.Floating) (other : y.Amenable) : (Element.max x y).Floating := by
  change (Scalar.max x y).Floating
  unfold Scalar.max
  split
  · exact floating_apply maximum float.amenable other (.inl float)
  · exact floating_apply maximum other float.amenable (.inr float)

theorem Floating.min (float : x.Floating) (other : y.Amenable) : (Element.min x y).Floating := by
  change (Scalar.min x y).Floating
  unfold Scalar.min
  split
  · exact floating_apply minimum float.amenable other (.inl float)
  · exact floating_apply minimum other float.amenable (.inr float)

theorem Floating.clampTo (float : x.Floating) (bound : Float) : (clampTo bound x).Floating :=
  floating_apply minimum
    (floating_apply maximum float.amenable (amenable_real (-bound)) (.inl float)).amenable
    (amenable_real bound)
      (.inl (floating_apply maximum float.amenable (amenable_real _) (.inl float)))

theorem floating_logaddexp (first : x.Amenable) (second : y.Amenable)
    (either : x.Floating ∨ y.Floating) : (Element.logaddexp x y).Floating := by
  change (Scalar.logaddexp x y).Floating
  unfold Scalar.logaddexp
  rw [unlessRefused_plain first.refusal? second.refusal?]
  rcases common_floating first second either with is | is | is <;> rw [is]
  · exact ⟨.float16, rfl, .inl rfl⟩
  · exact ⟨.float32, rfl, .inr (.inl rfl)⟩
  · exact ⟨.float64, rfl, .inr (.inr rfl)⟩

theorem Floating.logistic (float : x.Floating) : (logistic x).Floating :=
  (floating_logaddexp amenable_zero float.neg.amenable (.inr float.neg)).neg.exp

/-! ### Lists -/

theorem foldl_floating {f : Scalar → Scalar → Scalar}
    (step : ∀ {x y : Scalar}, x.Floating → y.Floating → (f x y).Floating) (start : x.Floating)
    (floats : ∀ y ∈ xs, y.Floating) : (xs.foldl f x).Floating := by
  induction xs generalizing x with
  | nil => exact start
  | cons y ys ih =>
    rw [List.forall_mem_cons] at floats
    exact ih (step start floats.1) floats.2

theorem sumType_floating {s : StorageType} (float : s.Floating) : (sumType s).Floating := by
  rcases float with rfl | rfl | rfl
  · exact .inl rfl
  · exact .inr (.inl rfl)
  · exact .inr (.inr rfl)

theorem Floating.ownType (float : x.Floating) : x.ownType.Floating := by
  obtain ⟨s, typed, float⟩ := float
  rwa [ownType_of_type? typed]

theorem floating_prod {dense : Bool} (some : xs ≠ []) (floats : ∀ x ∈ xs, x.Floating) :
    (Element.prod dense xs).Floating := by
  obtain ⟨x, rest, rfl⟩ := List.exists_cons_of_ne_nil some
  refine ⟨_, ?_, sumType_floating (floats x (by simp)).ownType⟩
  change (Scalar.prod dense (x :: rest)).type? = _
  unfold Scalar.prod
  dsimp only
  rw [refusalIn?_eq_none fun y mem => (floats y mem).refusal?]
  have started := type?_store
    (t := if dense then runType (sumType x.ownType) else sumType x.ownType)
    (floats x (by simp)).refusal?
  exact type?_store (refusal?_of_type? (type?_foldl_within multiplication started rest))

/-- The mean of floats is one if their number is held by a double. -/
theorem floating_mean (some : xs ≠ []) (floats : ∀ x ∈ xs, x.Floating)
    (counted : (whole xs.length : Scalar).Amenable) : (Element.mean xs).Floating := by
  obtain ⟨x, rest, rfl⟩ := List.exists_cons_of_ne_nil some
  change (Scalar.mean (x :: rest)).Floating
  unfold Scalar.mean
  dsimp only
  rw [refusalIn?_eq_none fun y mem => (floats y mem).refusal?]
  have through : ∀ {t s : StorageType}, t.Floating → s.Floating →
      (((totalWithin t (x :: rest)).div (.whole (x :: rest).length)).store s).Floating := by
    intro t s float float'
    have total : (totalWithin t (x :: rest)).Floating := ⟨t, type?_totalWithin t _, float⟩
    exact ⟨s, type?_store (total.div counted).refusal?, float'⟩
  rcases (floats x (by simp)).ownType with is | is | is <;> rw [is]
  · exact through (.inr (.inl rfl)) (.inl rfl)
  · exact through (.inr (.inl rfl)) (.inr (.inl rfl))
  · exact through (.inr (.inr rfl)) (.inr (.inr rfl))

end Scalar

end ReverseMode
