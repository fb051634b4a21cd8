import ReverseMode.Element.Algebra

/-!
Storage types of numbers.

The storage type of a result is known from the storage types of the operands, and so is whether
there is a result at all: next to a stored number only a literal can be refused, whatever the
stored number is. Numbers are kin that are stored in one type, or equal; operations on kin numbers
give kin numbers. The elements of an array are kin, so what an operation refuses for one of them it
refuses for all.
-/

namespace ReverseMode

namespace StorageType

/-- Whether a storage type is a float type. -/
def Floating (s : StorageType) : Prop := s = .float16 ∨ s = .float32 ∨ s = .float64

@[simp] theorem join_self (s : StorageType) : s.join s = s := by
  cases s with
  | int t => simp [join, joinIntegers]
  | _ => rfl

end StorageType

theorem ElementType.storage_floating {t : ElementType} (float : t.isFloat = true) :
    t.storage.Floating := by
  cases t with
  | float64 => exact .inr (.inr rfl)
  | float32 => exact .inr (.inl rfl)
  | float16 => exact .inl rfl
  | _ => cases float

namespace Scalar

variable {a a' b b' x x' : Scalar} {s t : StorageType}

/-! ### Types of results -/

theorem refusal?_of_type? (typed : a.type? = some s) : a.refusal? = none := by
  cases a with
  | refused => cases typed
  | _ => rfl

theorem ownType_of_type? (typed : a.type? = some s) : a.ownType = s := by
  cases a with
  | whole | real | refused => cases typed
  | _ => exact Option.some.inj typed

/-- Only a literal can be out of reach of a type. -/
theorem reaches_of_type? (typed : a.type? = some s) (t : StorageType) : a.reaches t = true := by
  cases a with
  | whole | real | refused => cases typed
  | _ => cases t <;> rfl

theorem reaches_real (t : StorageType) (x : Float) : (real x).reaches t = true := by
  cases t <;> rfl

theorem type?_store (plain : a.refusal? = none) : (a.store t).type? = some t := by
  unfold store
  rw [plain]
  cases t <;> rfl

@[simp] theorem refusal?_store : (a.store t).refusal? = a.refusal? := by
  cases refusal : a.refusal? with
  | some k =>
    unfold store
    rw [refusal]
    rfl
  | none => exact refusal?_of_type? (type?_store refusal)

@[simp] theorem type?_within (f : Binary) (t : StorageType) (a b : Scalar) :
    (f.within t a b).type? = some t := by
  cases t <;> rfl

theorem unlessRefused_plain (first : a.refusal? = none) (second : b.refusal? = none) :
    unlessRefused a b x = x := by
  unfold unlessRefused
  rw [first, second]

/-- Numbers of which one at least is stored are combined in their common type. -/
theorem apply_eq (f : Binary) (stored : a.type?.isSome ∨ b.type?.isSome) :
    f.apply a b = unlessRefused a b
      (if a.reaches (common a b) && b.reaches (common a b) then f.within (common a b) a b
      else refused .overflow) := by
  have either : (a.type?.isNone && b.type?.isNone) = false := by
    rcases stored with stored | stored
    · simp [Option.isNone_eq_false_iff.mpr stored]
    · simp [Option.isNone_eq_false_iff.mpr stored]
  rw [Binary.apply, either]
  rfl

theorem div_eq (stored : a.type?.isSome ∨ b.type?.isSome) :
    a.div b = unlessRefused a b
      (if a.reaches (quotientType (common a b)) && b.reaches (quotientType (common a b)) then
        division.within (quotientType (common a b)) a b
      else refused .overflow) := by
  have either : (a.type?.isNone && b.type?.isNone) = false := by
    rcases stored with stored | stored
    · simp [Option.isNone_eq_false_iff.mpr stored]
    · simp [Option.isNone_eq_false_iff.mpr stored]
  rw [div, either]
  rfl

/-- A stored number beside one that reaches their common type gives a number of that type. -/
theorem type?_apply (f : Binary) (typed : a.type? = some s) (plain : b.refusal? = none)
    (reaches : b.reaches (common a b) = true) : (f.apply a b).type? = some (common a b) := by
  rw [apply_eq f (.inl (by simp [typed])), unlessRefused_plain (refusal?_of_type? typed) plain,
    reaches_of_type? typed, reaches]
  exact type?_within f _ a b

theorem common_of_types (first : a.type? = some s) (second : b.type? = some t) :
    common a b = s.join t := by
  unfold common
  rw [first, second]

/-- Two numbers of one type give a number of that type. -/
theorem type?_apply_self (f : Binary) (first : a.type? = some s) (second : b.type? = some s) :
    (f.apply a b).type? = some s := by
  have common : common a b = s := (common_of_types first second).trans s.join_self
  rw [← common]
  exact type?_apply f first (refusal?_of_type? second) (reaches_of_type? second _)

/-! ### Sums -/

/-- A computation in one type gives numbers of that type. -/
theorem type?_foldl_within (f : Binary) (typed : a.type? = some t)
    (xs : List Scalar) : (xs.foldl (f.within t) a).type? = some t := by
  induction xs generalizing a with
  | nil => exact typed
  | cons x xs ih => exact ih (type?_within f t a x)

theorem type?_totalWithin (t : StorageType) (xs : List Scalar) :
    (totalWithin t xs).type? = some t :=
  type?_foldl_within addition (type?_store rfl) xs

theorem refusalIn?_eq_none {xs : List Scalar} (plain : ∀ x ∈ xs, x.refusal? = none) :
    refusalIn? xs = none :=
  List.findSome?_eq_none_iff.mpr plain

/-- A sum has the type that numbers of the type of its first element are added up in. -/
theorem type?_sum {rest : List Scalar} {runs : List (List Scalar)}
    (first : runs.flatten = a :: rest)
    (plain : ∀ x ∈ a :: rest, x.refusal? = none) :
    (Scalar.sum runs).type? = some (sumType a.ownType) := by
  have typed : ∀ (runs : List (List Scalar)) {total : Scalar} {t : StorageType},
      total.type? = some t → (runs.foldl (addRun t) total).type? = some t := by
    intro runs
    induction runs with
    | nil => exact id
    | cons run runs ih =>
      intro total t _
      exact ih (type?_store (refusal?_of_type? (type?_within ..)))
  unfold Scalar.sum
  rw [first]
  dsimp only
  rw [refusalIn?_eq_none plain]
  exact typed runs (type?_store rfl)

/-! ### Kin -/

/-- Two numbers that are stored in one type, or equal. -/
def Kin (a b : Scalar) : Prop := (∃ s, a.type? = some s ∧ b.type? = some s) ∨ a = b

theorem Kin.refl (a : Scalar) : Kin a a := .inr rfl

theorem Kin.of_types (first : a.type? = some s) (second : b.type? = some s) : Kin a b :=
  .inl ⟨s, first, second⟩

theorem Kin.type? (kin : Kin a b) : a.type? = b.type? := by
  rcases kin with ⟨s, first, second⟩ | rfl
  · rw [first, second]
  · rfl

theorem Kin.refusal? (kin : Kin a b) : a.refusal? = b.refusal? := by
  rcases kin with ⟨s, first, second⟩ | rfl
  · rw [refusal?_of_type? first, refusal?_of_type? second]
  · rfl

theorem Kin.ownType (kin : Kin a b) : a.ownType = b.ownType := by
  rcases kin with ⟨s, first, second⟩ | rfl
  · rw [ownType_of_type? first, ownType_of_type? second]
  · rfl

theorem Kin.reaches (kin : Kin a b) (t : StorageType) : a.reaches t = b.reaches t := by
  rcases kin with ⟨s, first, second⟩ | rfl
  · rw [reaches_of_type? first, reaches_of_type? second]
  · rfl

theorem Kin.common (first : Kin a a') (second : Kin b b') :
    Scalar.common a b = Scalar.common a' b' := by
  rcases first with ⟨s, first, first'⟩ | rfl
  · rcases second with ⟨t, second, second'⟩ | rfl
    · rw [common_of_types first second, common_of_types first' second']
    · unfold Scalar.common
      rw [first, first']
      cases b <;> rfl
  · rcases second with ⟨t, second, second'⟩ | rfl
    · unfold Scalar.common
      rw [second, second']
      cases a <;> rfl
    · rfl

theorem Kin.unlessRefused (first : Kin a a') (second : Kin b b') (result : Kin x x') :
    Kin (unlessRefused a b x) (unlessRefused a' b' x') := by
  unfold Scalar.unlessRefused
  rw [first.refusal?, second.refusal?]
  cases a'.refusal? with
  | some k => exact .refl _
  | none =>
    cases b'.refusal? with
    | some k => exact .refl _
    | none => exact result

/-- A computation in one type, which may be out of reach. -/
theorem Kin.reached (f : Binary) (t : StorageType) (first : Kin a a') (second : Kin b b') :
    Kin (if a.reaches t && b.reaches t then f.within t a b else refused .overflow)
      (if a'.reaches t && b'.reaches t then f.within t a' b' else refused .overflow) := by
  rw [first.reaches, second.reaches]
  split
  · exact .of_types (type?_within f t a b) (type?_within f t a' b')
  · exact .refl _

/-- Kin numbers are equal where no number is stored. -/
theorem Kin.eq_of_literals (first : Kin a a') (second : Kin b b')
    (literal : ¬(a.type?.isSome ∨ b.type?.isSome)) : a = a' ∧ b = b' := by
  constructor
  · rcases first with ⟨s, typed, _⟩ | same
    · exact absurd (.inl (by simp [typed])) literal
    · exact same
  · rcases second with ⟨s, typed, _⟩ | same
    · exact absurd (.inr (by simp [typed])) literal
    · exact same

theorem Kin.apply (f : Binary) (first : Kin a a') (second : Kin b b') :
    Kin (f.apply a b) (f.apply a' b') := by
  by_cases stored : a.type?.isSome ∨ b.type?.isSome
  · have stored' : a'.type?.isSome ∨ b'.type?.isSome := by rwa [← first.type?, ← second.type?]
    rw [apply_eq f stored, apply_eq f stored', ← first.common second]
    exact first.unlessRefused second (first.reached f _ second)
  · obtain ⟨rfl, rfl⟩ := first.eq_of_literals second stored
    exact .refl _

theorem Kin.div (first : Kin a a') (second : Kin b b') : Kin (a.div b) (a'.div b') := by
  by_cases stored : a.type?.isSome ∨ b.type?.isSome
  · have stored' : a'.type?.isSome ∨ b'.type?.isSome := by rwa [← first.type?, ← second.type?]
    rw [div_eq stored, div_eq stored', ← first.common second]
    exact first.unlessRefused second (first.reached division _ second)
  · obtain ⟨rfl, rfl⟩ := first.eq_of_literals second stored
    exact .refl _

/-- Truth values have no difference; all other numbers do. -/
theorem sub_eq (a b : Scalar) : a.sub b =
    if a.type? = some .bool ∧ b.type? = some .bool then refused .type
    else subtraction.apply a b := by
  cases a with
  | bool => cases b <;> rfl
  | _ => rfl

theorem Kin.sub (first : Kin a a') (second : Kin b b') : Kin (a.sub b) (a'.sub b') := by
  rw [sub_eq, sub_eq, first.type?, second.type?]
  split
  · exact .refl _
  · exact first.apply subtraction second

theorem Kin.store (kin : Kin a b) (t : StorageType) : Kin (a.store t) (b.store t) := by
  rcases kin with ⟨s, first, second⟩ | rfl
  · exact .of_types (type?_store (refusal?_of_type? first)) (type?_store (refusal?_of_type? second))
  · exact .refl _

/-- A number stored as another one is. -/
theorem Kin.like (first : Kin a a') (second : Kin b b') :
    Kin (Element.like a b) (Element.like a' b') := by
  change Kin (b.store a.ownType) (b'.store a'.ownType)
  rw [first.ownType]
  exact second.store _

theorem Kin.replace (first : Kin a a') (second : Kin b b') :
    Kin (a.replace b) (a'.replace b') := by
  unfold Scalar.replace
  rw [first.ownType, second.ownType, second.refusal?]
  split
  · exact second.store _
  · exact .refl _

theorem Kin.function (f : Float → Float) (kin : Kin a b) :
    Kin (Scalar.function f a) (Scalar.function f b) := by
  rcases kin with ⟨s, first, second⟩ | rfl
  · unfold Scalar.function
    rw [refusal?_of_type? first, refusal?_of_type? second, ownType_of_type? first,
      ownType_of_type? second]
    cases functionType s with
    | float16 => exact .of_types (s := .float16) rfl rfl
    | float32 => exact .of_types (s := .float32) rfl rfl
    | _ => exact .of_types (s := .float64) rfl rfl
  · exact .refl _

/-- A number in the place of a stored one is stored as that was, unless it is refused. -/
theorem type?_replace (typed : a.type? = some s) (plain : (a.replace b).refusal? = none) :
    (a.replace b).type? = some s := by
  unfold Scalar.replace at plain ⊢
  rw [ownType_of_type? typed] at plain ⊢
  split at plain
  next admitted =>
    rw [if_pos admitted]
    rw [refusal?_store] at plain
    exact type?_store plain
  · cases plain

end Scalar

end ReverseMode
