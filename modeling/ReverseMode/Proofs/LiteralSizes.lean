import ReverseMode.Argument.Initializer
import ReverseMode.Proofs.Construction
import ReverseMode.Proofs.IntegerArrays

/-!
Sizes of literals.

A leaf that is made of given values counts them against its shape as soon as it is built. The
number that the shape needs is computed in 64 bits: the count is exact for every shape of less than
`2 ^ 63` elements, and beyond that values are taken whose number is what the elements wrap to
(`Graph.literal_size_checked`). A call that raises leaves no node behind.
-/

namespace ReverseMode

namespace Initializer

variable {held : ℕ} {shape : Shape}

theorem needed_of_small (small : shape.elements < 2 ^ 63) : needed shape = shape.elements :=
  IntegerType.wrap_of_fits (IntegerType.fits_int64.mpr (by omega))

theorem checkSize_eq_error {f : Fault} : checkSize held shape = .error f ↔
    (held : Int) ≠ needed shape ∧ f = .literalSize held shape.extents (needed shape) := by
  unfold checkSize
  split
  next same => simp [same]
  next other => simp [other, eq_comm]

end Initializer

/-! ### Literals as initializers -/

namespace Argument

variable {α : Type} [Element α] {a : Argument α} {l : Literal}

/-- A literal with axes is held as it is, whether it is given as it is or by name. -/
theorem literal_initializer (read : a.toLiteral = .ok l) (axes : l.shape ≠ []) :
    a.toInitializer = .ok (.ofLiteral l) ∧
      Initializer.named "from_array" ⟨[a], []⟩ = .ok (.ofLiteral l) := by
  have content : a.toContent = .ok (false, l) := by
    refine bind_eq_ok.mpr ⟨l, read, ?_⟩
    split
    next none _ => exact absurd none axes
    · rfl
  -- what is no value is one entry without axes
  have value : ∀ {e : Entry}, a.gather = .ok (.single .object e) → False := by
    intro e gathered
    rw [toLiteral, gathered] at read
    cases read
    exact axes rfl
  constructor
  · unfold toInitializer
    split
    · exact (value rfl).elim
    · exact (value rfl).elim
    · exact (value rfl).elim
    · rw [content]
      rfl
  · change (a.toLiteral.map Initializer.ofLiteral : Except Fault (Initializer α)) = _
    rw [read]
    rfl

end Argument

/-! ### Leaves -/

namespace Graph

variable {α : Type} [Element α] {g g' : Graph α} {l : Literal} {shape : Shape}
  {init : Initializer α} {name : Written} {type : Deferred (Option ElementType)}
  {trainable : Written} {t : ElementType}

/-- What a call that raises leaves of the records of a graph. -/
structure SameRecords (g g' : Graph α) : Prop where
  tape : g'.tape = g.tape
  index : g'.index = g.index
  parameters : g'.parameters = g.parameters

/-- A call that makes a leaf of a literal raises a fault of shapes exactly if the literal does not
have as many entries as 64 bits say that the shape needs, and no other fault. -/
structure Counts (l : Literal) (shape : Shape) (call : GraphM α (Node α)) (g : Graph α) : Prop where
  refuses : (∃ f g', call g = .error f g' ∧ f.kind = .shape) ↔
    (l.size : Int) ≠ Initializer.needed shape
  /-- The count is exact where 64 bits hold the number of elements. -/
  exact : shape.elements < 2 ^ 63 →
    ((∃ f g', call g = .error f g' ∧ f.kind = .shape) ↔ l.size ≠ shape.elements)
  told : ∀ f g', call g = .error f g' →
    f = .literalSize l.size shape.extents (Initializer.needed shape)

/-- A call that raises where the check of a literal does, and else answers. -/
theorem counts_of_check {call : GraphM α (Node α)} {n : Node α} {done left : Graph α}
    (accepted : checkHeld (Initializer.ofLiteral l : Initializer α) shape = .ok () →
      call g = .ok n done)
    (refused : ∀ f, checkHeld (Initializer.ofLiteral l : Initializer α) shape = .error f →
      call g = .error f left) : Counts l shape call g := by
  have held : checkHeld (Initializer.ofLiteral l : Initializer α) shape =
    Initializer.checkSize l.size shape := rfl
  rw [held] at accepted refused
  have raised {f : Fault} {g' : Graph α} (failed : call g = .error f g') :
      Initializer.checkSize l.size shape = .error f := by
    cases check : Initializer.checkSize l.size shape with
    | ok _ => cases failed.symm.trans (accepted check)
    | error e =>
      cases failed.symm.trans (refused e check)
      rfl
  have refuses : (∃ f g', call g = .error f g' ∧ f.kind = .shape) ↔
      (l.size : Int) ≠ Initializer.needed shape := by
    constructor
    · rintro ⟨f, g', failed, _⟩
      exact (Initializer.checkSize_eq_error.mp (raised failed)).1
    · exact fun other => ⟨_, _, refused _ (Initializer.checkSize_eq_error.mpr ⟨other, rfl⟩), rfl⟩
  refine ⟨refuses, fun small => ?_, fun f g' failed =>
    (Initializer.checkSize_eq_error.mp (raised failed)).2⟩
  rw [refuses, Initializer.needed_of_small small]
  exact not_congr Nat.cast_inj

omit [Element α] in
theorem constant_refused {f : Fault} (held : checkHeld init shape = .error f)
    (title : Option Written) : constant shape init type title g = .error f g := by
  rw [constant, raise_bind]
  exact .inl (raise_lift.mpr ⟨held, rfl⟩)

omit [Element α] in
theorem newParameter_refused {f : Fault} (typed : g.parameterType type = .ok t)
    (held : checkHeld init shape = .error f) :
    newParameter name shape (.ok init) type trainable g = .error f g.widened := by
  obtain ⟨t', wanted, float⟩ := bind_eq_ok.mp typed
  have fresh : (modifyGet freshId : GraphM α Nat) g = .ok g.slots.size g.widened := rfl
  rw [newParameter, run_bind (answer_get.mpr ⟨rfl, rfl⟩),
    run_bind (answer_lift.mpr ⟨wanted, rfl⟩), run_bind (answer_lift.mpr ⟨float, rfl⟩),
    run_bind fresh, run_bind (answer_lift.mpr ⟨rfl, rfl⟩), raise_bind]
  exact .inl (raise_lift.mpr ⟨held, rfl⟩)

omit [Element α] in
theorem sameRecords_of_raise (ends : g' = g ∨ g' = g.widened) : SameRecords g g' := by
  obtain rfl | rfl := ends
  · exact ⟨rfl, rfl, rfl⟩
  · exact ⟨rfl, rfl, rfl⟩

omit [Element α] in
theorem parameter_raise {given : Except Fault (Initializer α)} {f : Fault}
    (raised : parameter name shape given type trainable g = .error f g') :
    g' = g ∨ g' = g.widened := by
  cases found : g.parameter? name.value with
  | none => exact newParameter_raise ((parameter_new found).symm.trans raised)
  | some m =>
    rw [parameter_found found] at raised
    split at raised
    · cases raised
    · cases raised
      exact .inl rfl

/-- The size of a literal with axes is checked when a constant or a new parameter is built of it,
and whatever such a call raises, it leaves the tape, the index and the parameters as they are. -/
theorem literal_size_checked {a : Argument α} (read : a.toLiteral = .ok l) (axes : l.shape ≠ [])
    (g : Graph α) (shape : Shape) : ∃ init, a.toInitializer = .ok init ∧
      Initializer.named "from_array" ⟨[a], []⟩ = .ok init ∧
      (Argument.initializer init).toInitializer = .ok init ∧
      (∀ type title,
        (∀ t, g.typeOr type = .ok t → Counts l shape (constant shape init type title) g) ∧
        ∀ f g', constant shape init type title g = .error f g' → SameRecords g g') ∧
      ∀ name type trainable,
        (∀ t, g.parameter? name.value = none → g.parameterType type = .ok t →
          Counts l shape (parameter name shape (.ok init) type trainable) g) ∧
        ∀ f g', parameter name shape (.ok init) type trainable g = .error f g' →
          SameRecords g g' := by
  obtain ⟨given, named⟩ := Argument.literal_initializer read axes
  refine ⟨_, given, named, rfl, fun type title => ⟨fun t typed => ?_, fun f g' raised => ?_⟩,
    fun name type trainable => ⟨fun t absent typed => ?_, fun f g' raised => ?_⟩⟩
  · exact counts_of_check (fun held => constant_answer.mpr ⟨held, t, typed, rfl, rfl⟩)
      fun f held => constant_refused held title
  · exact sameRecords_of_raise (constant_raise raised)
  · exact counts_of_check
      (fun held => (parameter_new absent).trans
        (newParameter_answer.mpr ⟨t, _, typed, rfl, held, rfl, rfl⟩))
      fun f held => (parameter_new absent).trans (newParameter_refused typed held)
  · exact sameRecords_of_raise (parameter_raise raised)

end Graph

/-! ### Examples -/

namespace Sample

open ReverseMode.Graph
open scoped Scalar

/-- The list `[1, 2]`. -/
def twoNumbers : Argument Scalar := .list [.int 1, .int 2]

/-- What the list is read as. -/
def twoNumbersRead : Literal :=
  ⟨.number (.int .int64), ⟨[2], #[.number (.int .int64 1), .number (.int .int64 2)], rfl⟩⟩

/-- Two values are too few for a shape of three elements. -/
theorem twoNumbers_refused : ∃ init f g',
    twoNumbers.toInitializer = .ok init ∧
      constant (.vector 3 (by decide)) init (.ok none) none (.create 0 {}) = .error f g' ∧
      f.kind = .shape ∧ SameRecords (.create 0 {}) g' := by
  have read : twoNumbers.toLiteral = .ok twoNumbersRead := rfl
  obtain ⟨init, given, _, _, constants, _⟩ := literal_size_checked read (by decide)
    (.create 0 {}) (.vector 3 (by decide))
  obtain ⟨counts, kept⟩ := constants (.ok none) none
  obtain ⟨f, g', raised, shapes⟩ := ((counts .float32 rfl).exact (by decide)).mpr (by decide)
  exact ⟨init, f, g', given, raised, shapes, kept f g' raised⟩

/-- No value at all is enough for a shape whose elements wrap to none. -/
theorem nothing_accepted :
    let shape : Shape := ⟨[2 ^ 32, 2 ^ 32], by simp⟩
    ∃ l init, (Argument.list [] : Argument Scalar).toLiteral = .ok l ∧ l.shape ≠ [] ∧
      (Argument.list [] : Argument Scalar).toInitializer = .ok init ∧ l.size ≠ shape.elements ∧
      answers (constant shape init (.ok none) none (.create 0 {})) = true :=
  ⟨⟨.number .float64, ⟨[0], #[], rfl⟩⟩, _, rfl, by decide, rfl, by decide, by decide⟩

end Sample

end ReverseMode
