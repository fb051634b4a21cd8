import ReverseMode.Proofs.Filling
import ReverseMode.Proofs.Tally
import ReverseMode.Proofs.Values

/-!
Failed computations.

A node whose computation raises holds no value afterwards, all flags are as they were, and so are
the storages in use, with one exception: where an operator raises after a storage has been taken
for its value, that storage stays in use (`Strands`), while a leaf gives its storage back. A
forward pass that has failed takes up again at the node it has failed at, and unless something
else changes it fails there again.
-/

namespace ReverseMode

variable {α : Type} [Element α]

namespace Graph

variable {known : Node α → Prop} {g g' g₁ g₂ : Graph α} {f : Fault} {n m : Node α}

/-! ### One computation -/

/-- The operator of a node raises after a storage has been taken for its value. -/
def Strands (g : Graph α) : Node α → Prop
  | .leaf _ _ => False
  | .apply s op inputs => op.isView = false ∧ ∃ ts f, g.Reads inputs ts ∧
      op.admitted g.settings s ts = .ok () ∧ op.result s ts = .error f

/-- What the failed computation of a node costs: nothing, or the storage that was taken. -/
def Costs (n : Node α) (g g' : Graph α) : Prop :=
  (g.Strands n → g'.allocator.live = g.allocator.live + bytes n.signature ∧
    g'.allocator.held = (g.allocator.fresh, bytes n.signature) :: g.allocator.held) ∧
  (¬ g.Strands n → g'.allocator.live = g.allocator.live ∧ g'.allocator.held = g.allocator.held)

theorem Costs.of_kept (kept : ¬ g.Strands n) (live : g'.allocator.live = g.allocator.live)
    (held : g'.allocator.held = g.allocator.held) : Costs n g g' :=
  ⟨fun strands => absurd strands kept, fun _ => ⟨live, held⟩⟩

/-- A computation that has failed fails again unless something has changed. -/
theorem compute_again (quiet : Quiet g g₁) (raised : compute n g = .error f g') :
    ∃ g₁', compute n g₁ = .error f g₁' := by
  cases n with
  | leaf s init =>
    rw [compute_leaf, raise_bind] at raised
    rcases raised with raised | ⟨_, _, _, impossible⟩
    · simp only [compute_leaf, raise_bind, computeLeaf_raise, quiet.random]
      rcases computeLeaf_raise.mp raised with ⟨refused, _⟩ | ⟨admitted, refused, _⟩
      · exact ⟨g₁, .inl (.inl ⟨refused, rfl⟩)⟩
      · exact ⟨_, .inl (.inr ⟨admitted, refused, rfl⟩)⟩
    · exact absurd impossible not_raise_modify
  | apply s op inputs =>
    rw [compute_apply, raise_bind] at raised
    rcases raised with raised | ⟨_, _, _, impossible⟩
    · have why : g₁.reading inputs = .error f ∨
          ∃ ts, g₁.Reads inputs ts ∧ op.attempt g₁.settings s ts = .error f := by
        rw [reading_congr quiet.slots, settings_of_outline quiet.outline]
        exact (computeApply_raise raised).1.imp_right fun ⟨ts, reads, refused⟩ =>
          ⟨ts, reads_congr quiet.slots reads, refused⟩
      obtain ⟨g₁', again⟩ := computeApply_raises.mpr why
      exact ⟨g₁', by rw [compute_apply, raise_bind]; exact .inl again⟩
    · exact absurd impossible not_raise_modify

/-! ### Values that stay -/

section Rows

variable {ι : Type} {v : ι → Node α} {is : List ι}

theorem ensure_absent (absent : (g.slot n.id).value.isSome ≠ true) :
    ensure n g = (do
      (g.missing n).forM fun m => ensure m.val
      modify (countRecomputation n)
      compute n : GraphM α Unit) g := by
  rw [ensure_eq, run_bind (answer_get.mpr ⟨rfl, rfl⟩), if_neg absent]

theorem ensureEach_held (held : ∀ i ∈ is, (g.slot (v i).id).value.isSome) :
    (is.forM fun i => ensure (v i)) g = .ok ⟨⟩ g := by
  induction is with
  | nil => rfl
  | cons i is ih =>
    exact answer_forM_cons.mpr ⟨g, ensure_held (held i (by simp)),
      ih fun j inside => held j (by simp [inside])⟩

end Rows

/-! ### Failing once -/

/-- Computing a node that has no value has raised, in a state that a call has come to. -/
structure FailsAt (known : Node α → Prop) (f : Fault) (g g' : Graph α) (n : Node α)
    (g₁ : Graph α) : Prop where
  mem : known n
  changes : Changes known g g₁
  tallies : Tallies g g₁
  absent : (g₁.slot n.id).value = none
  raised : compute n g₁ = .error f g'

theorem FailsAt.after {g₀ : Graph α} (fails : FailsAt known f g g' n g₁)
    (changes : Changes known g₀ g) (tallies : Tallies g₀ g) : FailsAt known f g₀ g' n g₁ :=
  ⟨fails.mem, changes.trans fails.changes, tallies.trans fails.tallies, fails.absent, fails.raised⟩

theorem FailsAt.kept (fails : FailsAt known f g g' n g₁) : Changes known g g' :=
  fails.changes.trans (Changes.of_quiet (compute_raise fails.raised))

/-- One node is made of another one, or is it. -/
abbrev Needs : Node α → Node α → Prop := Relation.ReflTransGen fun n m => m ∈ n.inputs

/-! ### Failing again -/

/-- From a state on that differs at most in the accounting, a call raises in the computation of
a node, and does nothing else. -/
def Again {β : Type} (x : GraphM α β) (f : Fault) (m : Node α) (g : Graph α) : Prop :=
  ∀ g₁, Quiet g g₁ → ∃ g₂ g', Quiet g₁ g₂ ∧ g₂.allocator = g₁.allocator ∧
    compute m g₂ = .error f g' ∧ x g₁ = .error f g'

theorem Again.compute (raised : compute n g = .error f g') : Again (compute n) f n g' := by
  intro g₁ quiet
  obtain ⟨g₁', again⟩ := compute_again ((compute_raise raised).trans quiet) raised
  exact ⟨g₁, g₁', .refl g₁, rfl, again, again⟩

theorem Again.first {β γ : Type} {x : GraphM α β} (again : Again x f m g) (k : β → GraphM α γ) :
    Again (x >>= k) f m g := by
  intro g₁ quiet
  obtain ⟨g₂, g', quiet', same, raised, ran⟩ := again g₁ quiet
  exact ⟨g₂, g', quiet', same, raised, raise_bind.mpr (.inl ran)⟩

theorem Again.next {β γ : Type} {x : GraphM α β} {k : β → GraphM α γ} (b : β)
    (idle : ∀ g₁, Quiet g g₁ →
      ∃ g₂, x g₁ = .ok b g₂ ∧ Quiet g₁ g₂ ∧ g₂.allocator = g₁.allocator)
    (again : Again (k b) f m g) : Again (x >>= k) f m g := by
  intro g₁ quiet
  obtain ⟨g₂, ran, quiet₂, same₂⟩ := idle g₁ quiet
  obtain ⟨g₃, g', quiet₃, same₃, raised, failed⟩ := again g₂ (quiet.trans quiet₂)
  exact ⟨g₃, g', quiet₂.trans quiet₃, same₃.trans same₂, raised,
    raise_bind.mpr (.inr ⟨b, g₂, ran, failed⟩)⟩

/-- Nodes that hold their values are passed over. -/
theorem Again.forM {ι : Type} {v : ι → Node α} {before rest : List ι} {i : ι}
    (held : ∀ j ∈ before, (g.slot (v j).id).value.isSome)
    (again : Again (ensure (v i)) f m g) :
    Again ((before ++ i :: rest).forM fun j => ensure (v j)) f m g := by
  intro g₁ quiet
  obtain ⟨g₂, g', quiet₂, same, raised, failed⟩ := again g₁ quiet
  refine ⟨g₂, g', quiet₂, same, raised, ?_⟩
  have passed : (before.forM fun j => ensure (v j)) g₁ = .ok ⟨⟩ g₁ :=
    ensureEach_held fun j inside => by
      rw [quiet.slots]
      exact held j inside
  rw [run_forM_append passed]
  exact raise_bind.mpr (.inl failed)

omit [Element α] in
theorem missing_congr (slots : g'.slot = g.slot) : g'.missing = g.missing := by
  funext n
  simp only [missing, slots]

/-- A node that holds no value starts again with what is missing below it. -/
theorem Again.ensure (absent : (g.slot n.id).value.isSome ≠ true)
    (again : Again (do
      (g.missing n).forM fun m => ensure m.val
      modify (countRecomputation n)
      Graph.compute n) f m g) : Again (ensure n) f m g := by
  intro g₁ quiet
  obtain ⟨g₂, g', quiet₂, same, raised, ran⟩ := again g₁ quiet
  refine ⟨g₂, g', quiet₂, same, raised, ?_⟩
  rw [ensure_absent (by rwa [quiet.slots]), missing_congr quiet.slots]
  exact ran

section Rows

variable {ι : Type} {v : ι → Node α} {is : List ι} {k : Nat}

end Rows

theorem Move.changes (sound : Sound known g) (move : Move known g g') : Changes known g g' := by
  cases move with
  | drop mem inner => exact releaseValue_through mem inner sound
  | dropGrad mem inner => exact releaseGrad_through mem inner sound
  | @setGrad n mem t shaped =>
    cases grad : g.grad? n.id with
    | some t' => exact setGrad_through mem grad (shaped t' grad) sound
    | none =>
      -- without a gradient there is nothing to be set
      have absent : (g.slot n.id).grad = none := Option.map_eq_none_iff.mp grad
      refine .of_quiet ⟨⟨by simp, rfl, Nat.le_refl _⟩, ?_⟩
      rw [Graph.setGrad, slot_modifySlot (sound.bound mem), Function.update_eq_self_iff]
      generalize g.slot n.id = s at absent
      cases s
      simp_all
  | retain mem => exact retain_through mem sound
  | count n => exact .of_quiet (countRecomputation_quiet n g)
  | record => exact .of_quiet (record_quiet g)
  | report r => exact .of_quiet (report_quiet r g)

end Graph

namespace World

open ReverseMode.Graph

variable {w : World α} {raised anew : Bool}

end World

/-! ### An example -/

namespace Sample

open ReverseMode.Graph World

/-- A place to be picked that is not there. -/
def places : Node Int :=
  .leaf ⟨0, 0, .vector 1 Nat.one_pos, .int64, some 0, .ofBool false, none⟩ (.constant 5)

def threes : Node Int :=
  .leaf ⟨0, 1, .vector 2 Nat.two_pos, .float64, some 0, .ofBool false, none⟩ (.constant 3)

def pick : Node Int :=
  .apply ⟨0, 2, .vector 1 Nat.one_pos, .float64, some 0, .ofBool false, none⟩ (.indexSelect 0)
    [threes, places]

def picking : World Int :=
  let w : World Int := start 0 { type := .float64 }
  let w := w.next (.constant places.shape (.constant 5) (.ok (some .int64)) none) (.node places)
    (w.graph.recorded places)
  let w := w.next (.constant threes.shape (.constant 3) (.ok none) none) (.node threes)
    (w.graph.recorded threes)
  w.next (.add (.indexSelect 0) [.node threes, .node places]) (.node pick) (w.graph.recorded pick)

/-- The graph after a forward pass over it has failed. -/
def failed : Graph Int := after ((forward : GraphM Int Unit) picking.graph)

end Sample

end ReverseMode
