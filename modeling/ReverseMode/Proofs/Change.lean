import Mathlib.Logic.Relation
import ReverseMode.Proofs.Denotation
import ReverseMode.Proofs.Slot

/-!
Elementary changes of a graph.

Passes and calls on nodes change a graph in small ways: a value is drawn, computed or
dropped, a gradient is set or dropped, a flag is set, or only the accounting changes.
`Change` lists these ways with what each of them needs. What holds before and after every
elementary change holds throughout every pass, also after a fault.
-/

namespace ReverseMode

variable {α : Type} [Element α]

/-- The value of a leaf as its initializer supplies it. -/
def Initializer.supply (init : Initializer α) (s : Stamp) (random : Random) :
    Except Fault (Tensor α × Random) := do
  let (t, random) ← init.run s.shape s.type random
  pure (← t.assign s.type.storage s.shape.extents, random)

namespace Graph

/-- The values of some nodes, all of them held. -/
def Reads (g : Graph α) (inputs : List (Node α)) (ts : List (Tensor α)) : Prop :=
  Yields (fun n => g.held? n.id) inputs ts

/-- The accounting may change, and slots. -/
structure Aside (g g' : Graph α) : Prop where
  outline : g'.outline = g.outline
  random : g'.random = g.random
  storages : g.allocator.fresh ≤ g'.allocator.fresh

/-- Only the accounting may change. -/
structure Quiet (g g' : Graph α) : Prop extends Aside g g' where
  slots : g'.slot = g.slot

omit [Element α] in
theorem Aside.trans {g₁ g₂ g₃ : Graph α} (first : Aside g₁ g₂) (second : Aside g₂ g₃) :
    Aside g₁ g₃ :=
  ⟨second.outline.trans first.outline, second.random.trans first.random,
    Nat.le_trans first.storages second.storages⟩

omit [Element α] in
theorem Quiet.refl (g : Graph α) : Quiet g g := ⟨⟨rfl, rfl, Nat.le_refl _⟩, rfl⟩

omit [Element α] in
theorem Quiet.trans {g₁ g₂ g₃ : Graph α} (first : Quiet g₁ g₂) (second : Quiet g₂ g₃) :
    Quiet g₁ g₃ :=
  ⟨first.toAside.trans second.toAside, second.slots.trans first.slots⟩

/-- A storage that was not used before. -/
def New (g g' : Graph α) (storage : Nat) : Prop :=
  g.allocator.fresh ≤ storage ∧ storage < g'.allocator.fresh

/-- One elementary change, of nodes that are known to the graph. -/
inductive Change (known : Node α → Prop) (g g' : Graph α) : Prop
  | quiet (quiet : Quiet g g')
  /-- The value of a leaf that has none. -/
  | draw {s : Stamp} {init : Initializer α} (held : Held α) (mem : known (.leaf s init))
      (absent : (g.slot s.id).value = none)
      (supplied : init.supply s g.random = .ok (held.array, g'.random))
      (outline : g'.outline = g.outline) (new : New g g' held.storage)
      (slots : g'.slot = Function.update g.slot s.id
        { g.slot s.id with value := some held, computed := true })
  /-- The value of an application, from the values of its inputs. -/
  | compute {s : Stamp} {op : Operator α} {inputs : List (Node α)} {ts : List (Tensor α)}
      (held : Held α) (mem : known (.apply s op inputs)) (reads : g.Reads inputs ts)
      (made : op.attempt g.settings s ts = .ok held.array) (aside : Aside g g')
      (slots : g'.slot = Function.update g.slot s.id
        { g.slot s.id with value := some held, computed := true })
  | drop {n : Node α} (mem : known n) (inner : n.isLeaf = false) (aside : Aside g g')
      (slots : g'.slot = Function.update g.slot n.id { g.slot n.id with value := none })
  | grad {n : Node α} (held : Held α) (mem : known n)
      (wanted : n.trainable = true ∨ (g.grad? n.id).isSome)
      (shaped : held.array.shape = n.shape.extents)
      (storage : (∃ old, (g.slot n.id).grad = some old ∧ held.storage = old.storage) ∨
        New g g' held.storage)
      (aside : Aside g g')
      (slots : g'.slot = Function.update g.slot n.id { g.slot n.id with grad := some held })
  | dropGrad {n : Node α} (mem : known n) (inner : n.isLeaf = false) (aside : Aside g g')
      (slots : g'.slot = Function.update g.slot n.id { g.slot n.id with grad := none })
  | flag {n : Node α} (checkpoint retained : Bool) (mem : known n) (aside : Aside g g')
      (slots : g'.slot = Function.update g.slot n.id { g.slot n.id with checkpoint, retained })

/-- Elementary changes one after the other. -/
abbrev Changes (known : Node α → Prop) : Graph α → Graph α → Prop :=
  Relation.ReflTransGen (Change known)

/-- The value of an application that had been computed before is computed again, or only the
accounting changes. -/
inductive Recall (known : Node α → Prop) (g g' : Graph α) : Prop
  | quiet (quiet : Quiet g g')
  | compute {s : Stamp} {op : Operator α} {inputs : List (Node α)} {ts : List (Tensor α)}
      (held : Held α) (mem : known (.apply s op inputs)) (before : (g.slot s.id).computed = true)
      (reads : g.Reads inputs ts)
      (made : op.attempt g.settings s ts = .ok held.array) (aside : Aside g g')
      (slots : g'.slot = Function.update g.slot s.id { g.slot s.id with value := some held })

abbrev Recalls (known : Node α → Prop) : Graph α → Graph α → Prop :=
  Relation.ReflTransGen (Recall known)

variable {known : Node α → Prop} {g g' : Graph α}

theorem Change.outline (h : Change known g g') : g'.outline = g.outline := by
  cases h with
  | quiet quiet => exact quiet.outline
  | draw _ _ _ _ outline _ _ => exact outline
  | compute _ _ _ _ aside _ => exact aside.outline
  | drop _ _ aside _ => exact aside.outline
  | grad _ _ _ _ _ aside _ => exact aside.outline
  | dropGrad _ _ aside _ => exact aside.outline
  | flag _ _ _ aside _ => exact aside.outline

theorem Changes.outline (h : Changes known g g') : g'.outline = g.outline := by
  induction h with
  | refl => rfl
  | tail _ change ih => exact change.outline.trans ih

theorem Changes.of_quiet (h : Quiet g g') : Changes known g g' := .single (.quiet h)

theorem Recall.change (h : Recall known g g') : Change known g g' := by
  cases h with
  | quiet quiet => exact .quiet quiet
  | compute held mem before reads made aside slots =>
    exact .compute held mem reads made aside (by simp only [slots, before])

theorem Recalls.changes (h : Recalls known g g') : Changes known g g' :=
  Relation.ReflTransGen.mono (fun _ _ => Recall.change) _ _ h

theorem Recalls.of_quiet (h : Quiet g g') : Recalls known g g' := .single (.quiet h)

end Graph

end ReverseMode
