import ReverseMode.Memory.Allocator
import ReverseMode.Graph.Index
import ReverseMode.Graph.Report
import ReverseMode.Graph.Tape
import ReverseMode.Operator.Gradient

/-!
The state of a graph, and the changes of it that cannot fail.

A slot holds what changes about a node: its value, its gradient and its flags. A value
is either owned, so that its storage counts as in use, or shown through a view. All
values with one storage show the same elements, also after these are written to.
-/

namespace ReverseMode

/-- An array with its storage. -/
structure Held (α : Type) where
  storage : Nat
  /-- Whether the storage is given back with the value; a view does not own it. -/
  owned : Bool
  array : Tensor α

/-- What changes about a node. -/
structure Slot (α : Type) where
  value : Option (Held α) := none
  grad : Option (Held α) := none
  /-- Whether the value has been computed; it may have been released since. -/
  computed : Bool := false
  checkpoint : Bool := false
  retained : Bool := false

instance {α : Type} : Inhabited (Slot α) := ⟨{}⟩

/-- The settings of a graph. -/
structure Settings where
  type : ElementType := .float32
  releaseMemory : Bool := true
  inference : Bool := false
  seed : Int := 0
  log? : Option LogSettings := none
deriving Repr, Inhabited

/-- An expression graph. -/
structure Graph (α : Type) where
  /-- Tells graphs apart. -/
  serial : Nat := 0
  settings : Settings := {}
  random : Random := Random.ofSeed 0
  tape : Tape α := {}
  /-- The applications of the tape that may be given again. -/
  index : Index α := {}
  /-- The parameters in the order they were made. -/
  parameters : Array (Node α) := #[]
  /-- The slot of every node by its id. -/
  slots : Array (Slot α) := #[]
  episode : Nat := 0
  /-- Whether a forward pass has ended since the episode began or was invalidated. -/
  forwarded : Bool := false
  allocator : Allocator := {}
  recomputations : Nat := 0
  /-- The bytes in use after every step of a pass. -/
  history : Array Nat := #[]
  /-- What the graph has told since this was last emptied, the oldest first. -/
  reports : Array Report := #[]

instance {α : Type} : Inhabited (Graph α) := ⟨{}⟩

/-- Calls on a graph; after a fault the state is what the call left. -/
abbrev GraphM (α : Type) := EStateM Fault (Graph α)

namespace Graph

variable {α : Type}

/-- A graph without nodes. -/
def create (serial : Nat) (settings : Settings) : Graph α :=
  { serial, settings
    random := Random.ofSeed settings.seed
    reports := match settings.log? with
      | some log => #[.log log.name Report.header]
      | none => #[] }

/-- The slot of a node. -/
def slot (g : Graph α) (id : Nat) : Slot α := g.slots.getD id {}

/-- The value a node holds. -/
def held? (g : Graph α) (id : Nat) : Option (Tensor α) := (g.slot id).value.map Held.array

/-- The gradient a node holds. -/
def grad? (g : Graph α) (id : Nat) : Option (Tensor α) := (g.slot id).grad.map Held.array

def modifySlot (id : Nat) (f : Slot α → Slot α) (g : Graph α) : Graph α :=
  { g with slots := g.slots.modify id f }

/-- A new id, with an empty slot. -/
def freshId (g : Graph α) : Nat × Graph α :=
  (g.slots.size, { g with slots := g.slots.push {} })

/-- The parameter of this name. -/
def parameter? (g : Graph α) (name : Datum) : Option (Node α) :=
  g.parameters.find? fun p => p.stamp.name.any fun held => held.value.same name

/-- The graph as text. -/
def text (g : Graph α) : String :=
  "ExpressionGraph(episode=" ++ toString g.episode ++ ", nodes=" ++ toString g.tape.size ++
    ", params=" ++ toString g.parameters.size ++ ")"

/-! ### Storage -/

/-- The bytes of an array with this signature. -/
def bytes (s : Signature) : Nat := s.shape.elements * s.type.bytes

/-- A storage given back. -/
def giveBack (storage : Nat) (g : Graph α) : Graph α :=
  { g with allocator := g.allocator.release storage }

/-- The value dropped, its storage given back if it is owned. -/
def releaseValue (id : Nat) (g : Graph α) : Graph α :=
  match (g.slot id).value with
  | none => g
  | some held =>
    let g := if held.owned then g.giveBack held.storage else g
    g.modifySlot id fun s => { s with value := none }

/-- The gradient dropped and its storage given back. -/
def releaseGrad (id : Nat) (g : Graph α) : Graph α :=
  match (g.slot id).grad with
  | none => g
  | some held => (g.giveBack held.storage).modifySlot id fun s => { s with grad := none }

/-- Value and gradient dropped. -/
def release (id : Nat) (g : Graph α) : Graph α :=
  (g.releaseValue id).releaseGrad id

/-- A value in place of the one held. -/
def setValue (id : Nat) (held : Held α) (g : Graph α) : Graph α :=
  (g.releaseValue id).modifySlot id fun s => { s with value := some held }

def setComputed (computed : Bool) (id : Nat) (g : Graph α) : Graph α :=
  g.modifySlot id fun s => { s with computed }

/-- Whether value and gradient of a node may be dropped during a pass. -/
def releasable (g : Graph α) (n : Node α) : Bool :=
  !n.isLeaf && !(g.slot n.id).retained

/-- The bytes in use noted in the history. -/
def record (g : Graph α) : Graph α :=
  { g with history := g.history.push g.allocator.live }

def report (r : Report) (g : Graph α) : Graph α :=
  { g with reports := g.reports.push r }

/-- New elements for a storage: every value that shows it changes. -/
def write (storage : Nat) (elements : Tensor α) (g : Graph α) : Graph α :=
  let update (held : Held α) : Held α :=
    if held.storage = storage then
      match elements.reshape held.array.shape with
      | .ok array => { held with array }
      | .error _ => held
    else held
  { g with slots := g.slots.map fun s =>
      { s with value := s.value.map update, grad := s.grad.map update } }

/-! ### Buffers -/

section Buffers

variable [Element α]

/-- An array of zeros. -/
def zeros (s : Signature) : Tensor α :=
  .full s.shape.extents (Element.store s.type.storage (Element.whole 0))

/-- A new storage for an array with this signature. -/
def allocate (s : Signature) : GraphM α Nat := do
  match checkRank s.shape.rank *> Allocator.checkBytes (bytes s) with
  | .error f => throw f
  | .ok () => modifyGet fun g =>
      let (storage, allocator) := g.allocator.allocate (bytes s)
      (storage, { g with allocator })

/-- The gradient of a node, zero on first use. -/
def gradBuffer (n : Node α) : GraphM α (Tensor α) := do
  match (← get).grad? n.id with
  | some grad => pure grad
  | none =>
    let storage ← allocate n.signature
    let zero := zeros n.signature
    modify (modifySlot n.id fun s => { s with grad := some ⟨storage, true, zero⟩ })
    pure zero

/-- New elements for the gradient of a node. -/
def setGrad (id : Nat) (array : Tensor α) (g : Graph α) : Graph α :=
  g.modifySlot id fun s => { s with grad := s.grad.map fun held => { held with array } }

/-- The gradient of a node set to zero, if it has one. -/
def zeroGrad (n : Node α) (g : Graph α) : Graph α :=
  match g.grad? n.id with
  | none => g
  | some _ => g.setGrad n.id (zeros n.signature)

/-- The gradients of all parameters set to zero. -/
def zeroGrads (g : Graph α) : Graph α :=
  g.parameters.foldl (fun g p => g.zeroGrad p) g

end Buffers

end Graph

end ReverseMode
