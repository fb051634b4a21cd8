import ReverseMode.Graph.Node

/-!
The tape: the nodes of an episode in the order they were built.

A node only takes inputs that exist already, so the order of the tape is an order of
evaluation. Nodes are found by their id, which is unique on one graph; being on the
tape also takes being the same node.
-/

namespace ReverseMode

/-- The nodes of an episode, the oldest first. -/
structure Tape (α : Type) where
  nodes : Array (Node α) := #[]

namespace Tape

variable {α : Type}

instance : Inhabited (Tape α) := ⟨{}⟩

def size (t : Tape α) : Nat := t.nodes.size

def toList (t : Tape α) : List (Node α) := t.nodes.toList

def push (t : Tape α) (n : Node α) : Tape α := ⟨t.nodes.push n⟩

/-- The last node built. -/
def last? (t : Tape α) : Option (Node α) := t.nodes.back?

/-- Where a node with this id stands. -/
def position? (t : Tape α) (id : Nat) : Option Nat :=
  t.nodes.findIdx? fun n => n.id = id

/-- Whether a node is on the tape. -/
def contains (t : Tape α) (n : Node α) : Bool :=
  match t.position? n.id with
  | some k => (t.nodes[k]?).any fun m => m.same n
  | none => false

/-- The node at a place, counted from the end if negative. -/
def get? (t : Tape α) (k : Int) : Option (Node α) :=
  (Axis.wrap? k t.size).bind fun i => t.nodes[i]?

/-- A tape as text. -/
def text (t : Tape α) : String := "Tape(" ++ toString t.size ++ " nodes)"

end Tape

end ReverseMode
