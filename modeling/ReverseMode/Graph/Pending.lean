import ReverseMode.Graph.Node

/-!
Counts of consumers that a pass still has to visit.

At the start of a pass the count of a node is the number of nodes of the pass that take
it as an input, each counted once. Visiting a consumer takes one off the count of every
input.
-/

namespace ReverseMode

/-- For every id the number of consumers not yet visited. -/
structure Pending where
  counts : Array Int

namespace Pending

variable {α : Type}

/-- The count of a node. -/
def count (p : Pending) (id : Nat) : Int := p.counts.getD id 0

def change (amount : Int) (id : Nat) (p : Pending) : Pending :=
  ⟨p.counts.modify id (· + amount)⟩

/-- One consumer counted for every input. -/
def enter (n : Node α) (p : Pending) : Pending :=
  n.distinctInputs.foldl (fun p i => p.change 1 i.id) p

/-- The counts at the start of a pass over these nodes; `size` is beyond every id. -/
def start (size : Nat) (nodes : List (Node α)) : Pending :=
  nodes.foldl (fun p n => p.enter n) ⟨Array.replicate size 0⟩

end Pending

end ReverseMode
