import ReverseMode.Graph.Node

/-!
The index: the applications of an episode under the keys by which they are found again.

Only operators that memoize are entered. A key is looked up as numbers are compared: the two
zeros are one key, and a key with a NaN is not found again. The last is a restriction: the
program would find it for the same NaN object, and numbers have no identity here.
-/

namespace ReverseMode

/-- Applications with their keys, the oldest first. -/
structure Index (α : Type) where
  entries : Array (ApplicationKey × Node α) := #[]

namespace Index

variable {α : Type}

instance : Inhabited (Index α) := ⟨{}⟩

def toList (x : Index α) : List (ApplicationKey × Node α) := x.entries.toList

/-- The application under a key. -/
def find? (x : Index α) (key : ApplicationKey) : Option (Node α) :=
  (x.entries.find? fun entry => key.same entry.1).map Prod.snd

/-- A node entered if it is to be found again. -/
def enter (x : Index α) (n : Node α) : Index α :=
  match n with
  | .apply _ op inputs => if op.memoize then ⟨x.entries.push (Node.key op inputs, n)⟩ else x
  | .leaf _ _ => x

end Index

end ReverseMode
