import ReverseMode.Graph.Written
import ReverseMode.Leaf.Initializer
import ReverseMode.Operator.Text

/-!
Nodes: what never changes about a vertex of an expression graph.

A node is a leaf, whose value an initializer supplies, or an operator applied to
earlier nodes. Values, gradients and flags are not part of it; a graph keeps them in
slots under the node's id.
-/

namespace ReverseMode

/-- What identifies a node and types its value. -/
structure Stamp where
  /-- The graph the node was built on. -/
  graph : Nat
  /-- Unique on its graph; inputs have smaller ids. -/
  id : Nat
  shape : Shape
  type : ElementType
  /-- The episode the node belongs to, none for a parameter. -/
  episode : Option Nat
  trainable : Written
  name : Option Written
deriving Repr, Inhabited

/-- A vertex of an expression graph. -/
inductive Node (α : Type) where
  | leaf (stamp : Stamp) (initializer : Initializer α)
  | apply (stamp : Stamp) (op : Operator α) (inputs : List (Node α))

namespace Node

variable {α : Type}

def stamp : Node α → Stamp
  | leaf s _ | apply s _ _ => s

def id (n : Node α) : Nat := n.stamp.id

def graph (n : Node α) : Nat := n.stamp.graph

def shape (n : Node α) : Shape := n.stamp.shape

def type (n : Node α) : ElementType := n.stamp.type

def trainable (n : Node α) : Bool := n.stamp.trainable.holds

def episode (n : Node α) : Option Nat := n.stamp.episode

def signature (n : Node α) : Signature := ⟨n.shape, n.type⟩

def isLeaf : Node α → Bool
  | leaf _ _ => true
  | apply _ _ _ => false

def op? : Node α → Option (Operator α)
  | leaf _ _ => none
  | apply _ op _ => some op

def inputs : Node α → List (Node α)
  | leaf _ _ => []
  | apply _ _ ns => ns

theorem sizeOf_lt_of_mem_inputs {m n : Node α} (h : m ∈ n.inputs) : sizeOf m < sizeOf n := by
  cases n with
  | leaf => simp [inputs] at h
  | apply s op ns =>
    have := List.sizeOf_lt_of_mem h
    simp [inputs] at this ⊢
    omega

/-- Whether two nodes are the same vertex. -/
def same (m n : Node α) : Bool := m.graph = n.graph && m.id = n.id

/-- A list of nodes in which each id is kept at its first place only. -/
def distinct : List (Node α) → List (Node α)
  | [] => []
  | n :: rest => n :: (distinct rest).filter fun m => m.id != n.id

theorem mem_of_mem_distinct {n : Node α} {ns : List (Node α)} (h : n ∈ distinct ns) : n ∈ ns := by
  induction ns with
  | nil => simp [distinct] at h
  | cons m rest ih =>
    simp only [distinct, List.mem_cons, List.mem_filter] at h ⊢
    exact h.imp_right fun h => ih h.1

/-- The inputs, each one once. -/
def distinctInputs (n : Node α) : List (Node α) := distinct n.inputs

/-- The kind of the operator, or that the node is a leaf. -/
def kind (n : Node α) : String :=
  match n.op? with
  | some op => op.kind
  | none => "leaf"

/-- The name, or kind and id if there is none that counts as true. -/
def title (n : Node α) : Written :=
  let usual := Written.ofText (n.kind ++ "#" ++ toString n.id)
  match n.stamp.name with
  | some name => if name.holds then name else usual
  | none => usual

/-- The title as text. -/
def label (n : Node α) : String := n.title.text

/-- A node as text. -/
def text (n : Node α) : String :=
  "Node(" ++ n.label ++ ", shape=" ++ n.shape.text ++ ", dtype=" ++ n.type.name ++
    ", trainable=" ++ n.stamp.trainable.text ++ ")"

/-- The key under which an application is found again. -/
def key (op : Operator α) (inputs : List (Node α)) : ApplicationKey :=
  ⟨op.kind, op.parameters, inputs.map id⟩

end Node

end ReverseMode
