import ReverseMode.Graph.Basic

/-!
The current episode as a directed graph.

The vertices are the nodes of the tape and the parameters they use, each once and in the
order in which they are met; the edges lead from inputs to the nodes that take them.
-/

namespace ReverseMode

/-- A vertex with what is shown of its node. -/
structure Vertex where
  id : Nat
  title : Written
  kind : String
  shape : List Nat
  type : ElementType
  trainable : Written
  checkpoint : Bool
  computed : Bool
deriving Repr, Inhabited

/-- A directed graph: vertices in the order they were added, edges without repetition. -/
structure Digraph where
  vertices : Array Vertex := #[]
  edges : Array (Nat × Nat) := #[]
deriving Repr, Inhabited

namespace Digraph

/-- A vertex added, or what is shown of it replaced. -/
def addVertex (d : Digraph) (v : Vertex) : Digraph :=
  if d.vertices.any fun w => w.id = v.id then
    { d with vertices := d.vertices.map fun w => if w.id = v.id then v else w }
  else { d with vertices := d.vertices.push v }

/-- A vertex added unless there is one with its id. -/
def addMissing (d : Digraph) (v : Vertex) : Digraph :=
  if d.vertices.any fun w => w.id = v.id then d else { d with vertices := d.vertices.push v }

/-- An edge added unless it is there. -/
def addEdge (d : Digraph) (e : Nat × Nat) : Digraph :=
  if d.edges.contains e then d else { d with edges := d.edges.push e }

end Digraph

namespace Graph

variable {α : Type}

/-- What is shown of a node. -/
def vertex (g : Graph α) (n : Node α) : Vertex :=
  let s := g.slot n.id
  { id := n.id, title := n.title, kind := n.kind, shape := n.shape.extents, type := n.type
    trainable := n.stamp.trainable, checkpoint := s.checkpoint
    computed := s.computed || s.value.isSome }

/-- An input with its edge. -/
def exportInput (g : Graph α) (n : Node α) (d : Digraph) (i : Node α) : Digraph :=
  (d.addMissing (g.vertex i)).addEdge (i.id, n.id)

/-- A node with its inputs. -/
def exportNode (g : Graph α) (d : Digraph) (n : Node α) : Digraph :=
  n.inputs.foldl (g.exportInput n) (d.addVertex (g.vertex n))

/-- The current episode as a directed graph. -/
def toDigraph (g : Graph α) : Digraph :=
  g.tape.toList.foldl g.exportNode {}

end Graph

end ReverseMode
