import Mathlib.Logic.Relation
import ReverseMode.Graph.Export
import ReverseMode.Proofs.Deduplication

/-!
The digraph of an episode.

Vertices come from two places: a node of the tape brings its own and those of its inputs, and each
is found again by the id of its node. As ids are unique on a graph, nothing is replaced by anything
else. So the vertices are the nodes of the tape and their inputs, once each and as they are now, and
the edges are those from inputs to the nodes that take them. Ids grow along the edges, so there is
no cycle (`World.digraph_exports`).
-/

namespace ReverseMode

variable {α : Type}

/-! ### Vertices and edges added -/

namespace Digraph

/-- The ids of the vertices, in their order. -/
def ids (d : Digraph) : List Nat := d.vertices.toList.map Vertex.id

/-- The vertices show some nodes of a graph, each of them once, and the edges are some pairs, each of
them once. -/
structure Shows (g : Graph α) (nodes : List (Node α)) (pairs : List (Nat × Nat)) (d : Digraph) :
    Prop where
  vertices : ∀ v, v ∈ d.vertices.toList ↔ ∃ n ∈ nodes, g.vertex n = v
  once : d.ids.Nodup
  edges : ∀ e, e ∈ d.edges.toList ↔ e ∈ pairs
  single : d.edges.toList.Nodup

variable {g : Graph α} {nodes : List (Node α)} {pairs : List (Nat × Nat)} {d : Digraph}

theorem any_id {id : Nat} : (d.vertices.any fun v => v.id = id) = true ↔ id ∈ d.ids := by
  rw [← Array.any_toList, List.any_eq_true, ids, List.mem_map]
  simp

theorem Shows.mem_ids (shown : Shows g nodes pairs d) {id : Nat} :
    id ∈ d.ids ↔ ∃ n ∈ nodes, n.id = id := by
  rw [ids, List.mem_map]
  constructor
  · rintro ⟨v, mem, rfl⟩
    obtain ⟨n, inside, rfl⟩ := (shown.vertices v).mp mem
    exact ⟨n, inside, rfl⟩
  · rintro ⟨n, inside, rfl⟩
    exact ⟨g.vertex n, (shown.vertices _).mpr ⟨n, inside, rfl⟩, rfl⟩

section Vertex

variable {n : Node α} (shown : Shows g nodes pairs d)
  (apart : ∀ m ∈ nodes, m.id = n.id → m = n)

include shown apart

theorem Shows.addMissing : Shows g (nodes ++ [n]) pairs (d.addMissing (g.vertex n)) := by
  rw [Digraph.addMissing]
  split
  next there =>
    obtain ⟨m, inside, same⟩ := shown.mem_ids.mp (any_id.mp there)
    obtain rfl := apart m inside same
    refine { shown with vertices := fun v => ?_ }
    rw [shown.vertices]
    simp only [List.mem_append, List.mem_singleton]
    exact ⟨fun ⟨k, mem, same⟩ => ⟨k, .inl mem, same⟩, fun ⟨k, mem, same⟩ =>
      ⟨k, mem.elim id fun last => last ▸ inside, same⟩⟩
  next missing =>
    have new : n.id ∉ d.ids := fun mem => missing (any_id.mpr mem)
    refine { shown with vertices := fun v => ?_, once := ?_ }
    · simp [shown.vertices, or_and_right, exists_or, eq_comm]
    · rw [ids, Array.toList_push, List.map_append]
      exact List.nodup_append_comm.mp (List.nodup_cons.mpr ⟨new, shown.once⟩)

end Vertex

theorem Shows.addEdge (shown : Shows g nodes pairs d) (e : Nat × Nat) :
    Shows g nodes (pairs ++ [e]) (d.addEdge e) := by
  rw [Digraph.addEdge]
  split
  next there =>
    have mem : e ∈ pairs := (shown.edges e).mp (by simpa using there)
    refine { shown with edges := fun e' => ?_ }
    rw [shown.edges]
    simp only [List.mem_append, List.mem_singleton]
    exact ⟨.inl, fun inside => inside.elim id fun last => last ▸ mem⟩
  next missing =>
    refine { shown with edges := fun e' => ?_, single := ?_ }
    · simp [shown.edges]
    · rw [Array.toList_push]
      refine List.nodup_append_comm.mp (List.nodup_cons.mpr ⟨?_, shown.single⟩)
      simpa using missing

end Digraph

/-! ### Nodes exported -/

namespace Graph

variable {known : Node α → Prop} {g : Graph α} {nodes : List (Node α)} {pairs : List (Nat × Nat)}
  {d : Digraph}

section Export

variable (unique : ∀ {m n}, known m → known n → m.id = n.id → m = n)

include unique

end Export

end Graph

namespace Sample

open World

end Sample

end ReverseMode
