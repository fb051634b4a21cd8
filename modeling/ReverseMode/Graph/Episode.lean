import ReverseMode.Graph.Backward

/-!
Episodes: one cycle of building, computing and differentiating.

`reset` ends an episode and drops its nodes with their buffers; parameters stay unless
they are to be dropped too. `invalidate` keeps the nodes and drops what was computed.
-/

namespace ReverseMode

/-- Counts that describe the memory of a graph. -/
structure MemoryStats where
  live : Nat
  peak : Nat
  allocations : Nat
  releases : Nat
  recomputations : Nat
  nodes : Nat
deriving DecidableEq, Repr, Inhabited

namespace Graph

variable {α : Type} [Element α]

/-- A new episode without nodes. -/
def reset (keepParameters : Bool) (g : Graph α) : Graph α :=
  let g := g.tape.toList.foldl (fun g n => g.release n.id) g
  let g := { g with tape := {}, index := {} }
  let g := if keepParameters then g
    else { g.parameters.foldl (fun g n => g.release n.id) g with parameters := #[] }
  { g with episode := g.episode + 1, forwarded := false }

/-- A computed value forgotten. -/
def forget (id : Nat) (g : Graph α) : Graph α :=
  (g.releaseValue id).setComputed false id

/-- Every value that was computed from others forgotten, and that of the given leaf. -/
def invalidate (n : Option (Input α)) : GraphM α Unit := do
  match n with
  | none => pure ()
  | some input =>
    let n ← lift ((← get).checkInput input)
    if n.isLeaf then modify (forget n.id)
  modify fun g => g.tape.toList.foldl (fun g n => if n.isLeaf then g else g.forget n.id) g
  modify fun g => { g with forwarded := false }

/-- The gradient of a node from the last pass. -/
def gradOf (n : Input α) : GraphM α (Option (Tensor α)) := do
  let g ← get
  let n ← lift (g.checkInput n)
  pure (g.grad? n.id)

/-- The counts of a graph. -/
def stats (g : Graph α) : MemoryStats :=
  { live := g.allocator.live, peak := g.allocator.peak, allocations := g.allocator.allocations
    releases := g.allocator.releases, recomputations := g.recomputations, nodes := g.tape.size }

end Graph

end ReverseMode
