import ReverseMode.Graph.Episode
import ReverseMode.Argument.Initializer
import ReverseMode.Optimizer.Basic

/-!
Sessions: several graphs, the optimizers of their parameters, and what has been written.

A node knows the graph it was built on, so a call on nodes finds its graph in the
session. What graphs report is collected after every call: sections go to the log of
their name, lines of debug nodes to the printed lines.
-/

namespace ReverseMode

/-- The graphs of a program with what they have written. -/
structure Session (α : Type) where
  /-- The graphs by their serial numbers. -/
  graphs : Array (Graph α) := #[]
  optimizers : Array (Optimizer α) := #[]
  /-- The text of every log by its name. -/
  logs : List (String × String) := []
  /-- The printed lines, the oldest first. -/
  printed : Array String := #[]

instance {α : Type} : Inhabited (Session α) := ⟨{}⟩

/-- Calls on a session; after a fault the state is what the call left. -/
abbrev SessionM (α : Type) := EStateM Fault (Session α)

namespace Session

variable {α β : Type}

/-- Text added at the end of a log. -/
def appendLog (name text : String) : List (String × String) → List (String × String)
  | [] => [(name, text)]
  | (n, held) :: rest =>
    if n == name then (n, held ++ text) :: rest else (n, held) :: appendLog name text rest

/-- A report written. -/
def write (s : Session α) : Report → Session α
  | .log name text => { s with logs := appendLog name text s.logs }
  | .line text => { s with printed := s.printed.push text }

/-- A graph put back in its place, its reports written. -/
def putGraph (serial : Nat) (g : Graph α) (s : Session α) : Session α :=
  let s := g.reports.foldl write s
  { s with graphs := s.graphs.setIfInBounds serial { g with reports := #[] } }

/-- The graph of a serial number, and the session without it. -/
def takeGraph (serial : Nat) (s : Session α) : Graph α × Session α :=
  (s.graphs.getD serial default, { s with graphs := s.graphs.setIfInBounds serial default })

/-- A call on one graph. -/
def onGraph (serial : Nat) (call : GraphM α β) : SessionM α β := fun s =>
  let (g, s) := s.takeGraph serial
  match call g with
  | .ok b g => .ok b (s.putGraph serial g)
  | .error f g => .error f (s.putGraph serial g)

/-- Something read off a graph. -/
def ask (serial : Nat) (f : Graph α → β) : SessionM α β := do
  pure (f ((← get).graphs.getD serial default))

/-- A step that does not change the session. -/
def lift (e : Except Fault β) : SessionM α β :=
  match e with
  | .ok b => pure b
  | .error f => throw f

/-- A new graph; its serial number is the result. -/
def addGraph (settings : Settings) : SessionM α Nat := fun s =>
  let serial := s.graphs.size
  let s := { s with graphs := s.graphs.push default }
  .ok serial (s.putGraph serial (Graph.create serial settings))

/-- The printed lines, which are forgotten. -/
def takePrinted : SessionM α (List String) := fun s =>
  .ok s.printed.toList { s with printed := #[] }

/-- The text of a log. -/
def logText (s : Session α) (name : String) : String := (s.logs.lookup name).getD ""

/-! ### Optimizers -/

/-- A new optimizer; its number is the result. -/
def addOptimizer (o : Optimizer α) : SessionM α Nat := fun s =>
  .ok s.optimizers.size { s with optimizers := s.optimizers.push o }

/-- The optimizer of a number. -/
def optimizer? (s : Session α) (serial : Nat) : Option (Optimizer α) := s.optimizers[serial]?

/-- Value and gradient of a parameter, where it has both. -/
def active? (n : Node α) (g : Graph α) : Option (Held α × Tensor α) :=
  match (g.slot n.id).value, g.grad? n.id with
  | some held, some grad => some (held, grad)
  | _, _ => none

/-- A parameter as a node; anything else has no value. -/
def asNode : Input α → SessionM α (Node α)
  | .node n => pure n
  | .other _ => throw .absentPart

/-- An optimizer put back in its place. -/
def putOptimizer (serial : Nat) (o : Optimizer α) : SessionM α Unit :=
  modify fun s => { s with optimizers := s.optimizers.setIfInBounds serial o }

/-- One parameter moved by an optimizer. What was changed before a fault stays changed. -/
def stepParameter [Element α] (serial : Nat) (o : Optimizer α) (p : Input α) :
    SessionM α (Optimizer α) := do
  let n ← asNode p
  match ← ask n.graph (active? n) with
  | none => pure o
  | some (held, grad) =>
    let (fault?, moved) := match o.rule.step o.steps grad ⟨held.array, o.state? n.label⟩ with
      | .ok _ moved => (none, moved)
      | .error f moved => (some f, moved)
    onGraph n.graph (modify (Graph.write held.storage moved.value))
    let o := match moved.averages with
      | some averages => o.setState n.label averages
      | none => o
    putOptimizer serial o
    match fault? with
    | some f => throw f
    | none => pure o

/-- Every parameter moved, in order. -/
def stepParameters [Element α] (serial : Nat) : List (Input α) → Optimizer α → SessionM α Unit
  | [], _ => pure ()
  | p :: rest, o => do stepParameters serial rest (← stepParameter serial o p)

/-- A step of an optimizer. -/
def step [Element α] (serial : Nat) : SessionM α Unit := do
  match (← get).optimizer? serial with
  | none => throw .absentPart
  | some o =>
    match o.rule with
    | .undefined => throw .noStep
    | _ =>
      let o := { o with steps := o.steps + 1 }
      putOptimizer serial o
      stepParameters serial o.parameters o

/-- The gradients of some nodes set to zero. -/
def zeroGrads [Element α] (ps : List (Input α)) : SessionM α Unit :=
  ps.forM fun p => do
    let n ← asNode p
    onGraph n.graph (modify (Graph.zeroGrad n))

end Session

end ReverseMode
