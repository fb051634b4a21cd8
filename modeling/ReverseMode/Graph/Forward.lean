import ReverseMode.Graph.Build
import ReverseMode.Graph.Pending

/-!
Forward passes and recomputation.

`compute` makes the value of one node from the values of its inputs. `ensure` makes a
value available again after it has been released, together with the released values it
needs. `forward` computes every node of the tape that has not been computed yet, and
drops values that no later node of the pass will read where the node is checkpointed or
the graph is for inference.
-/

namespace ReverseMode

namespace Graph

variable {α : Type} [Element α]

/-- The value of a leaf, from its initializer. A buffer that cannot be filled is given
back. -/
def computeLeaf (s : Stamp) (init : Initializer α) : GraphM α Unit := do
  let storage ← allocate ⟨s.shape, s.type⟩
  let random := (← get).random
  let made : Except Fault (Tensor α × Random) := do
    let (t, random) ← init.run s.shape s.type random
    pure (← t.assign s.type.storage s.shape.extents, random)
  match made with
  | .ok (array, random) =>
    modify fun g => { g with random }
    modify (setValue s.id ⟨storage, true, array⟩)
  | .error f =>
    modify (giveBack storage)
    throw f

/-- The values of the inputs. -/
def inputValues (inputs : List (Node α)) : GraphM α (List (Tensor α)) := do
  let g ← get
  lift (inputs.mapM fun i => match g.held? i.id with
    | some t => .ok t
    | none => .error .type)

/-- The message of an operator that reports what passes it to its graph. -/
def debugMessage? : Operator α → Option Message
  | .debug message .graph => some message
  | _ => none

/-- A section written to the log, up to where it ends. -/
def writeLog (log : LogSettings) (pieces : Report.Pieces) : GraphM α Unit := do
  let (text, fault?) := Report.written pieces
  modify (report (.log log.name text))
  match fault? with
  | some f => throw f
  | none => pure ()

/-- What a debug node sees goes to the log, or out as a line. -/
def reportDebug (message : Message) (phase phaseTitle : String) (seen : Tensor α) :
    GraphM α Unit := do
  match (← get).settings.log? with
  | some log =>
    writeLog log (Report.debugText phaseTitle message.plain seen.shape
      (Report.valueText log.limit (some seen)))
  | none =>
    modify (report (.line ("[" ++ phase ++ "] " ++ message.plain ++ ": shape=" ++
      Text.extents seen.shape)))

/-- A value that shows the first input; it owns no storage. -/
def computeView (s : Stamp) (op : Operator α) (inputs : List (Node α)) : GraphM α Unit := do
  let values ← inputValues inputs
  match debugMessage? op, values with
  | some message, seen :: _ => reportDebug message "forward" "FORWARD" seen
  | _, _ => pure ()
  let array ← lift (op.viewOf values)
  let g ← get
  match inputs.head?.bind fun i => (g.slot i.id).value with
  | some held => modify (setValue s.id ⟨held.storage, false, array⟩)
  | none => throw .type

/-- A value computed into a new buffer. -/
def computeOwned (s : Stamp) (op : Operator α) (inputs : List (Node α)) : GraphM α Unit := do
  let values ← inputValues inputs
  let storage ← allocate ⟨s.shape, s.type⟩
  let array ← lift (op.forward s.type.storage s.shape.extents values)
  modify (setValue s.id ⟨storage, true, array⟩)

/-- The value of a node, from the values of its inputs. -/
def compute (n : Node α) : GraphM α Unit := do
  match n with
  | .leaf s init => computeLeaf s init
  | .apply s op inputs => if op.isView then computeView s op inputs else computeOwned s op inputs
  modify (setComputed true n.id)

/-- A node that had been computed before is computed again. -/
def countRecomputation (n : Node α) (g : Graph α) : Graph α :=
  if (g.slot n.id).computed then { g with recomputations := g.recomputations + 1 } else g

/-- The inputs without a value, the last one first. -/
def missing (g : Graph α) (n : Node α) : List { m : Node α // m ∈ n.inputs } :=
  let inputs := n.distinctInputs.attach.map fun m =>
    (⟨m.val, Node.mem_of_mem_distinct m.property⟩ : { m : Node α // m ∈ n.inputs })
  (inputs.filter fun m => (g.slot m.val.id).value.isNone).reverse

/-- Make sure that a node holds its value, computing what is missing below it first. -/
def ensure (n : Node α) : GraphM α Unit := do
  let g ← get
  if (g.slot n.id).value.isSome then pure ()
  else
    (g.missing n).forM fun m => ensure m.val
    modify (countRecomputation n)
    compute n
termination_by sizeOf n
decreasing_by exact Node.sizeOf_lt_of_mem_inputs m.property

/-- The value of a node, computed if need be. -/
def ensured (n : Node α) : GraphM α (Tensor α) := do
  ensure n
  match (← get).held? n.id with
  | some t => pure t
  | none => throw .type

/-- Whether a value is dropped as soon as a forward pass needs it no more. -/
def dropsEarly (g : Graph α) (n : Node α) : Bool :=
  g.releasable n && ((g.slot n.id).checkpoint || g.settings.inference)

/-- One consumer less for an input, which is dropped after the last one if it may be. -/
def passInput (state : Graph α × Pending) (i : Node α) : Graph α × Pending :=
  let (g, p) := state
  let p := p.change (-1) i.id
  (if p.count i.id = 0 && g.dropsEarly i then g.releaseValue i.id else g, p)

/-- What follows the computation of a node in a forward pass. -/
def afterForward (n : Node α) (p : Pending) (g : Graph α) : Pending × Graph α :=
  let (g, p) := n.distinctInputs.foldl passInput (g, p)
  (p, g.record)

/-- Compute these nodes in order. -/
def forwardFrom : List (Node α) → Pending → GraphM α Unit
  | [], _ => pure ()
  | n :: rest, p => do
    n.distinctInputs.forM ensure
    compute n
    forwardFrom rest (← modifyGet (afterForward n p))

/-- The nodes of the tape that have not been computed. -/
def uncomputed (g : Graph α) : List (Node α) :=
  g.tape.toList.filter fun n => !(g.slot n.id).computed

/-- The lines of the log that show a node. -/
def nodeLines (limit : SampleLimit) (g : Graph α) (n : Node α) : Report.Pieces :=
  Report.arrayLines (n.label ++ Report.flags n.trainable (g.slot n.id).checkpoint) "  "
    n.shape.extents (Report.valueText limit (g.held? n.id))

/-- A forward pass noted in the log. -/
def logForward (computed : List (Node α)) : GraphM α Unit := do
  let g ← get
  match g.settings.log? with
  | some log =>
    writeLog log (Report.forwardText g.episode computed.length
      (computed.flatMap (g.nodeLines log.limit)))
  | none => pure ()

/-- Compute every node of the tape that has not been computed, in the order of the tape. -/
def forward : GraphM α Unit := do
  let g ← get
  let pending := g.uncomputed
  forwardFrom pending (Pending.start g.slots.size pending)
  modify fun g => { g with forwarded := true }
  logForward pending

/-- The value of a node, computed again if it has been released. -/
def value (n : Input α) : GraphM α (Tensor α) := do
  let g ← get
  let n ← lift (g.checkInput n)
  if !n.isLeaf && !(g.slot n.id).computed then throw (.notComputed n.label)
  ensured n

end Graph

end ReverseMode
