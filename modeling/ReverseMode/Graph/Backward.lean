import ReverseMode.Graph.Forward

/-!
Backward passes.

A pass starts from roots, each with a seed, and walks the tape from its end. At every
node that has a gradient the contributions of its operator are added to the gradients of
its trainable inputs. Where memory is to be released, a value is dropped after its last
consumer has been visited and a node drops value and gradient after its own step.

Roots and seeds keep the form they are handed in, because the seeds are read in the form of
the roots: a list of seeds for a list of roots, one array otherwise. A call that is not valid is
refused before anything changes.
-/

namespace ReverseMode

/-- A seed as handed in. -/
abbrev Seed := Deferred Literal

/-- What a backward pass starts from. -/
inductive Roots (α : Type) where
  /-- The last node built. -/
  | last
  | one (root : Input α)
  | many (roots : List (Input α))

/-- Whether the roots are handed in as a list. -/
def Roots.isMany {α : Type} : Roots α → Bool
  | .many _ => true
  | .last | .one _ => false

/-- A list of seeds as handed in. It can be read in two ways: item by item, where none stands for
ones, or as one array, with a row for each item. What is no array has no rows in it. -/
structure SeedList where
  items : List (Option Seed)
  whole : Seed
  rows : ∀ l, whole = .ok l → l.shape.head? = some items.length ∧
    ∀ row, some (.ok row) ∈ items → row.type ≠ .object → l.shape.tail = row.shape

/-- The gradients of the roots. -/
inductive Seeds where
  /-- Ones everywhere. -/
  | ones
  /-- One seed for one root. -/
  | one (seed : Seed)
  | many (given : SeedList)

/-- The seeds one by one, as far as any are given. A list is read item by item beside a list of
roots, and as one array otherwise. -/
def Seeds.listed (many : Bool) : Seeds → List (Option Seed)
  | .ones => []
  | .one seed => [some seed]
  | .many given => if many then given.items else [some given.whole]

namespace Graph

variable {α : Type} [Element α]

/-- The roots as a list; without any, the last node of the tape. -/
def rootList (g : Graph α) : Roots α → Except Fault (List (Input α))
  | .last => match g.tape.last? with
    | some n => .ok [.node n]
    | none => .error .emptyGraph
  | .one root => .ok [root]
  | .many roots => .ok roots

/-- One seed for every root: without any, ones. -/
def seedList (listed : List (Option Seed)) (count : Nat) : List (Option Seed) :=
  if listed.isEmpty then List.replicate count none else listed

/-- A root may be used, and its seed has its extents. -/
def checkRoot (g : Graph α) (root : Input α) (seed : Option Seed) :
    Except Fault (Node α × Option Literal) := do
  let n ← g.checkInput root
  match seed with
  | none => pure (n, none)
  | some given =>
    let literal ← given
    if literal.shape ≠ n.shape.extents then
      throw (.seedShape literal.shape n.label n.shape.extents)
    pure (n, some literal)

/-- The roots with their seeds, or why the call is refused. -/
def checkBackward (g : Graph α) (roots : Roots α) (seeds : Seeds) :
    Except Fault (List (Node α × Option Literal)) := do
  if g.settings.inference then throw .inferenceOnly
  if !g.forwarded then throw .notForwarded
  if !g.uncomputed.isEmpty then throw .extended
  let inputs ← g.rootList roots
  let seeds := seedList (seeds.listed roots.isMany) inputs.length
  if seeds.length ≠ inputs.length then throw (.seedCount seeds.length inputs.length)
  (inputs.zip seeds).mapM fun (root, seed) => g.checkRoot root seed

/-- The gradients that an earlier pass has left on the tape are dropped. -/
def dropGrads (g : Graph α) : Graph α :=
  g.tape.toList.foldl (fun g n => if n.isLeaf then g else g.releaseGrad n.id) g

/-- The elements of a seed: ones if there is none. -/
def seedElements (s : Signature) : Option Literal → Except Fault (Tensor α)
  | none => .ok (.full s.shape.extents (Element.whole 1))
  | some literal => do pure ((← literal.store s.type).map Element.literal)

/-- A root keeps its value, and its seed is added to its gradient. -/
def seedRoot (root : Node α × Option Literal) : GraphM α Unit := do
  let (n, seed) := root
  modify (modifySlot n.id fun s => { s with retained := true })
  ensure n
  if n.trainable then
    let grad ← gradBuffer n
    let elements ← lift (seedElements n.signature seed)
    let seeded ← lift (grad.addInPlace elements)
    modify (setGrad n.id seeded)

/-- Contributions added to the gradients of the inputs, as far as these are trainable. -/
def addContributions (inputs : List (Node α)) : Contributions α → GraphM α Unit
  | [] => pure ()
  | (slot, made) :: rest => do
    let contribution ← lift made
    match inputs[slot]? with
    | some i =>
      if i.trainable then
        let grad ← gradBuffer i
        modify (setGrad i.id (← lift (contribution.addTo grad)))
    | none => pure ()
    addContributions inputs rest

/-- The backward step of an application with a gradient. -/
def backwardStep (n : Node α) (op : Operator α) (inputs : List (Node α)) : GraphM α Unit := do
  let out ← ensured n
  let values ← inputs.mapM ensured
  inputs.forM fun i => if i.trainable then discard (gradBuffer i) else pure ()
  match (← get).grad? n.id with
  | none => pure ()
  | some g =>
    let wanted := inputs.map Node.trainable
    if op.differentiable && wanted.any id then
      match debugMessage? op with
      | some message => reportDebug message "backward" "BACKWARD" g
      | none => pure ()
      addContributions inputs (op.contributions values out g wanted)

/-- The step of one node, if a gradient has reached it. -/
def visit (n : Node α) : GraphM α Unit := do
  match n with
  | .leaf _ _ => pure ()
  | .apply _ op inputs =>
    if n.trainable && ((← get).grad? n.id).isSome then backwardStep n op inputs

/-- One consumer less for an input; without a gradient of its own it is dropped after the
last one if it may be. -/
def leaveInput (state : Graph α × Pending) (i : Node α) : Graph α × Pending :=
  let (g, p) := state
  let p := p.change (-1) i.id
  (if p.count i.id = 0 && (g.grad? i.id).isNone && g.releasable i then g.releaseValue i.id else g, p)

/-- What follows the step of a node in a backward pass. -/
def afterBackward (n : Node α) (p : Pending) (g : Graph α) : Pending × Graph α :=
  if g.settings.releaseMemory then
    let (g, p) := n.distinctInputs.foldl leaveInput (g, p)
    (p, (if g.releasable n then g.release n.id else g).record)
  else (p, g.record)

/-- Visit these nodes in order. -/
def backwardFrom : List (Node α) → Pending → GraphM α Unit
  | [], _ => pure ()
  | n :: rest, p => do
    visit n
    backwardFrom rest (← modifyGet (afterBackward n p))

/-- The lines of the log that show a root. -/
def rootLines (limit : SampleLimit) (g : Graph α) (n : Node α) : Report.Pieces :=
  Report.arrayLines ("Root " ++ n.label) "  " n.shape.extents
    (Report.valueText limit (g.held? n.id))

/-- The lines of the log that show a parameter with a gradient. -/
def parameterLines? (limit : SampleLimit) (g : Graph α) (n : Node α) : Option Report.Pieces :=
  (g.grad? n.id).map fun grad =>
    Report.parameterLines n.label n.shape.extents (Report.valueText limit (g.held? n.id))
      (Report.valueText limit (some grad))

/-- A backward pass and the memory after it noted in the log. -/
def logBackward (roots : List (Node α)) : GraphM α Unit := do
  let g ← get
  match g.settings.log? with
  | some log =>
    let parameters := g.parameters.toList.filterMap (g.parameterLines? log.limit)
    writeLog log (Report.backwardText g.episode (roots.flatMap (g.rootLines log.limit)) parameters)
    let a := g.allocator
    writeLog log [.ok (Report.memoryText g.episode a.live a.peak a.allocations a.releases
      g.recomputations)]
  | none => pure ()

/-- Differentiate backwards from the roots; gradients of parameters add up over passes. -/
def backward (roots : Roots α) (seeds : Seeds) : GraphM α Unit := do
  let started ← lift ((← get).checkBackward roots seeds)
  modify dropGrads
  let nodes := (← get).tape.toList
  started.forM seedRoot
  backwardFrom nodes.reverse (Pending.start (← get).slots.size nodes)
  logBackward (started.map Prod.fst)

end Graph

end ReverseMode
