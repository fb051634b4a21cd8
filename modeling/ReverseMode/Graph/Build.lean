import ReverseMode.Graph.Basic

/-!
Construction: nodes are checked, inferred and recorded.

An application is built only if its inputs are nodes of this graph and of the current
episode and if they fit the operator. An equal application that is on the tape already
is given again.
-/

namespace ReverseMode

/-- What is handed in where a node is expected. -/
inductive Input (α : Type) where
  | node (n : Node α)
  | other (typeName : String)

namespace Graph

variable {α : Type}

/-- A node that may be used now: of this graph, and a parameter or of this episode. -/
def checkNode (g : Graph α) (n : Node α) : Except Fault Unit :=
  if n.graph ≠ g.serial then .error (.foreign n.label)
  else match n.episode with
    | none => .ok ()
    | some e => if e = g.episode then .ok () else .error (.expired n.label e g.episode)

/-- An input that may be used now. -/
def checkInput (g : Graph α) : Input α → Except Fault (Node α)
  | .node n => do g.checkNode n; pure n
  | .other typeName => .error (.notExpression typeName)

/-- A node on the tape that applies an equal operator to the same inputs. -/
def find? (g : Graph α) (key : ApplicationKey) : Option (Node α) := g.index.find? key

/-- Whether an output carries gradients: of float type, differentiable, and behind a
trainable input. -/
def carriesGradient (op : Operator α) (type : ElementType) (inputs : List (Node α)) : Bool :=
  op.differentiable && type.isFloat && inputs.any Node.trainable

/-- Run a step that does not change the graph. -/
def lift {β : Type} (e : Except Fault β) : GraphM α β :=
  match e with
  | .ok b => pure b
  | .error f => throw f

/-- An operator applied to inputs: an equal node if there is one, else a new one. -/
def add (op : Operator α) (inputs : List (Input α)) : GraphM α (Node α) := do
  let g ← get
  let nodes ← lift (inputs.mapM g.checkInput)
  let s ← lift (op.infer (nodes.map Node.signature))
  let found := if op.memoize then g.find? (Node.key op nodes) else none
  match found with
  | some n => pure n
  | none =>
    let id ← modifyGet freshId
    let stamp : Stamp :=
      { graph := g.serial, id, shape := s.shape, type := s.type, episode := some g.episode
        trainable := .ofBool (carriesGradient op s.type nodes), name := none }
    let n := Node.apply stamp op nodes
    modify fun g => { g with tape := g.tape.push n, index := g.index.enter n }
    pure n

/-- The element type asked for, or that of the graph. -/
def typeOr (g : Graph α) (type : Deferred (Option ElementType)) : Except Fault ElementType := do
  pure ((← type).getD g.settings.type)

/-- Given values are checked against the shape at once. -/
def checkHeld (init : Initializer α) (shape : Shape) : Except Fault Unit :=
  match init.held? with
  | some held => Initializer.checkSize held shape
  | none => .ok ()

/-- A leaf with a fixed value. Its id is taken before its element type is looked at. -/
def constant (shape : Shape) (init : Initializer α) (type : Deferred (Option ElementType))
    (name : Option Written) : GraphM α (Node α) := do
  lift (checkHeld init shape)
  let id ← modifyGet freshId
  let g ← get
  let type ← lift (g.typeOr type)
  let stamp : Stamp :=
    { graph := g.serial, id, shape, type, episode := some g.episode
      trainable := .ofBool false, name }
  let n := Node.leaf stamp init
  modify fun g => { g with tape := g.tape.push n }
  pure n

/-- The parameter of this name, made if there is none. Its id is taken before given values
are checked. -/
def parameter (name : Written) (shape : Shape) (init : Except Fault (Initializer α))
    (type : Deferred (Option ElementType)) (trainable : Written) : GraphM α (Node α) := do
  let g ← get
  match g.parameter? name.value with
  | some n =>
    if n.shape = shape then pure n
    else throw (.parameterShape name.shown n.shape.extents shape.extents)
  | none =>
    let type ← lift (g.typeOr type)
    let type ← lift (type.requireFloat "parameter")
    let id ← modifyGet freshId
    let init ← lift init
    lift (checkHeld init shape)
    let stamp : Stamp :=
      { graph := g.serial, id, shape, type, episode := none, trainable, name := some name }
    let n := Node.leaf stamp init
    modify fun g => { g with parameters := g.parameters.push n }
    pure n

/-- Value and gradient of a node kept through backward passes. -/
def retain (n : Input α) : GraphM α (Node α) := do
  let n ← lift ((← get).checkInput n)
  modify (modifySlot n.id fun s => { s with retained := true })
  pure n

/-- A node whose value is dropped once its consumers have run; leaves never are. -/
def checkpoint (n : Node α) : GraphM α (Node α) := do
  lift ((← get).checkNode n)
  if !n.isLeaf then modify (modifySlot n.id fun s => { s with checkpoint := true })
  pure n

end Graph

end ReverseMode
