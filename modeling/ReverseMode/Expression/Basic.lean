import ReverseMode.Session.Basic

/-!
How expressions are built from arguments.

Every function of the expression language applies operators to its arguments on the graph
of the first one that is a node. Values among the arguments are promoted to constants of
the element type of the node they meet; literal indices become index constants.
-/

namespace ReverseMode

namespace Expression

open Session (onGraph lift)

variable {α : Type} [Element α]

/-- The node that an argument is; nothing else has the parts of one. -/
def nodeOf (a : Argument α) : SessionM α (Node α) :=
  match a.node? with
  | some n => pure n
  | none => throw .absentPart

/-- An operator applied to arguments on the graph of a node. -/
def applyOn (on : Node α) (op : Operator α) (inputs : List (Argument α)) :
    SessionM α (Argument α) := do
  pure (.node (← onGraph on.graph (Graph.add op (inputs.map Argument.toInput))))

/-- An operator applied to one argument. -/
def unary (op : Operator α) (a : Argument α) : SessionM α (Argument α) := do
  applyOn (← nodeOf a) op [a]

/-- A constant beside a node. -/
def constantLike (like : Node α) (shape : Shape) (init : Initializer α) (type : ElementType) :
    SessionM α (Node α) :=
  onGraph like.graph (Graph.constant shape init (.ok (some type)) none)

/-- A value as a constant of the element type of a node. -/
def promote (a : Argument α) (like : Node α) : SessionM α (Node α) := do
  let (single, content) ← lift a.toContent
  let shape ← lift (Shape.ofNats content.shape)
  constantLike like shape (if single then .ofValue content else .ofLiteral content) like.type

/-- An operator applied to two arguments, of which at least one is a node. -/
def binary (op : Operator α) (a b : Argument α) : SessionM α (Argument α) := do
  match a.node?, b.node? with
  | some m, some _ => applyOn m op [a, b]
  | some m, none => applyOn m op [a, .node (← promote b m)]
  | none, some n => applyOn n op [.node (← promote a n), b]
  | none, none => throw .noExpression

/-- Indices as a node: literal ones become a constant beside the argument they index. -/
def indexNode (indices a : Argument α) : SessionM α (Argument α) := do
  match indices with
  | .node n => pure (.node n)
  | _ =>
    let content ← lift indices.toLiteral
    let like ← nodeOf a
    let shape ← lift (Shape.ofNats content.shape)
    pure (.node (← constantLike like shape (.ofLiteral content) ElementType.index))

/-- The argument itself, or the only item of a list. -/
def single (name : String) (a : Argument α) : SessionM α (Argument α) :=
  match a with
  | .list [item] | .tuple [item] => pure item
  | .list items | .tuple items => throw (.onlySingle name items.length)
  | a => pure a

/-- A unary operator whose argument may stand in a list by itself. -/
def activation (name : String) (op : Operator α) (a : Argument α) :
    SessionM α (Argument α) := do
  unary op (← single name a)

/-- The items of an argument. -/
def itemsOf (a : Argument α) : SessionM α (List (Argument α)) := lift a.items

/-- An argument read as a real number. -/
def realOf (a : Argument α) : SessionM α Float := lift a.toReal

end Expression

namespace Argument

variable {α : Type}

/-- A number with the other sign; an unsigned one wraps. -/
def negated : Argument α → Argument α
  | int n => int (-n)
  | real x => real (-x)
  | scalar s => scalar s.neg
  | a => a

/-- One divided by a number. -/
def inverse : Argument α → Except Fault Float
  | int n => do
    if n = 0 then throw (.plain .zeroDivision)
    pure (1.0 / (← intToReal n))
  | real x => if x == 0.0 then .error (.plain .zeroDivision) else .ok (1.0 / x)
  | scalar s => .ok (Scalar.div (.real 1.0) s).toFloat
  | _ => .error .type

/-- The argument as one item, or as the items of a shape or permutation given by itself. -/
def spreadItems : List (Argument α) → Argument α
  | [bool b] => tuple [bool b]
  | [int n] => tuple [int n]
  | [scalar (.int t n)] => tuple [scalar (.int t n)]
  | [a] => a
  | items => tuple items

end Argument

end ReverseMode
