import ReverseMode.Expression.Basic

/-!
Elementwise functions: arithmetic, activations, comparisons.

A number that meets a node is folded into an operator of one input; a truth value or a
list is promoted to a constant.
-/

namespace ReverseMode

namespace Expression

open Session (lift onGraph)

variable {α : Type} [Element α]

/-- An operator made with a real parameter and applied to an argument. -/
def withReal (make : Float → Unary) (parameter a : Argument α) : SessionM α (Argument α) := do
  unary (.unary (make (← realOf parameter))) a

def neg (a : Argument α) : SessionM α (Argument α) := unary (.unary .neg) a

/-- Two arguments joined by an operator whose inputs can be exchanged. A number beside a node
becomes the parameter of an operator of one input. -/
def folding (make : Float → Unary) (join : Joint) (a b : Argument α) :
    SessionM α (Argument α) := do
  match a.node?, b.node? with
  | some _, _ => if b.isNumber then withReal make b a else binary (.joint join) a b
  | _, some _ => if a.isNumber then withReal make a b else binary (.joint join) a b
  | _, _ => binary (.joint join) a b

def add (a b : Argument α) : SessionM α (Argument α) := folding .addScalar .plus a b

def mul (a b : Argument α) : SessionM α (Argument α) := folding .mulScalar .mult a b

def sub (a b : Argument α) : SessionM α (Argument α) := do
  match a.node?, b.node? with
  | some _, _ => if b.isNumber then withReal .addScalar b.negated a else binary (.joint .minus) a b
  | _, some _ =>
    if a.isNumber then
      let c ← realOf a
      unary (.unary (.addScalar c)) (← neg b)
    else binary (.joint .minus) a b
  | _, _ => binary (.joint .minus) a b

def div (a b : Argument α) : SessionM α (Argument α) := do
  if a.node?.isSome && b.isNumber then unary (.unary (.mulScalar (← lift b.inverse))) a
  else binary (.joint .div) a b

/-- A number without its storage type, as it is used beside a node on its right. -/
def unstored : Argument α → Argument α
  | .scalar (.bool b) => .bool b
  | .scalar (.int _ n) => .int n
  | .scalar s => .real s.toFloat
  | a => a

/-- The function of an arithmetic sign. -/
def signed (sign : String) (a b : Argument α) : SessionM α (Argument α) :=
  match sign with
  | "+" => add a b
  | "-" => sub a b
  | "*" => mul a b
  | "/" => div a b
  | _ => throw .type

/-- A sign between any two arguments. Without a node among them it is calculated at once. An
array on the left of a node is taken element by element, which gives no single node unless it
has no axes. -/
def calculate (sign : String) (a b : Argument α) : SessionM α (Argument α) :=
  match a.node?, b.node? with
  | none, none => lift (a.calculate sign b)
  | some _, _ => signed sign a b
  | none, some _ =>
    match a with
    | .array _ values => do
      match values.shape, ← values.toList.mapM fun s => signed sign (unstored (.scalar s)) b with
      | [], [result] => pure result
      | _, results => pure (.list results)
    | a => signed sign (unstored a) b

/-- The hyperbolic tangent of the sum of some arguments, or of the items of the only one. -/
def tanh (arguments : List (Argument α)) : SessionM α (Argument α) := do
  let nodes := match arguments with
    | [.list items] | [.tuple items] => items
    | items => items
  match nodes with
  | [] => throw .tanhInputs
  | first :: _ => applyOn (← nodeOf first) (.joint .tanh) nodes

/-- `sigmoid t · y + (1 - sigmoid t) · x`. -/
def highway (y x t : Argument α) : SessionM α (Argument α) := do
  applyOn (← nodeOf x) (.joint .highway) [y, x, t]

/-- The first argument, reported when its value and its gradient are computed. -/
def debug (a message : Argument α) : SessionM α (Argument α) := do
  let n ← nodeOf a
  let said := if ← lift message.truth then message.toMessage else ⟨n.title.shown, n.title.text⟩
  applyOn n (.debug said .graph) [a]

/-- A node marked so that its value is dropped once its consumers have run. -/
def checkpoint (a : Argument α) : SessionM α (Argument α) := do
  let n ← nodeOf a
  pure (.node (← onGraph n.graph (Graph.checkpoint n)))

/-- Whether an argument names an element type. Only an array of one element can be compared
with a name. -/
def namesType (type : Argument α) (name : String) : Except Fault Bool :=
  match type with
  | .text s | .elementType s => .ok (s == name)
  | .array _ values => if values.size = 1 then .ok false else .error .value
  | _ => .ok false

/-- A node converted to another element type; one that has the type is not changed. -/
def cast (a type : Argument α) : SessionM α (Argument α) := do
  match a with
  | .node n =>
    if ← lift (namesType type n.type.name) then pure a
    else unary (.cast (← lift type.toType)) a
  | .scalar s => unlessNamed s.ownType.name
  | .array t _ => unlessNamed t.name
  | _ => throw .absentPart
where
  /-- A number or array that has the type is not changed either. -/
  unlessNamed (held : String) : SessionM α (Argument α) := do
    if ← lift (namesType type held) then pure a
    else
      let _ ← lift type.toType
      throw .absentPart

end Expression

end ReverseMode
