import ReverseMode.Expression.Functions

/-!
Layers made by name, and layers applied to arguments.

Making a layer fetches its parameters from the graph by name, so a layer made again finds
the same ones. Applying it builds new nodes for the current episode.
-/

namespace ReverseMode

namespace Layer

open Session (onGraph lift)
open Formal (required optional)

variable {α : Type} [Element α]

/-! ### Making layers -/

/-- The parameter of a name with given extents. -/
def fetch (serial : Nat) (name : String) (extents : List (Argument α)) (init : Initializer α) :
    SessionM α (Node α) := do
  let shape ← lift (do Shape.ofInts (← extents.mapM Argument.toInt))
  onGraph serial (Graph.parameter (.ofText name) shape (.ok init) (.ok none) (.ofBool true))

/-- A linear layer; its weights are drawn with a deviation that fits the number of inputs. -/
def makeLinear (serial : Nat) (name inputs outputs biased : Argument α) :
    SessionM α (Layer α (Argument α)) := do
  let init ← lift (Initializer.named "he_normal" ⟨[inputs], []⟩)
  let weight ← fetch serial (name.plain ++ ".weight") [inputs, outputs] init
  let bias ← if ← lift biased.truth
    then some <$> fetch serial (name.plain ++ ".bias") [outputs] .zeros
    else pure none
  pure (.linear name.shown inputs.plain outputs.plain biased.plain weight bias)

/-- A layer that normalizes the last axis. -/
def makeLayerNorm (serial : Nat) (name features eps : Argument α) :
    SessionM α (Layer α (Argument α)) := do
  let gamma ← fetch serial (name.plain ++ ".gamma") [features] .ones
  let beta ← fetch serial (name.plain ++ ".beta") [features] .zeros
  pure (.layerNorm name.shown features.plain gamma beta eps.toReal)

/-- What stands in the place of a layer. -/
def ofArgument : Argument α → Layer α (Argument α)
  | .layer l => l
  | .rule r => .other (Argument.rule r).plain r.unobserving
  | a => .other a.plain .type

/-- The layer of a name, made with the arguments of a call on a graph. -/
def named (serial : Nat) (kind : String) (c : Call α) : SessionM α (Layer α (Argument α)) := do
  let bare (l : Layer α (Argument α)) : SessionM α (Layer α (Argument α)) := do
    let _ ← lift (c.bind [])
    pure l
  match kind with
  | "Linear" =>
    match ← lift (c.bind [required "name", required "in_features", required "out_features",
        optional "bias" (.bool true)]) with
    | [name, inputs, outputs, biased] => makeLinear serial name inputs outputs biased
    | _ => throw .type
  | "LayerNorm" =>
    match ← lift (c.bind [required "name", required "features", optional "eps" (.real 1e-9)]) with
    | [name, features, eps] => makeLayerNorm serial name features eps
    | _ => throw .type
  | "Sequential" => pure (.sequential ((← lift c.variadic).map ofArgument))
  | "ReLU" => bare .relu
  | "Sigmoid" => bare .sigmoid
  | "Tanh" => bare .tanh
  | "MSELoss" => bare .squaredError
  | "BCELoss" =>
    match ← lift (c.bind [optional "eps" (.real 1e-7)]) with
    | [eps] => pure (.binaryCrossEntropy eps)
    | _ => throw .type
  | "CrossEntropyLoss" =>
    match ← lift (c.bind [optional "label_smoothing" (.real 0.0)]) with
    | [smoothing] => pure (.crossEntropy smoothing.toReal smoothing.plain)
    | _ => throw .type
  | _ => throw .absentPart

/-! ### Applying layers -/

/-- A target as a node: given values become a constant with the shape of the prediction. -/
def targetNode (target prediction : Argument α) : SessionM α (Argument α) := do
  match target with
  | .node _ => pure target
  | _ =>
    let content ← lift target.toLiteral
    let n ← Expression.nodeOf prediction
    pure (.node (← Expression.constantLike n n.shape (.ofLiteral content) n.type))

/-- The mean of all elements. -/
def meanOfAll (a : Argument α) : SessionM α (Argument α) := do
  Expression.reduce .mean (← Expression.flatten a) (.int 0)

/-- The mean of the squared differences. -/
def applySquaredError (prediction target : Argument α) : SessionM α (Argument α) := do
  let target ← targetNode target prediction
  meanOfAll (← Expression.unary (.unary .square) (← Expression.calculate "-" prediction target))

/-- `- mean (t · log (p + eps) + (1 - t) · log (1 + eps - p))`. -/
def applyBinaryCrossEntropy (eps prediction target : Argument α) : SessionM α (Argument α) := do
  let target ← targetNode target prediction
  let above ← Expression.calculate "+" prediction eps
  let first ← Expression.mul target (← Expression.unary (.unary .log) above)
  let rest ← Expression.sub (.real 1.0) target
  let below ← Expression.calculate "-" (← Expression.calculate "+" (.real 1.0) eps) prediction
  let second ← Expression.mul rest (← Expression.unary (.unary .log) below)
  Expression.neg (← meanOfAll (← Expression.add first second))

/-- The mean cross-entropy of logits. -/
def applyCrossEntropy (smoothing : Deferred Float) (logits labels : Argument α) :
    SessionM α (Argument α) := do
  let labels ← Expression.indexNode labels logits
  let n ← Expression.nodeOf logits
  meanOfAll (← Expression.applyOn n (.crossEntropy (← lift smoothing)) [logits, labels])

/-- A node passed through a linear layer. -/
def applyLinear (weight : Node α) (bias : Option (Node α)) (x : Argument α) :
    SessionM α (Argument α) := do
  let image ← Expression.product false x (.node weight) (.bool false) (.bool false) (.real 1.0)
  match bias with
  | some b => Expression.add image (.node b)
  | none => pure image

mutual

/-- A layer applied to arguments. -/
def apply : Layer α (Argument α) → List (Argument α) → SessionM α (Argument α)
  | linear _ _ _ _ weight bias, [x] => applyLinear weight bias x
  | layerNorm _ _ gamma beta eps, [x] => do
    let n ← Expression.nodeOf x
    Expression.applyOn n (.layerNorm (← lift eps)) [x, .node gamma, .node beta]
  | sequential layers, [x] => applyAll layers x
  | relu, [x] => Expression.activation "relu" (.unary .relu) x
  | sigmoid, [x] => Expression.activation "sigmoid" (.unary .sigmoid) x
  | tanh, [x] => Expression.tanh [x]
  | squaredError, [prediction, target] => applySquaredError prediction target
  | binaryCrossEntropy eps, [prediction, target] => applyBinaryCrossEntropy eps prediction target
  | crossEntropy smoothing _, [logits, labels] => applyCrossEntropy smoothing logits labels
  | other _ refusal, _ => throw refusal
  | _, _ => throw .type

/-- Layers applied one after the other. -/
def applyAll : List (Layer α (Argument α)) → Argument α → SessionM α (Argument α)
  | [], x => pure x
  | l :: rest, x => do applyAll rest (← apply l [x])

end

end Layer

end ReverseMode
