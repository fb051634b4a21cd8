import ReverseMode.Graph.Node

/-!
Layers: the building blocks of models, with the parameters they own.

A layer keeps what it was made with, as far as it is shown or needed when the layer is
applied. Losses are layers that take a prediction and a target. A value that only gets a
meaning when the layer is applied is kept as it was handed in; `β` is the type of such
values.
-/

namespace ReverseMode

/-- A layer. -/
inductive Layer (α β : Type) where
  /-- `x · weight + bias`. -/
  | linear (name inputs outputs biased : String) (weight : Node α) (bias : Option (Node α))
  | layerNorm (name features : String) (gamma beta : Node α) (eps : Deferred Float)
  /-- Layers applied one after the other. -/
  | sequential (layers : List (Layer α β))
  | relu
  | sigmoid
  | tanh
  /-- The mean of the squared differences. -/
  | squaredError
  /-- The mean cross-entropy of probabilities. -/
  | binaryCrossEntropy (eps : β)
  /-- The mean cross-entropy of logits. -/
  | crossEntropy (smoothing : Deferred Float) (text : String)
  /-- Something in the place of a layer that is none, and why it cannot be applied. -/
  | other (text : String) (refusal : Fault)

namespace Layer

variable {α β : Type}

/-- The kind of a layer. -/
def kind : Layer α β → String
  | linear .. => "Linear"
  | layerNorm .. => "LayerNorm"
  | sequential _ => "Sequential"
  | relu => "ReLU"
  | sigmoid => "Sigmoid"
  | tanh => "Tanh"
  | squaredError => "MSELoss"
  | binaryCrossEntropy _ => "BCELoss"
  | crossEntropy .. => "CrossEntropyLoss"
  | other .. => "object"

mutual

/-- A layer as text. -/
def text : Layer α β → String
  | linear name inputs outputs biased _ _ =>
    "Linear(" ++ name ++ ", in_features=" ++ inputs ++ ", out_features=" ++ outputs ++
      ", bias=" ++ biased ++ ")"
  | layerNorm name features _ _ _ => "LayerNorm(" ++ name ++ ", features=" ++ features ++ ")"
  | sequential layers => "Sequential(\n  " ++ String.intercalate "\n  " (texts layers) ++ "\n)"
  | relu => "ReLU()"
  | sigmoid => "Sigmoid()"
  | tanh => "Tanh()"
  | squaredError => "MSELoss()"
  | binaryCrossEntropy _ => "BCELoss()"
  | crossEntropy _ smoothing => "CrossEntropyLoss(label_smoothing=" ++ smoothing ++ ")"
  | other t _ => t

/-- Layers as texts. -/
def texts : List (Layer α β) → List String
  | [] => []
  | l :: rest => text l :: texts rest

end

mutual

/-- The parameters that a layer owns, in the order they are used. -/
def parameters : Layer α β → Except Fault (List (Node α))
  | linear _ _ _ _ weight bias => .ok (weight :: bias.toList)
  | layerNorm _ _ gamma beta _ => .ok [gamma, beta]
  | sequential layers => allParameters layers
  | other .. => .error .absentPart
  | _ => .ok []

/-- The parameters of several layers. -/
def allParameters : List (Layer α β) → Except Fault (List (Node α))
  | [] => .ok []
  | l :: rest => do pure ((← parameters l) ++ (← allParameters rest))

end

end Layer

end ReverseMode
