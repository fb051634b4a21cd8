import ReverseMode.Argument.Array
import ReverseMode.Argument.Call

/-!
Arguments read as initializers, and initializers made by name.

What an initializer is made with is looked at when it runs, except for given values and
for the probability of a dropout mask, which are checked when it is made.
-/

namespace ReverseMode

namespace Initializer

variable {α : Type} [Element α]

/-- An initializer that fails with the fault it should have been made without. -/
def deferred : Except Fault (Initializer α) → Initializer α
  | .ok i => i
  | .error f => fixed fun _ _ => .error f

end Initializer

namespace Argument

variable {α : Type} [Element α]

/-- The argument as an initializer: a callable as it is, a value as given values. -/
def toInitializer : Argument α → Except Fault (Initializer α)
  | initializer i => .ok i
  | rule _ | layer _ => .ok (.deferred (.error .type))
  | a => do
    let (single, content) ← a.toContent
    pure (if single then .ofValue content else .ofLiteral content)


/-- A mask that keeps an element with a probability that has to make sense. -/
def toDropout (a : Argument α) : Except Fault (Initializer α) := do
  Initializer.dropout (← a.toParameter) a.plain

/-- A counter that starts at an argument. -/
def toRange (a : Argument α) : Except Fault (Initializer α) := do
  pure (.rangeFrom (← onlyElement (← a.toParameter)))

end Argument

namespace Initializer

variable {α : Type} [Element α]

open Formal (required optional)

/-- The parameters of the initializer of this name. -/
def formals? : String → Option (List (Formal α))
  | "zeros" | "ones" | "glorot_uniform" | "fail" => some []
  | "from_value" | "raw" => some [required "value"]
  | "from_array" => some [required "array"]
  | "normal" => some [optional "mean" (.real 0.0), optional "std" (.real 1.0)]
  | "uniform" => some [optional "low" (.real 0.0), optional "high" (.real 1.0)]
  | "he_normal" => some [optional "fan_in" .none]
  | "dropout" => some [required "prob"]
  | "range_" => some [optional "start" (.int 0)]
  | _ => none

/-- An initializer of two parameters. -/
def ofPair (make : Tensor Scalar → Tensor Scalar → Initializer α) (a b : Argument α) :
    Initializer α :=
  deferred (do pure (make (← a.toParameter) (← b.toParameter)))

/-- The initializer of a name, from the arguments bound to its parameters. -/
def build (name : String) (bound : List (Argument α)) : Except Fault (Initializer α) :=
  match name, bound with
  | "zeros", _ => .ok zeros
  | "ones", _ => .ok ones
  | "glorot_uniform", _ => .ok glorotUniform
  | "fail", _ => .ok failing
  | "from_value", [a] => .ok (deferred (a.toFill.map ofValue))
  | "raw", [a] => .ok (deferred (a.toLiteral.map unchecked))
  | "from_array", [a] => a.toLiteral.map ofLiteral
  | "normal", [a, b] => .ok (ofPair normal a b)
  | "uniform", [a, b] => .ok (ofPair uniform a b)
  | "he_normal", [.none] => .ok (heNormal none)
  | "he_normal", [a] => .ok (deferred (do pure (heNormal (some (← a.toParameter)))))
  | "dropout", [a] => a.toDropout
  | "range_", [a] => .ok (deferred a.toRange)
  | _, _ => .error .type

/-- The initializer of a name, made with the arguments of a call. -/
def named (name : String) (call : Call α) : Except Fault (Initializer α) :=
  match formals? name with
  | some formals => do build name (← call.bind formals)
  | none => .error (.plain .key)

end Initializer

end ReverseMode
