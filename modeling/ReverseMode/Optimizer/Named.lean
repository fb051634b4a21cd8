import ReverseMode.Argument.Array
import ReverseMode.Argument.Call
import ReverseMode.Session.Basic

/-!
Optimizers made by name from arguments.

The parameters are those of a layer or the items of a list. Rates and other numbers are
looked at when a step needs them.
-/

namespace ReverseMode

namespace Argument

variable {α : Type} [Element α]

/-- A number as a quantity. -/
def ofScalar (s : Scalar) : Quantity α := .ok (.scalar (Element.literal s))

/-- A literal as a quantity: text takes part in no arithmetic, and `refusal` says why other
things do not. -/
def literalQuantity (refusal : Fault) (l : Literal) :
    Except Fault (Tensor α) :=
  match l.type with
  | .number _ => do pure ((← l.numbers).map Element.literal)
  | .text _ => .error (.plain .operation)
  | .object => .error refusal

/-- The argument as a quantity; `refusal` says why something that is no number is none. -/
def toQuantity (refusal : Fault) : Argument α → Except Fault (Tensor α)
  | bool b => ofScalar (.bool b)
  | int n => ofScalar (.whole n)
  | real x => ofScalar (.real x)
  | scalar s => ofScalar s
  | array _ values => .ok (values.map Element.literal)
  | text _ => .error (.plain .operation)
  | list items => do literalQuantity refusal (← (list items).toLiteral)
  | tuple items => do literalQuantity refusal (← (tuple items).toLiteral)
  | _ => .error refusal

/-- The argument as an operand of arithmetic. -/
def toOperand (a : Argument α) : Quantity α := a.toQuantity .type

/-- The argument as an operand of arithmetic in place. -/
def toFactor (a : Argument α) : Quantity α := a.toQuantity (.plain .operation)

/-- The argument as a momentum. -/
def toMomentum (a : Argument α) : Momentum α := ⟨a.isZero, a.toFactor⟩

/-- A power of a real number, which has to be finite if the number is. -/
def realPower (x : Float) (n : Nat) : Except Fault Float :=
  let y := x.pow (Float.ofNat n)
  if y.isInf && x.isFinite then .error (.plain .overflow) else .ok y

/-- One less an argument, and one less a power of it. Only numbers and arrays have these. -/
def lessPower (n : Nat) : Argument α → Except Fault (Tensor α)
  | bool b => ofScalar (.whole (1 - Int.pow (if b then 1 else 0) n))
  | int m => ofScalar (.whole (1 - Int.pow m n))
  | real x => do ofScalar (.real (1.0 - (← realPower x n)))
  | scalar s => ofScalar (Scalar.sub (.whole 1) (s.pow n))
  | array _ values =>
    .ok (values.map fun s => Element.literal (Scalar.sub (.whole 1) (s.pow n)))
  | _ => .error .type

/-- The argument as the decay of an average. -/
def toDecay (a : Argument α) : Decay α := ⟨a.toFactor, a.lessPower 1, a.lessPower⟩

/-- The nodes that an optimizer or a call on several nodes is given. -/
def toInputs : Argument α → Except Fault (List (Input α))
  | layer l => do pure ((← l.parameters).map .node)
  | a => do pure ((← a.items).map toInput)

end Argument

namespace Optimizer

open Formal (required optional)

variable {α : Type} [Element α]

/-- The parameters of the optimizers of a name; none where there is no such optimizer. -/
def formals? : String → Option (List (Formal α))
  | "Optimizer" => some [required "parameters"]
  | "SGD" => some [required "parameters", optional "lr" (.real 0.01), optional "momentum" (.real 0.0)]
  | "Adam" => some [required "parameters", optional "lr" (.real 0.001), optional "beta1" (.real 0.9),
      optional "beta2" (.real 0.999), optional "eps" (.real 1e-8)]
  | _ => none

/-- The optimizer of a name, from the arguments bound to its parameters. -/
def build (kind : String) (bound : List (Argument α)) : Except Fault (Optimizer α) := do
  match kind, bound with
  | "Optimizer", [parameters] =>
    pure { rule := .undefined, parameters := ← parameters.toInputs, text := "" }
  | "SGD", [parameters, rate, momentum] =>
    pure
      { rule := .descent rate.toOperand momentum.toMomentum
        parameters := ← parameters.toInputs
        text := "SGD(lr=" ++ rate.plain ++ ", momentum=" ++ momentum.plain ++ ")" }
  | "Adam", [parameters, rate, beta1, beta2, eps] =>
    pure
      { rule := .moments rate.toOperand beta1.toDecay beta2.toDecay eps.toOperand
        parameters := ← parameters.toInputs
        text := "Adam(lr=" ++ rate.plain ++ ", beta1=" ++ beta1.plain ++ ", beta2=" ++
          beta2.plain ++ ")" }
  | _, _ => throw .type

/-- The optimizer of a name, made with the arguments of a call. -/
def named (kind : String) (c : Call α) : Except Fault (Optimizer α) :=
  match formals? kind with
  | some formals => do build kind (← c.bind formals)
  | none => .error .absentPart

end Optimizer

end ReverseMode
