import ReverseMode.Argument.Basic

/-!
Calls: arguments given by position and by name, bound to the parameters of a callable.
-/

namespace ReverseMode

/-- The arguments of a call. -/
structure Call (α : Type) where
  positional : List (Argument α) := []
  named : List (String × Argument α) := []

/-- A parameter of a callable, with the argument it has if none is given. -/
structure Formal (α : Type) where
  name : String
  default? : Option (Argument α) := none

namespace Formal

variable {α : Type}

/-- A parameter that has to be given. -/
def required (name : String) : Formal α := ⟨name, none⟩

/-- A parameter that may be left out. -/
def optional (name : String) (a : Argument α) : Formal α := ⟨name, some a⟩

end Formal

namespace Call

variable {α : Type}

/-- The argument of a parameter that no argument is given for by position. -/
def byName (call : Call α) (f : Formal α) : Except Fault (Argument α) :=
  match call.named.lookup f.name, f.default? with
  | some a, _ => .ok a
  | none, some a => .ok a
  | none, none => .error .type

/-- One argument for every parameter. Each is given at most once, and nothing else is. -/
def bind (call : Call α) (formals : List (Formal α)) : Except Fault (List (Argument α)) := do
  let later := formals.drop call.positional.length
  if formals.length < call.positional.length then throw .type
  if !call.named.all fun (name, _) => later.any fun f => f.name == name then throw .type
  pure (call.positional ++ (← later.mapM call.byName))

/-- The arguments of a callable that takes any number of them, but none by name. -/
def variadic (call : Call α) : Except Fault (List (Argument α)) :=
  if call.named.isEmpty then .ok call.positional else .error .type

end Call

end ReverseMode
