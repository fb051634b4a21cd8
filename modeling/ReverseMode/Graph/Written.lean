import ReverseMode.Literal.Basic

/-!
Values that a graph keeps as their callers wrote them.

The name of a node and whether it is trainable may be any values. They count as true or
false, are shown again, and names are compared.
-/

namespace ReverseMode

/-- A value without meaning for a graph. -/
inductive Datum where
  | none
  | bool (b : Bool)
  | int (n : Int)
  | real (x : Float)
  | text (s : String)
  | list (items : List Datum)
  | record (entries : List (String × Datum))
  | scalar (s : Scalar)
  | array (type : StorageType) (values : Tensor Scalar)
  /-- Anything else, by its text. -/
  | other (text : String)
deriving Repr, Inhabited

namespace Datum

/-- The number a value is, if it is one. -/
def number? : Datum → Option Scalar
  | bool b => some (.whole (if b then 1 else 0))
  | int n => some (.whole n)
  | real x => some (.real x)
  | scalar s => some s
  | _ => Option.none

mutual

/-- Whether two values are equal. Numbers are equal whatever their types. -/
def same : Datum → Datum → Bool
  | none, none => true
  | text s, text t => s == t
  | other s, other t => s == t
  | list xs, list ys => allSame xs ys
  | a, b =>
    match a.number?, b.number? with
    | some s, some t => Scalar.eq s t
    | _, _ => false

/-- Whether values are equal one by one. -/
def allSame : List Datum → List Datum → Bool
  | [], [] => true
  | a :: as, b :: bs => same a b && allSame as bs
  | _, _ => false

end

end Datum

/-- A value as its caller wrote it. -/
structure Written where
  value : Datum
  /-- Whether it counts as true. -/
  holds : Bool
  /-- The text of the value alone. -/
  text : String
  /-- The text that shows what kind of value it is. -/
  shown : String
deriving Repr, Inhabited

namespace Written

/-- A truth value. -/
def ofBool (b : Bool) : Written := ⟨.bool b, b, Fault.truth b, Fault.truth b⟩

/-- Text. -/
def ofText (s : String) : Written := ⟨.text s, !s.isEmpty, s, Text.quoted s⟩

end Written

end ReverseMode
