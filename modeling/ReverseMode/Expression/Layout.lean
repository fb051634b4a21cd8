import ReverseMode.Expression.Arithmetic

/-!
Functions that move elements: permutations, reshapes, joins and selections.
-/

namespace ReverseMode

namespace Expression

open Session (lift onGraph)

variable {α : Type} [Element α]

/-- The two last axes exchanged. -/
def lastAxesSwapped (rank : Nat) : List Int :=
  (List.range rank).map fun (i : Nat) =>
    if i + 1 = rank then ((rank - 2 : Nat) : Int) else if i + 2 = rank then ((rank - 1 : Nat) : Int)
    else (i : Int)

/-- Axes permuted; without a permutation the last two are exchanged. -/
def transpose (a axes : Argument α) : SessionM α (Argument α) := do
  match axes with
  | .none =>
    let n ← nodeOf a
    if n.shape.rank < 2 then throw (.transposeRank n.shape.extents)
    unary (.transpose (lastAxesSwapped n.shape.rank)) a
  | axes => unary (.transpose (← lift axes.toInts)) a

/-- Two axes exchanged. -/
def swapAxes (a axis1 axis2 : Argument α) : SessionM α (Argument α) := do
  let rank := (← nodeOf a).shape.rank
  let i ← lift (axis1.toAxis.resolve rank)
  let j ← lift (axis2.toAxis.resolve rank)
  if i = j then pure a
  else
    unary (.transpose ((List.range rank).map fun (k : Nat) =>
      if k = i then (j : Int) else if k = j then (i : Int) else (k : Int))) a

/-- Nodes joined along an axis; a single one is not changed. -/
def concatenate (nodes axis : Argument α) : SessionM α (Argument α) := do
  match ← itemsOf nodes with
  | [] => throw .joinInputs
  | [a] => pure a
  | first :: rest => applyOn (← nodeOf first) (.concatenate axis.toAxis) (first :: rest)

/-- How often something can be repeated in a list: `2^63` times cannot be counted, and `2^33`
items do not fit in memory. -/
def repetitions (n : Int) : Except Fault Nat :=
  if n < 0 then .ok 0
  else if !IntegerType.int64.fits n then .error (.plain .overflow)
  else if Int.pow 2 33 ≤ n then .error (.plain .listMemory)
  else .ok n.toNat

/-- How often a node is repeated: at least once. A number that is no integer is refused,
unless it equals one. -/
def repeatCount (repeats : Scalar) (text : String) : Except Fault Nat :=
  if Scalar.lt repeats (.whole 1) then .error (.repeatCount text)
  else if Scalar.eq repeats (.whole 1) then .ok 1
  else match repeats with
    | .int _ n | .whole n => repetitions n
    | _ => .error .type

/-- Copies of a node joined along an axis. A number in an array is a factor instead, unless it
equals one. -/
def repeated (a repeats axis : Argument α) : SessionM α (Argument α) := do
  match repeats with
  | .array _ values =>
    match values.toList with
    | [s] =>
      if Scalar.lt s (.whole 1) then throw (.repeatCount repeats.plain)
      else if Scalar.eq s (.whole 1) then pure a
      else mul a (unstored (.scalar s))
    | _ => throw .value
  | repeats =>
    match repeats.number? with
    | none => throw .type
    | some s =>
      let count ← lift (repeatCount s repeats.plain)
      if count = 1 then pure a
      else concatenate (.list (List.replicate count a)) axis

def reshape (a shape : Argument α) : SessionM α (Argument α) := do
  unary (.reshape (← lift shape.toInts)) a

/-- How many axes a node of some rank lacks. Only integers are such a number, but others may
say that nothing is missing. -/
def missingAxes (dims : Scalar) (rank : Nat) : Except Fault Nat :=
  match dims.sub (.whole rank) with
  | .int _ n | .whole n => repetitions n
  | x => if Scalar.le x (.whole 0) then .ok 0 else .error .type

/-- Axes of extent one put in front until there are at least `dims` axes. -/
def atLeast (a dims : Argument α) : SessionM α (Argument α) := do
  let n ← nodeOf a
  let s ← match dims, dims.number? with
    | _, some s => pure s
    | .array _ values, none =>
      match values.toList with
      | [s] => pure (.float64 s.toFloat)
      | _ => throw .value
    | _, none => throw .type
  let missing ← lift (missingAxes s n.shape.rank)
  if missing = 0 then pure a
  else unary (.reshape (List.replicate missing 1 ++ n.shape.extents.map Int.ofNat)) a

/-- A constant with the shape and element type of a node. -/
def constantLikeNode (a init : Argument α) : SessionM α (Argument α) := do
  let n ← nodeOf a
  pure (.node (← constantLike n n.shape (← lift init.toInitializer) n.type))

/-- All elements along one axis. -/
def flatten (a : Argument α) : SessionM α (Argument α) := do
  unary (.reshape [((← nodeOf a).shape.elements : Int)]) a

/-- All axes but the last one collapsed. -/
def flattenRows (a : Argument α) : SessionM α (Argument α) := do
  let s := (← nodeOf a).shape
  let last := s.extentBack 0
  unary (.reshape [((s.elements / last : Nat) : Int), (last : Int)]) a

def gather (a axis indices : Argument α) : SessionM α (Argument α) := do
  let n ← nodeOf a
  applyOn n (.gather axis.toAxis) [a, ← indexNode indices a]

def indexSelect (a axis indices : Argument α) : SessionM α (Argument α) := do
  let n ← nodeOf a
  applyOn n (.indexSelect axis.toAxis) [a, ← indexNode indices a]

/-- A selection along one axis. -/
def slice (a axis index : Argument α) : SessionM α (Argument α) :=
  unary (.slice axis.toAxis index.toSelection) a

/-- `length` places of an axis from `start` on. -/
def narrow (a axis start length : Argument α) : SessionM α (Argument α) := do
  let stop ← calculate "+" start length
  unary (.slice axis.toAxis (.range [start.toBound, stop.toBound, .leftOut])) a

end Expression

end ReverseMode
