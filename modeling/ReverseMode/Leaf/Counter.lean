import ReverseMode.Literal.Basic

/-!
Counters: `start`, `start + 1`, … as an array without axes to begin with.

Only the first two numbers are counted out in the type of the start, where they may wrap
or lose digits. They fix the distance between all of the others, which are held as 64 bit
integers, as doubles where the numbers need not fit those, or as integers of any size.
-/

namespace ReverseMode

namespace Counter

/-- As many 64 bit integers, from the first two. -/
def integers (count : Nat) (first second : Int) : List Scalar :=
  (List.range count).map fun (i : Nat) =>
    .int .int64 (IntegerType.int64.wrap (first + i * (second - first)))

/-- As many doubles, from the first two. -/
def reals (count : Nat) (first second : Float) : List Scalar :=
  (List.range count).map fun (i : Nat) => .float64 (
    match i with
    | 0 => first
    | 1 => second
    | i => first + Float.ofNat i * (second - first))

/-- Whether an integer has 64 bits, with a sign or without. -/
def isWide (n : Int) : Bool :=
  IntegerType.int64.fits n || IntegerType.fits ⟨false, .w64⟩ n

/-- A counter that starts at a literal integer, stored in a type. The number behind the last
one decides how the numbers are held. -/
def fromWhole (t : StorageType) (count : Nat) (n : Int) : Except Fault (List Scalar) :=
  let past := n + count
  if IntegerType.int64.fits n && IntegerType.int64.fits past then
    .ok ((integers count n (n + 1)).map (Scalar.store t))
  else if isWide n && isWide past then
    .ok ((reals count (Number.ofInt n) (Number.ofInt (n + 1))).map (Scalar.store t))
  else (List.range count).mapM fun (i : Nat) => Entry.storeWhole t (n + i)

/-- A counter that starts at a stored integer. Its type has to hold how far it counts. -/
def fromStored (type : IntegerType) (count : Nat) (n : Int) : Except Fault (List Scalar) :=
  let second := type.wrap (n + 1)
  if !type.fits count then .error (.plain .overflow)
  else if type = ⟨false, .w64⟩ then .ok (reals count (Number.ofInt n) (Number.ofInt second))
  else .ok (integers count n second)

/-- A counter that starts at a float. There are as many numbers as the distance to the one
behind the last tells. -/
def fromFloat (count : Nat) (start : Scalar) : Except Fault (List Scalar) :=
  let second := start.add (.whole 1)
  let distance := ((start.add (.whole count)).sub start).toFloat
  match Number.truncate? distance.ceil with
  | some n =>
    if n.toNat = count then .ok (reals count start.toFloat second.toFloat) else .error .value
  | none => .error .value

/-- The counter that starts at a number, stored in a type. -/
def startingAt (t : StorageType) (count : Nat) (start : Scalar) : Except Fault (List Scalar) :=
  match start with
  | .whole n => fromWhole t count n
  | .bool b => fromWhole t count (if b then 1 else 0)
  | .int type n => do pure ((← fromStored type count n).map (Scalar.store t))
  | start => do pure ((← fromFloat count start).map (Scalar.store t))

end Counter

end ReverseMode
