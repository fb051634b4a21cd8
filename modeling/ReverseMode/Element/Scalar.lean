import ReverseMode.Element.Kind
import ReverseMode.Element.Half
import ReverseMode.Fault

/-!
Numbers with their storage type, and arithmetic on them.

A number either is stored in a type or is a literal. Two stored numbers combine in
the join of their types. A literal takes the type of what it meets: an integer
literal any number type, a real literal any float type; next to a type it cannot
take it counts as `int64` or `float64`.

Integers wrap. Halves are computed as singles and rounded after every operation.

An operation that has no meaning on its operands gives a refusal. Refusals spread through
arithmetic, so that an array computed with one cannot be stored.
-/

namespace ReverseMode

open ReverseMode.Number

/-- A number: stored in a type, a literal that has none yet, or a refusal. -/
inductive Scalar where
  | bool (b : Bool)
  | int (t : IntegerType) (n : Int)
  | float16 (x : Float32)
  | float32 (x : Float32)
  | float64 (x : Float)
  | whole (n : Int)
  | real (x : Float)
  /-- What an operation gives that has no meaning on its operands. -/
  | refused (kind : FaultKind)
deriving Repr, Inhabited

namespace Scalar

/-- Why a number is none, if it is a refusal. -/
def refusal? : Scalar → Option FaultKind
  | refused k => some k
  | _ => none

/-- The storage type, none for a literal. -/
def type? : Scalar → Option StorageType
  | bool _ => some .bool
  | int t _ => some (.int t)
  | float16 _ => some .float16
  | float32 _ => some .float32
  | float64 _ => some .float64
  | whole _ | real _ | refused _ => none

/-- The type an integer literal takes beside a stored number. -/
def wholeBeside : StorageType → StorageType
  | .bool => .int .int64
  | t => t

/-- The type a real literal takes beside a stored number. -/
def realBeside : StorageType → StorageType
  | .bool | .int _ => .float64
  | t => t

/-- The type two numbers are combined in. -/
def common (a b : Scalar) : StorageType :=
  match a.type?, b.type?, a, b with
  | some s, some t, _, _ => s.join t
  | some s, none, _, .real _ => realBeside s
  | some s, none, _, _ => wholeBeside s
  | none, some t, .real _, _ => realBeside t
  | none, some t, _, _ => wholeBeside t
  | none, none, .whole _, .whole _ => .int .int64
  | none, none, _, _ => .float64

/-- The type a number has on its own. -/
def ownType (a : Scalar) : StorageType :=
  match a with
  | whole _ => .int .int64
  | real _ => .float64
  | bool _ => .bool
  | int t _ => .int t
  | float16 _ => .float16
  | float32 _ => .float32
  | float64 _ | refused _ => .float64

/-- The value as a double. -/
def toFloat : Scalar → Float
  | bool b => if b then 1.0 else 0.0
  | int _ n | whole n => Number.ofInt n
  | float16 x | float32 x => x.toFloat
  | float64 x | real x => x
  | refused _ => 0.0 / 0.0

/-- The value as a single. -/
def toSingle : Scalar → Float32
  | bool b => if b then 1.0 else 0.0
  | int _ n | whole n =>
    let magnitude := Float32.ofNat n.natAbs
    if n < 0 then -magnitude else magnitude
  | float16 x | float32 x => x
  | float64 x | real x => x.toFloat32
  | refused _ => 0.0 / 0.0

/-- The value as a half. -/
def toHalf : Scalar → Float32
  | float16 x => x
  | float64 x | real x => Half.round x
  | a => Half.roundSingle a.toSingle

/-- A double as a stored integer: truncated, and the least value of the type when it
does not fit. Types narrower than 32 bits are cut from a 32 bit integer. -/
def storeFloat (t : IntegerType) (x : Float) : Int :=
  let through : IntegerType :=
    match t.width with
    | .w64 => .int64
    | .w32 => if t.signed then .int32 else .int64
    | _ => .int32
  let least := through.wrap (Int.pow 2 (through.width.bits - 1))
  match truncate? x with
  | some n => t.wrap (if through.fits n then n else least)
  | none => t.wrap least

/-- The value as an integer of a type. -/
def toInt (t : IntegerType) : Scalar → Int
  | bool b => if b then 1 else 0
  | int _ n | whole n => t.wrap n
  | float16 x | float32 x => storeFloat t x.toFloat
  | float64 x | real x => storeFloat t x
  | refused _ => 0

/-- The truth value: anything but zero is true. -/
def truth : Scalar → Bool
  | bool b => b
  | int _ n | whole n => n != 0
  | float16 x | float32 x => x != 0.0
  | float64 x | real x => x != 0.0
  | refused _ => false

/-- The number stored in a type; a refusal stays one. -/
def store (t : StorageType) (a : Scalar) : Scalar :=
  match a.refusal?, t with
  | some k, _ => refused k
  | none, .bool => .bool a.truth
  | none, .int t => .int t (a.toInt t)
  | none, .float16 => .float16 a.toHalf
  | none, .float32 => .float32 a.toSingle
  | none, .float64 => .float64 a.toFloat

/-- A number in the place of a stored one. A number of a wider kind is refused. -/
def replace (old new : Scalar) : Scalar :=
  if old.ownType.admits new.ownType then new.store old.ownType
  else refused (new.refusal?.getD .operation)

/-- One operation on two numbers, given on each kind of value. -/
structure Binary where
  onBool : Bool → Bool → Bool
  onInt : Int → Int → Int
  onSingle : Float32 → Float32 → Float32
  onDouble : Float → Float → Float

/-- The operation carried out in a given type. -/
def Binary.within (f : Binary) (t : StorageType) (a b : Scalar) : Scalar :=
  match t with
  | .bool => .bool (f.onBool a.truth b.truth)
  | .int t => .int t (t.wrap (f.onInt (a.toInt t) (b.toInt t)))
  | .float16 => .float16 (Half.roundSingle (f.onSingle a.toHalf b.toHalf))
  | .float32 => .float32 (f.onSingle a.toSingle b.toSingle)
  | .float64 => .float64 (f.onDouble a.toFloat b.toFloat)

/-- Whether a number can be taken to a type: a literal integer has to fit it. -/
def reaches (t : StorageType) (a : Scalar) : Bool :=
  match t, a with
  | .int t, whole n => t.fits n
  | .bool, _ => true
  | _, whole n => (Number.ofInt? n).isSome
  | _, _ => true

/-- The operation on two literals, which gives a literal. An integer that meets a real
number has to fit a double. -/
def Binary.literal (f : Binary) (a b : Scalar) : Scalar :=
  match a, b with
  | whole m, whole n => whole (f.onInt m n)
  | a, b =>
    if a.reaches .float64 && b.reaches .float64 then real (f.onDouble a.toFloat b.toFloat)
    else refused .overflow

/-- A result made from two numbers; a refusal among them stays one. -/
def unlessRefused (a b result : Scalar) : Scalar :=
  match a.refusal?, b.refusal? with
  | some k, _ | none, some k => refused k
  | none, none => result

/-- The operation carried out in the common type; literals stay literals. -/
def Binary.apply (f : Binary) (a b : Scalar) : Scalar :=
  let t := common a b
  unlessRefused a b
    (if a.type?.isNone && b.type?.isNone then f.literal a b
    else if a.reaches t && b.reaches t then f.within t a b
    else refused .overflow)

/-- The larger one, and the first of two equal ones; a NaN on either side wins. -/
def maxDouble (x y : Float) : Float := if x ≥ y || x.isNaN then x else y

def minDouble (x y : Float) : Float := if x ≤ y || x.isNaN then x else y

def maxSingle (x y : Float32) : Float32 := if x ≥ y || x.isNaN then x else y

def minSingle (x y : Float32) : Float32 := if x ≤ y || x.isNaN then x else y

def addition : Binary := ⟨(· || ·), (· + ·), (· + ·), (· + ·)⟩

def subtraction : Binary := ⟨xor, (· - ·), (· - ·), (· - ·)⟩

def multiplication : Binary := ⟨(· && ·), (· * ·), (· * ·), (· * ·)⟩

def division : Binary := ⟨fun a _ => a, fun a _ => a, (· / ·), (· / ·)⟩

def maximum : Binary := ⟨(· || ·), max, maxSingle, maxDouble⟩

def minimum : Binary := ⟨(· && ·), min, minSingle, minDouble⟩

def add : Scalar → Scalar → Scalar := addition.apply

/-- The difference; truth values have none. -/
def sub (a b : Scalar) : Scalar :=
  match a, b with
  | bool _, bool _ => refused .type
  | a, b => subtraction.apply a b

def mul : Scalar → Scalar → Scalar := multiplication.apply

/-- The larger number. Of two zeros that differ in sign halves give the first one, other
floats the second one. -/
def max (a b : Scalar) : Scalar :=
  if common a b = .float16 then maximum.apply a b else maximum.apply b a

/-- The smaller number, with the same choice between zeros. -/
def min (a b : Scalar) : Scalar :=
  if common a b = .float16 then minimum.apply a b else minimum.apply b a

/-- A number moved between two bounds; one that equals a bound stays as it is. -/
def clamp (low high a : Scalar) : Scalar := minimum.apply (maximum.apply a low) high

/-- The float type that quotients of a type are computed in. -/
def quotientType : StorageType → StorageType
  | .bool | .int _ => .float64
  | t => t

/-- The quotient of two literals, of which the second one may not be zero. -/
def literalQuotient (a b : Scalar) : Scalar :=
  if !b.truth then refused .zeroDivision
  else if a.reaches .float64 && b.reaches .float64 then real (a.toFloat / b.toFloat)
  else refused .overflow

/-- The quotient, in a float type. -/
def div (a b : Scalar) : Scalar :=
  let t := quotientType (common a b)
  unlessRefused a b
    (if a.type?.isNone && b.type?.isNone then literalQuotient a b
    else if a.reaches t && b.reaches t then division.within t a b
    else refused .overflow)

/-- The float type that functions of a type are computed in. -/
def functionType : StorageType → StorageType
  | .bool => .float16
  | .int t => StorageType.floatFor t.width .float16
  | t => t

/-- A real function applied in the float type of the argument. -/
def function (f : Float → Float) (a : Scalar) : Scalar :=
  match a.refusal?, functionType a.ownType with
  | some k, _ => refused k
  | none, .float16 => .float16 (Half.roundSingle (f a.toHalf.toFloat).toFloat32)
  | none, .float32 => .float32 (f a.toSingle.toFloat).toFloat32
  | none, _ => .float64 (f a.toFloat)

/-- A power with a natural exponent. -/
def pow (a : Scalar) (n : Nat) : Scalar :=
  match a with
  | whole m => whole (Int.pow m n)
  | int t m => int t (t.wrap (Int.pow m n))
  | bool b => int .int64 (if b || n == 0 then 1 else 0)
  | refused k => refused k
  | real x => real (x.pow (Float.ofNat n))
  | float64 x => float64 (x.pow (Float.ofNat n))
  | float32 x => float32 (x.toFloat.pow (Float.ofNat n)).toFloat32
  | float16 x => float16 (Half.roundSingle (x.toFloat.pow (Float.ofNat n)).toFloat32)

/-- `log (1 + x)` without loss for small `x`: the rounding error of `1 + x` cancels. -/
def log1p (x : Float) : Float :=
  let u := 1.0 + x
  if u == 1.0 then x
  else if u.isInf then u
  else u.log * x / (u - 1.0)

/-- `log (exp x + exp y)` without overflow. -/
def logAddExp (x y : Float) : Float :=
  if x == y then x + Float.log 2.0
  else
    let gap := x - y
    if gap > 0.0 then x + log1p (-gap).exp
    else if gap ≤ 0.0 then y + log1p gap.exp
    else gap

/-- `logAddExp` in the common float type. -/
def logaddexp (a b : Scalar) : Scalar :=
  unlessRefused a b
    (match functionType (common a b) with
    | .float16 =>
      .float16 (Half.roundSingle (logAddExp a.toHalf.toFloat b.toHalf.toFloat).toFloat32)
    | .float32 => .float32 (logAddExp a.toSingle.toFloat b.toSingle.toFloat).toFloat32
    | _ => .float64 (logAddExp a.toFloat b.toFloat))

/-- The negated number; an unsigned one wraps, and a truth value has none. -/
def neg : Scalar → Scalar
  | bool _ => refused .type
  | refused k => refused k
  | int t n => int t (t.wrap (-n))
  | whole n => whole (-n)
  | float16 x => float16 (-x)
  | float32 x => float32 (-x)
  | float64 x => float64 (-x)
  | real x => real (-x)

def abs : Scalar → Scalar
  | bool b => bool b
  | refused k => refused k
  | int t n => int t (t.wrap n.natAbs)
  | whole n => whole n.natAbs
  | float16 x => float16 x.abs
  | float32 x => float32 x.abs
  | float64 x => float64 x.abs
  | real x => real x.abs

/-- The sign of a double: `1`, `-1` or `0`, and NaN for NaN. -/
def signDouble (x : Float) : Float :=
  if x > 0.0 then 1.0 else if x < 0.0 then -1.0 else if x == 0.0 then 0.0 else x

/-- The sign as a number of the same type; a truth value has none. -/
def sign : Scalar → Scalar
  | bool _ => refused .operation
  | refused k => refused k
  | int t n => int t n.sign
  | whole n => whole n.sign
  | float16 x => float16 (signDouble x.toFloat).toFloat32
  | float32 x => float32 (signDouble x.toFloat).toFloat32
  | float64 x => float64 (signDouble x)
  | real x => real (signDouble x)

/-- The value as an integer of a type; a literal keeps its value. -/
def exactIn (t : IntegerType) : Scalar → Int
  | whole n => n
  | a => a.toInt t

/-- A comparison of two numbers, made in their common type. -/
def compare (onInt : Int → Int → Bool) (onSingle : Float32 → Float32 → Bool)
    (onDouble : Float → Float → Bool) (a b : Scalar) : Bool :=
  match common a b with
  | .bool => onInt (a.toInt .int64) (b.toInt .int64)
  | .int t => onInt (a.exactIn t) (b.exactIn t)
  | .float16 => onSingle a.toHalf b.toHalf
  | .float32 => onSingle a.toSingle b.toSingle
  | .float64 => onDouble a.toFloat b.toFloat

def lt : Scalar → Scalar → Bool :=
  compare (fun m n => m < n) (fun x y => x < y) fun x y => x < y

def le : Scalar → Scalar → Bool :=
  compare (fun m n => m ≤ n) (fun x y => x ≤ y) fun x y => x ≤ y

/-- Numerical equality: a NaN equals nothing, the two zeros are equal. -/
def eq : Scalar → Scalar → Bool :=
  compare (fun m n => m = n) (fun x y => x == y) fun x y => x == y

/-- The type in which numbers of a type are added up: integers and truth values in the
widest integer type of their sign. -/
def sumType : StorageType → StorageType
  | .bool => .int .int64
  | .int t => .int ⟨t.signed, .w64⟩
  | t => t

/-- Combine a list from the left in a type; the first element starts the result. -/
def reduceWithin (f : Binary) (t : StorageType) : List Scalar → Option Scalar
  | [] => none
  | x :: rest => some (rest.foldl (f.within t) (x.store t))

/-- Numbers added up in a type, from its zero on: negative zeros sum to the positive one. -/
def totalWithin (t : StorageType) (xs : List Scalar) : Scalar :=
  xs.foldl (addition.within t) ((whole 0).store t)

/-- The first refusal among some numbers. -/
def refusalIn? (xs : List Scalar) : Option FaultKind := xs.findSome? refusal?

/-- The type that runs of numbers of a type are added up in: halves as singles. -/
def runType (t : StorageType) : StorageType := if t = .float16 then .float32 else t

/-- A total with the next run added, rounded to the type of the total. -/
def addRun (t : StorageType) (total : Scalar) (run : List Scalar) : Scalar :=
  (addition.within (runType t) total (totalWithin (runType t) run)).store t

/-- The sum of numbers of one type that come in runs of numbers side by side. Halves are
rounded after every run. -/
def sum (runs : List (List Scalar)) : Scalar :=
  match runs.flatten with
  | [] => .whole 0
  | x :: rest =>
    match refusalIn? (x :: rest) with
    | some k => refused k
    | none =>
      let t := sumType x.ownType
      runs.foldl (addRun t) ((whole 0).store t)

/-- The product of numbers of one type. Halves that lie side by side (`dense`) are
multiplied as singles and rounded once. -/
def prod (dense : Bool) (xs : List Scalar) : Scalar :=
  match xs with
  | [] => .whole 1
  | x :: rest =>
    let t := sumType x.ownType
    match refusalIn? (x :: rest), reduceWithin multiplication (if dense then runType t else t) xs with
    | some k, _ => refused k
    | none, some total => total.store t
    | none, none => .whole 1

/-- The arithmetic mean. Halves are added and divided as singles, integers as doubles. -/
def mean (xs : List Scalar) : Scalar :=
  match xs with
  | [] => .float64 (0.0 / 0.0)
  | x :: _ =>
    let (through, final) : StorageType × StorageType :=
      match x.ownType with
      | .float16 => (.float32, .float16)
      | .float32 => (.float32, .float32)
      | _ => (.float64, .float64)
    match refusalIn? xs with
    | some k => refused k
    | none => ((totalWithin through xs).div (.whole xs.length)).store final

/-- The sum of products of two lists. Halves are accumulated as singles. -/
def dot (xs ys : List Scalar) : Scalar :=
  match xs, ys with
  | x :: _, y :: _ =>
    let t := common x y
    let products := List.zipWith (multiplication.within (runType t)) xs ys
    match refusalIn? (xs ++ ys) with
    | some k => refused k
    | none => (totalWithin (runType t) products).store t
  | _, _ => .whole 0

/-- A number as an array position. -/
def position (a : Scalar) : Int := a.toInt .int64

/-- A number as an array position, if every number of its type is one. -/
def position? (a : Scalar) : Option Int :=
  match a with
  | bool _ => some a.position
  | int t n => if t.signed || t.width != .w64 then some n else none
  | _ => none

end Scalar

end ReverseMode
