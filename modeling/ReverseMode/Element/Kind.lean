/-!
Element types of arrays and the storage types of numbers.

A node has one of six element types. Numbers that callers hand in may be stored
in further integer types, which arithmetic has to know how to promote. Types of
one kind combine to the widest of them.
-/

namespace ReverseMode

/-- The element types a node may have. -/
inductive ElementType where
  | float64 | float32 | float16 | int64 | int32 | bool
deriving DecidableEq, Repr, Inhabited

/-- The three kinds of element types, which never mix. -/
inductive ElementKind where
  | float | int | bool
deriving DecidableEq, Repr, Inhabited

namespace ElementType

/-- Every element type. -/
def all : List ElementType := [float64, float32, float16, int64, int32, bool]

/-- The name of an element type. -/
def name : ElementType → String
  | float64 => "float64"
  | float32 => "float32"
  | float16 => "float16"
  | int64 => "int64"
  | int32 => "int32"
  | bool => "bool"

/-- The element type of this name. -/
def ofName? (s : String) : Option ElementType :=
  all.find? fun t => t.name = s

def kind : ElementType → ElementKind
  | float64 | float32 | float16 => .float
  | int64 | int32 => .int
  | bool => .bool

/-- Order of the types of one kind by width. -/
def rank : ElementType → Nat
  | float64 => 2
  | float32 => 1
  | float16 => 0
  | int64 => 1
  | int32 => 0
  | bool => 0

/-- Bytes that one element takes. -/
def bytes : ElementType → Nat
  | float64 | int64 => 8
  | float32 | int32 => 4
  | float16 => 2
  | bool => 1

def isFloat (t : ElementType) : Bool := t.kind = .float

def isInt (t : ElementType) : Bool := t.kind = .int

/-- The element type of index arrays. -/
def index : ElementType := .int32

/-- The wider of two types of one kind; the first one if they are equally wide. -/
def wider (s t : ElementType) : ElementType :=
  if s.rank < t.rank then t else s

end ElementType

/-- The name of a kind. -/
def ElementKind.name : ElementKind → String
  | float => "float"
  | int => "int"
  | bool => "bool"

/-- Widths of stored integers. -/
inductive Width where
  | w8 | w16 | w32 | w64
deriving DecidableEq, Repr, Inhabited

def Width.bits : Width → Nat
  | w8 => 8
  | w16 => 16
  | w32 => 32
  | w64 => 64

/-- The next larger width, if there is one. -/
def Width.next? : Width → Option Width
  | w8 => some w16
  | w16 => some w32
  | w32 => some w64
  | w64 => none

/-- A stored integer type. -/
structure IntegerType where
  signed : Bool
  width : Width
deriving DecidableEq, Repr, Inhabited

namespace IntegerType

def int32 : IntegerType := ⟨true, .w32⟩

def int64 : IntegerType := ⟨true, .w64⟩

def name (t : IntegerType) : String :=
  (if t.signed then "int" else "uint") ++ toString t.width.bits

/-- The value that an integer has after it is stored: reduced modulo the width. -/
def wrap (t : IntegerType) (n : Int) : Int :=
  if t.signed then n.bmod (Nat.pow 2 t.width.bits) else n % (Nat.pow 2 t.width.bits : Nat)

/-- Whether an integer is stored without change. -/
def fits (t : IntegerType) (n : Int) : Bool := t.wrap n = n

end IntegerType

/-- The types that numbers are stored in. -/
inductive StorageType where
  | bool
  | int (t : IntegerType)
  | float16 | float32 | float64
deriving DecidableEq, Repr, Inhabited

namespace StorageType

def name : StorageType → String
  | bool => "bool"
  | int t => t.name
  | float16 => "float16"
  | float32 => "float32"
  | float64 => "float64"

/-- Bytes that one number takes. -/
def bytes : StorageType → Nat
  | bool => 1
  | int t => t.width.bits / 8
  | float16 => 2
  | float32 => 4
  | float64 => 8

/-- Every storage type. -/
def all : List StorageType :=
  [bool, float16, float32, float64] ++
    ([true, false].flatMap fun signed => [Width.w8, .w16, .w32, .w64].map fun w => int ⟨signed, w⟩)

/-- The other names that a storage type goes by. -/
def aliases : StorageType → List String
  | bool => ["?", "b1", "bool_"]
  | float16 => ["f2", "e", "half"]
  | float32 => ["f4", "f", "single"]
  | float64 => ["f8", "d", "double", "float"]
  | int ⟨true, .w8⟩ => ["i1", "b", "byte"]
  | int ⟨true, .w16⟩ => ["i2", "h", "short"]
  | int ⟨true, .w32⟩ => ["i4", "i", "intc"]
  | int ⟨true, .w64⟩ => ["i8", "l", "q", "p", "int", "int_", "intp", "long", "longlong"]
  | int ⟨false, .w8⟩ => ["u1", "B", "ubyte"]
  | int ⟨false, .w16⟩ => ["u2", "H", "ushort"]
  | int ⟨false, .w32⟩ => ["u4", "I", "uintc"]
  | int ⟨false, .w64⟩ => ["u8", "L", "Q", "P", "uint", "uintp", "ulong", "ulonglong"]

/-- The storage type of this name. -/
def ofName? (s : String) : Option StorageType :=
  all.find? fun t => t.name = s || t.aliases.contains s

/-- The float type that holds every value of an integer type it is combined with. -/
def floatFor : Width → StorageType → StorageType
  | .w8, f => f
  | .w16, float16 => float32
  | .w16, f => f
  | _, _ => float64

/-- The integer type that two integer types are combined in, or `float64` if there is none. -/
def joinIntegers (s t : IntegerType) : StorageType :=
  if s.signed = t.signed then
    if s.width.bits < t.width.bits then int t else int s
  else
    let (signed, unsigned) := if s.signed then (s, t) else (t, s)
    if unsigned.width.bits < signed.width.bits then int signed
    else match unsigned.width.next? with
      | some w => int ⟨true, w⟩
      | none => float64

/-- The type that numbers of two types are combined in. -/
def join : StorageType → StorageType → StorageType
  | bool, t => t
  | s, bool => s
  | int s, int t => joinIntegers s t
  | int s, f => floatFor s.width f
  | f, int t => floatFor t.width f
  | float64, _ => float64
  | _, float64 => float64
  | float32, _ => float32
  | _, float32 => float32
  | float16, float16 => float16

/-- Order of the kinds of numbers: truth values, unsigned and signed integers, floats. -/
def breadth : StorageType → Nat
  | bool => 0
  | int t => if t.signed then 2 else 1
  | float16 | float32 | float64 => 3

/-- Whether numbers of another type may be put in the place of numbers of this one: their
kind may not be wider. -/
def admits (held given : StorageType) : Bool := given.breadth ≤ held.breadth

end StorageType

/-- The storage type of an element type. -/
def ElementType.storage : ElementType → StorageType
  | .float64 => .float64
  | .float32 => .float32
  | .float16 => .float16
  | .int64 => .int .int64
  | .int32 => .int .int32
  | .bool => .bool

end ReverseMode
