import ReverseMode.Element.Algebra
import ReverseMode.Shape.Broadcast

/-!
Tensors: extents with their elements in row-major order.

`positions` lists the positions of an array in that order and `offset` says where a
position is found; `ofFn` builds a tensor from a function on positions and `get`
reads one position. The operations on tensors are written with these two.
-/

namespace ReverseMode

/-- The positions of an array, the last axis running fastest. -/
def positions : List Nat → List (List Nat)
  | [] => [[]]
  | e :: rest => (List.range e).flatMap fun i => (positions rest).map (i :: ·)

/-- Where the element of a position is found. -/
def offset : List Nat → List Nat → Nat
  | _ :: rest, i :: pos => i * volume rest + offset rest pos
  | _, _ => 0

theorem length_positions (extents : List Nat) : (positions extents).length = volume extents := by
  induction extents with
  | nil => rfl
  | cons e rest ih =>
    have : ∀ n : Nat, ((List.range n).flatMap fun i => (positions rest).map (i :: ·)).length
        = n * volume rest := by
      intro n
      induction n with
      | zero => simp
      | succ n step => simp [List.range_succ, step, ih, Nat.succ_mul]
    simpa [positions, volume] using this e

/-- An array: its extents and its elements in row-major order. -/
structure Tensor (α : Type) where
  shape : List Nat
  data : Array α
  size_eq : data.size = volume shape
deriving Repr

namespace Tensor

variable {α β γ : Type}

/-- The tensor with the given element at every position. -/
def ofFn (shape : List Nat) (f : List Nat → α) : Tensor α :=
  ⟨shape, ((positions shape).map f).toArray, by simp [length_positions]⟩

/-- The tensor whose elements are all the same. -/
def full (shape : List Nat) (x : α) : Tensor α :=
  ⟨shape, Array.replicate (volume shape) x, by simp⟩

/-- The tensor without axes. -/
def scalar (x : α) : Tensor α :=
  ⟨[], #[x], rfl⟩

/-- The tensor of these elements, if there are as many as the extents need. -/
def ofArray? (shape : List Nat) (data : Array α) : Option (Tensor α) :=
  if h : data.size = volume shape then some ⟨shape, data, h⟩ else none

instance [Inhabited α] : Inhabited (Tensor α) := ⟨scalar default⟩

def rank (t : Tensor α) : Nat := t.shape.length

def size (t : Tensor α) : Nat := t.data.size

/-- The extent of an axis position; one beyond the last axis. -/
def extent (t : Tensor α) (i : Nat) : Nat := t.shape.getD i 1

/-- The element at a position. -/
def get [Inhabited α] (t : Tensor α) (pos : List Nat) : α :=
  t.data.getD (offset t.shape pos) default

/-- The elements in row-major order. -/
def toList (t : Tensor α) : List α := t.data.toList

/-- A function applied to every element. -/
def map (f : α → β) (t : Tensor α) : Tensor β :=
  ⟨t.shape, t.data.map f, by simp [t.size_eq]⟩

/-- Elements of two tensors of one shape combined. -/
def zipWith [Inhabited α] [Inhabited β] (f : α → β → γ) (a : Tensor α) (b : Tensor β) :
    Tensor γ :=
  ofFn a.shape fun pos => f (a.get pos) (b.get pos)

/-- The position of an array of extents `shape` that is read for a position of a larger
array: axes in front are left out, axes of extent one are read at their only place. -/
def clamp (shape pos : List Nat) : List Nat :=
  List.zipWith (fun e i => if e = 1 then 0 else i) shape (pos.drop (pos.length - shape.length))

/-- The element read for a position of a larger array. -/
def read [Inhabited α] (t : Tensor α) (pos : List Nat) : α :=
  t.get (clamp t.shape pos)

/-- The tensor read as one of larger extents. -/
def expand [Inhabited α] (t : Tensor α) (shape : List Nat) : Tensor α :=
  ofFn shape t.read

/-- Two tensors combined element by element in their common extents. -/
def combine [Inhabited α] [Inhabited β] (f : α → β → γ) (a : Tensor α) (b : Tensor β) :
    Except Fault (Tensor γ) :=
  match broadcast? [a.shape, b.shape] with
  | some shape => .ok (ofFn shape fun pos => f (a.read pos) (b.read pos))
  | none => .error .value

/-- The same elements under other extents. -/
def reshape (t : Tensor α) (shape : List Nat) : Except Fault (Tensor α) :=
  if h : volume t.shape = volume shape then .ok ⟨shape, t.data, t.size_eq.trans h⟩
  else .error .value

/-- Extents without the ones in front that a target of `rank` axes has no place for. -/
def dropOnes (rank : Nat) : List Nat → List Nat
  | 1 :: rest => if rank < rest.length + 1 then dropOnes rank rest else 1 :: rest
  | extents => extents

theorem volume_dropOnes (rank : Nat) (extents : List Nat) :
    volume (dropOnes rank extents) = volume extents := by
  induction extents with
  | nil => rfl
  | cons e rest ih =>
    unfold dropOnes
    split
    · rename_i h
      cases h
      split
      · simpa [volume] using ih
      · rfl
    · rfl

/-- The tensor read as one of the given extents, which have to be reached by broadcasting. -/
def broadcastTo [Inhabited α] (shape : List Nat) (t : Tensor α) : Except Fault (Tensor α) :=
  if broadcastsTo t.shape shape then .ok (t.expand shape) else .error .value

/-- The tensor that fills an array of the given extents, read with broadcasting. Axes in
front that have extent one and no place in the array are left out. -/
def spread [Inhabited α] (shape : List Nat) (t : Tensor α) : Except Fault (Tensor α) :=
  let source : Tensor α :=
    ⟨dropOnes shape.length t.shape, t.data, t.size_eq.trans (volume_dropOnes _ _).symm⟩
  if source.shape = shape then .ok source else source.broadcastTo shape

section Sound

variable [Element α]

/-- Why an array is none: the first refusal among its elements. -/
def refusal? (t : Tensor α) : Option Fault :=
  (t.data.findSome? Element.refusal?).map Fault.plain

/-- An array without refusals. -/
def sound (t : Tensor α) : Except Fault (Tensor α) :=
  match t.refusal? with
  | some f => .error f
  | none => .ok t

end Sound

end Tensor

end ReverseMode
