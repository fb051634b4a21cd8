import Mathlib.Algebra.BigOperators.Ring.Finset
import Mathlib.Data.ZMod.Basic
import ReverseMode.Proofs.Assignment
import ReverseMode.Proofs.Exact

/-!
Elements read in a commutative ring.

Where sums and products of elements are those of a ring, an array is a function from its
positions to the ring. Integers are read as themselves, stored integers of 64 bits as the
integers modulo `2 ^ 64`, in which their arithmetic wraps.
-/

namespace ReverseMode

open scoped Element

/-! ### Positions -/

theorem nodup_positions (shape : List Nat) : (positions shape).Nodup := by
  have placed : ((positions shape).map (offset shape)).Nodup := by
    rw [map_offset_positions]
    exact List.nodup_range
  exact placed.of_map

/-- The positions of an array as a set. -/
def places (shape : List Nat) : Finset (List Nat) := (positions shape).toFinset

@[simp] theorem mem_places {shape pos : List Nat} : pos ∈ places shape ↔ pos ∈ positions shape :=
  List.mem_toFinset

/-- A ring in which some elements are read, those that arrays of the given type hold. -/
structure Element.Reading (α R : Type) [Element α] [CommRing R] (type : StorageType) where
  /-- The elements that stand for a member of the ring. -/
  carrier : α → Prop
  val : α → R
  refusal? {x : α} : carrier x → Element.refusal? x = none
  add {x y : α} : carrier x → carrier y → carrier (x + y) ∧ val (x + y) = val x + val y
  mul {x y : α} : carrier x → carrier y → carrier (x * y) ∧ val (x * y) = val x * val y
  like {x y : α} : carrier x → carrier y → carrier (like x y) ∧ val (like x y) = val y
  store {x : α} : carrier x → carrier (store type x) ∧ val (store type x) = val x
  zero : carrier (Element.store type (whole 0)) ∧ val (Element.store type (whole 0)) = 0
  /-- Runs of elements are added up; there are some, and none is empty. -/
  sum {runs : List (List α)} : runs ≠ [] → (∀ run ∈ runs, run ≠ [] ∧ ∀ x ∈ run, carrier x) →
    carrier (sum runs) ∧ val (sum runs) = (runs.flatten.map val).sum

namespace Element.Reading

variable {α R : Type} [Element α] [CommRing R] {type : StorageType}
variable (ρ : Element.Reading α R type)

/-- Every element of an array is read in the ring. -/
def Holds (t : Tensor α) : Prop := ∀ pos ∈ positions t.shape, ρ.carrier (t.get pos)

/-- What the element at a position stands for. -/
def entry (t : Tensor α) (pos : List Nat) : R := ρ.val (t.get pos)

/-- The products of the elements of two arrays of the same extents, added up. -/
def pairing (t u : Tensor α) : R := ∑ pos ∈ places t.shape, ρ.entry t pos * ρ.entry u pos

variable {ρ} {t u : Tensor α} {shape : List Nat}

theorem holds_ofFn {f : List Nat → α} (all : ∀ pos ∈ positions shape, ρ.carrier (f pos)) :
    ρ.Holds (.ofFn shape f) := by
  intro pos inside
  have inside : pos ∈ positions shape := inside
  rw [Tensor.get_ofFn inside]
  exact all pos inside

theorem entry_ofFn {f : List Nat → α} {pos : List Nat} (inside : pos ∈ positions shape) :
    ρ.entry (.ofFn shape f) pos = ρ.val (f pos) := by
  rw [entry, Tensor.get_ofFn inside]

theorem Holds.mem (holds : ρ.Holds t) {x : α} (mem : x ∈ t.toList) : ρ.carrier x := by
  rw [← Tensor.ofFn_get t] at mem
  have mem : x ∈ ((positions t.shape).map t.get).toArray.toList := mem
  obtain ⟨pos, inside, rfl⟩ := List.mem_map.mp mem
  exact holds pos inside

/-- An array that is read holds no refusal. -/
theorem Holds.proper (holds : ρ.Holds t) : t.Proper := fun _ mem => ρ.refusal? (holds.mem mem)

theorem Holds.sound (holds : ρ.Holds t) : t.sound = .ok t :=
  Tensor.sound_eq_ok.mpr ⟨rfl, holds.proper⟩

/-- A function of elements that keeps what they stand for keeps what an array stands for. -/
theorem Holds.map {f : α → α} (keeps : ∀ {x}, ρ.carrier x → ρ.carrier (f x) ∧ ρ.val (f x) = ρ.val x)
    (holds : ρ.Holds t) : ρ.Holds (t.map f) ∧
      ∀ pos ∈ positions t.shape, ρ.entry (t.map f) pos = ρ.entry t pos := by
  constructor
  · intro pos inside
    have inside : pos ∈ positions t.shape := inside
    rw [Tensor.get_map f inside]
    exact (keeps (holds pos inside)).1
  · intro pos inside
    rw [entry, Tensor.get_map f inside]
    exact (keeps (holds pos inside)).2

/-- An array that is read is stored as it is in a buffer of its extents. -/
theorem Holds.assign (holds : ρ.Holds t) : ∃ y, t.assign type t.shape = .ok y ∧
    y.shape = t.shape ∧ ρ.Holds y ∧ ∀ pos ∈ positions t.shape, ρ.entry y pos = ρ.entry t pos := by
  obtain ⟨stored, keeps⟩ := holds.map (f := Element.store type) ρ.store
  exact ⟨t.map (Element.store type), Tensor.assign_self holds.proper type, rfl, stored, keeps⟩

theorem holds_full {x : α} (read : ρ.carrier x) (shape : List Nat) : ρ.Holds (.full shape x) := by
  intro pos inside
  have inside : pos ∈ positions shape := inside
  rw [Tensor.get_full inside]
  exact read

/-- Zeros have no products. -/
theorem pairing_zeros (shape : List Nat) (d : Tensor α) :
    ρ.pairing (.full shape (Element.store type (Element.whole 0))) d = 0 := by
  refine Finset.sum_eq_zero fun pos inside => ?_
  have inside : pos ∈ positions shape := mem_places.mp inside
  rw [entry, Tensor.get_full inside, ρ.zero.2, zero_mul]

/-- The sum of a nonempty fibre, whether its elements lie side by side or not. -/
theorem total {xs : List α} (some : xs ≠ []) (all : ∀ x ∈ xs, ρ.carrier x) (dense : Bool) :
    ρ.carrier (Fibre.total dense xs) ∧ ρ.val (Fibre.total dense xs) = (xs.map ρ.val).sum := by
  cases dense with
  | true =>
    have sums := ρ.sum (List.cons_ne_nil xs []) (by simpa using ⟨some, all⟩)
    rwa [List.flatten_singleton] at sums
  | false =>
    have singles : xs.map (fun x => [x]) ≠ [] := by simpa using some
    have sums := ρ.sum singles (by simpa using all)
    rwa [← List.flatMap_def, List.flatMap_singleton'] at sums

end Element.Reading

/-! ### Integers -/

/-- Integers stand for themselves, whatever the type. -/
def Element.integers (type : StorageType) : Element.Reading Int Int type where
  carrier _ := True
  val n := n
  refusal? _ := rfl
  add _ _ := ⟨trivial, rfl⟩
  mul _ _ := ⟨trivial, rfl⟩
  like _ _ := ⟨trivial, rfl⟩
  store _ := ⟨trivial, rfl⟩
  zero := ⟨trivial, rfl⟩
  sum {runs} _ _ := ⟨trivial, by rw [List.map_id']; rfl⟩

namespace Scalar

/-- What a stored integer of 64 bits stands for: its value modulo `2 ^ 64`. -/
def residue : Scalar → ZMod (2 ^ 64)
  | .int _ n => n
  | _ => 0

/-- Integers that are stored in 64 bits with a sign. -/
def IsInt64 (x : Scalar) : Prop := ∃ n, x = .int .int64 n

theorem residue_wrap (n : Int) : ((IntegerType.int64.wrap n : Int) : ZMod (2 ^ 64)) = n := by
  rw [ZMod.intCast_eq_intCast_iff]
  exact Int.bmod_emod

theorem within_int64 (f : Binary) (m n : Int) :
    f.within (.int .int64) (.int .int64 m) (.int .int64 n) =
      .int .int64 (IntegerType.int64.wrap
        (f.onInt (IntegerType.int64.wrap m) (IntegerType.int64.wrap n))) := rfl

/-- An operation of integers that respects residues is carried out on residues. -/
theorem apply_int64 {f : Binary} {op : ZMod (2 ^ 64) → ZMod (2 ^ 64) → ZMod (2 ^ 64)}
    (respects : ∀ m n : Int, ((f.onInt m n : Int) : ZMod (2 ^ 64)) = op m n) {x y : Scalar}
    (first : x.IsInt64) (second : y.IsInt64) :
    (f.apply x y).IsInt64 ∧ (f.apply x y).residue = op x.residue y.residue := by
  obtain ⟨m, rfl⟩ := first
  obtain ⟨n, rfl⟩ := second
  have applied : f.apply (.int .int64 m) (.int .int64 n) =
      f.within (.int .int64) (.int .int64 m) (.int .int64 n) := rfl
  rw [applied, within_int64]
  refine ⟨⟨_, rfl⟩, ?_⟩
  rw [residue, residue_wrap, respects, residue_wrap, residue_wrap]
  rfl

theorem add_int64 {x y : Scalar} (first : x.IsInt64) (second : y.IsInt64) :
    (Scalar.add x y).IsInt64 ∧ (Scalar.add x y).residue = x.residue + y.residue :=
  apply_int64 (f := addition) (fun m n => Int.cast_add m n) first second

theorem mul_int64 {x y : Scalar} (first : x.IsInt64) (second : y.IsInt64) :
    (Scalar.mul x y).IsInt64 ∧ (Scalar.mul x y).residue = x.residue * y.residue :=
  apply_int64 (f := multiplication) (fun m n => Int.cast_mul m n) first second

theorem store_int64 {x : Scalar} (stored : x.IsInt64) :
    (x.store (.int .int64)).IsInt64 ∧ (x.store (.int .int64)).residue = x.residue := by
  obtain ⟨n, rfl⟩ := stored
  exact ⟨⟨_, rfl⟩, residue_wrap n⟩

/-- Adding from the left adds up what the numbers stand for. -/
theorem foldl_int64 {β : Type} {f : Scalar → β → Scalar} {amount : β → ZMod (2 ^ 64)} {bs : List β}
    (adds : ∀ x, x.IsInt64 → ∀ b ∈ bs, (f x b).IsInt64 ∧ (f x b).residue = x.residue + amount b)
    {x : Scalar} (start : x.IsInt64) :
    (bs.foldl f x).IsInt64 ∧ (bs.foldl f x).residue = x.residue + (bs.map amount).sum := by
  induction bs generalizing x with
  | nil => exact ⟨start, by simp⟩
  | cons b bs ih =>
    obtain ⟨next, sum⟩ := adds x start b (by simp)
    obtain ⟨last, total⟩ := ih (fun x stored b mem => adds x stored b (by simp [mem])) next
    refine ⟨last, ?_⟩
    rw [List.foldl_cons, total, sum, List.map_cons, List.sum_cons, add_assoc]

theorem zero_int64 : ((whole 0).store (.int .int64)).IsInt64 ∧
    ((whole 0).store (.int .int64)).residue = 0 := ⟨⟨_, rfl⟩, Int.cast_zero⟩

theorem totalWithin_int64 {xs : List Scalar} (all : ∀ x ∈ xs, x.IsInt64) :
    (totalWithin (.int .int64) xs).IsInt64 ∧
      (totalWithin (.int .int64) xs).residue = (xs.map residue).sum := by
  obtain ⟨start, none⟩ := zero_int64
  have adds : ∀ x, x.IsInt64 → ∀ y ∈ xs, (addition.within (.int .int64) x y).IsInt64 ∧
      (addition.within (.int .int64) x y).residue = x.residue + y.residue := by
    rintro _ ⟨m, rfl⟩ y mem
    obtain ⟨n, rfl⟩ := all y mem
    exact add_int64 ⟨m, rfl⟩ ⟨n, rfl⟩
  obtain ⟨stored, total⟩ := foldl_int64 adds start
  exact ⟨stored, by rw [totalWithin, total, none, zero_add]⟩

theorem addRun_int64 {run : List Scalar} (all : ∀ x ∈ run, x.IsInt64) {x : Scalar}
    (stored : x.IsInt64) : (addRun (.int .int64) x run).IsInt64 ∧
      (addRun (.int .int64) x run).residue = x.residue + (run.map residue).sum := by
  obtain ⟨within, total⟩ := totalWithin_int64 all
  obtain ⟨m, rfl⟩ := stored
  obtain ⟨n, made⟩ := within
  have runs : addRun (.int .int64) (.int .int64 m) run =
      (addition.within (.int .int64) (.int .int64 m)
        (totalWithin (.int .int64) run)).store (.int .int64) := rfl
  obtain ⟨sum, added⟩ := add_int64 ⟨m, rfl⟩ ⟨n, rfl⟩
  obtain ⟨kept, same⟩ := store_int64 sum
  rw [runs, ← total, made]
  exact ⟨kept, same.trans added⟩

theorem sum_int64 {runs : List (List Scalar)} (some : runs ≠ [])
    (all : ∀ run ∈ runs, run ≠ [] ∧ ∀ x ∈ run, x.IsInt64) :
    (Scalar.sum runs).IsInt64 ∧ (Scalar.sum runs).residue = (runs.flatten.map residue).sum := by
  have each : ∀ x ∈ runs.flatten, x.IsInt64 := by
    intro x mem
    obtain ⟨run, inside, mem⟩ := List.mem_flatten.mp mem
    exact (all run inside).2 x mem
  have unrefused : refusalIn? runs.flatten = none := by
    refine List.findSome?_eq_none_iff.mpr fun x mem => ?_
    obtain ⟨n, rfl⟩ := each x mem
    rfl
  have opened : Scalar.sum runs =
      runs.foldl (addRun (.int .int64)) ((whole 0).store (.int .int64)) := by
    cases elements : runs.flatten with
    | nil =>
      obtain ⟨run, rest, rfl⟩ := List.exists_cons_of_ne_nil some
      rw [List.flatten_cons, List.append_eq_nil_iff] at elements
      exact absurd elements.1 (all run (by simp)).1
    | cons x rest =>
      obtain ⟨n, rfl⟩ := each x (by simp [elements])
      rw [elements] at unrefused
      rw [Scalar.sum, elements]
      simp only [unrefused]
      rfl
  obtain ⟨start, none⟩ := zero_int64
  have adds : ∀ x, x.IsInt64 → ∀ run ∈ runs, (addRun (.int .int64) x run).IsInt64 ∧
      (addRun (.int .int64) x run).residue = x.residue + (run.map residue).sum :=
    fun x kept run mem => addRun_int64 (all run mem).2 kept
  obtain ⟨stored, total⟩ := foldl_int64 adds start
  rw [opened]
  refine ⟨stored, ?_⟩
  rw [total, none, zero_add, List.map_flatten, List.sum_flatten, List.map_map]
  rfl

end Scalar

/-- Stored integers of 64 bits are read modulo `2 ^ 64`. -/
def Element.int64 : Element.Reading Scalar (ZMod (2 ^ 64)) (.int .int64) where
  carrier := Scalar.IsInt64
  val := Scalar.residue
  refusal? := by
    rintro _ ⟨n, rfl⟩
    rfl
  add := Scalar.add_int64
  mul := Scalar.mul_int64
  like := by
    rintro _ y ⟨m, rfl⟩ second
    exact Scalar.store_int64 second
  store := Scalar.store_int64
  zero := Scalar.zero_int64
  sum := Scalar.sum_int64

end ReverseMode
