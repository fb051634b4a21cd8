import Mathlib.Data.Int.ModEq
import ReverseMode.Proofs.ArrayTypes
import ReverseMode.Proofs.Matrices
import ReverseMode.Proofs.WholeFloats

/-!
Arrays of integers.

Stored integers wrap, so that sums, differences, products and matrix products of them are the exact
ones modulo a power of two, whatever overflows on the way. A number that is folded into an operator
of one input takes them through doubles, and so does the factor of a matrix product.
-/

namespace ReverseMode

open scoped Element Scalar

/-! ### Wrapping -/

namespace IntegerType

variable {t : IntegerType} {m n : Int}

/-- How many integers a type has. -/
def modulus (t : IntegerType) : Int := (Nat.pow 2 t.width.bits : Nat)

theorem wrap_modEq (t : IntegerType) (n : Int) : t.wrap n ≡ n [ZMOD t.modulus] := by
  unfold wrap modulus
  split
  · exact Int.bmod_emod
  · exact Int.mod_modEq n _

theorem wrap_congr (same : m ≡ n [ZMOD t.modulus]) : t.wrap m = t.wrap n := by
  have same : m % (Nat.pow 2 t.width.bits : Nat) = n % (Nat.pow 2 t.width.bits : Nat) := same
  unfold wrap
  split
  · rw [← Int.emod_bmod m, same, Int.emod_bmod]
  · exact same

@[simp] theorem wrap_wrap (t : IntegerType) (n : Int) : t.wrap (t.wrap n) = t.wrap n :=
  wrap_congr (t.wrap_modEq n)

theorem fits_wrap (t : IntegerType) (n : Int) : t.fits (t.wrap n) = true :=
  decide_eq_true (t.wrap_wrap n)

theorem wrap_of_fits (fits : t.fits n = true) : t.wrap n = n := of_decide_eq_true fits

/-- A double beside this integer as it is stored: the integer, or the least one of the type. -/
def settle (t : IntegerType) (n : Int) : Int :=
  if t.fits n then n else t.wrap (Int.pow 2 (t.width.bits - 1))

theorem fits_settle (t : IntegerType) (n : Int) : t.fits (t.settle n) = true := by
  unfold settle
  split
  next fits => exact fits
  next => exact t.fits_wrap _

theorem settle_of_fits (fits : t.fits n = true) : t.settle n = n := if_pos fits

end IntegerType

namespace ElementType

variable {a b c : ElementType} {u v : IntegerType}

/-- The types that nodes of integers have. -/
theorem storage_int (is : a.storage = .int u) : u = .int32 ∨ u = .int64 := by
  cases a <;> cases is
  · exact .inr rfl
  · exact .inl rfl

/-- Integers of any two types are combined. -/
theorem common_of_int (first : a.storage = .int u) (second : b.storage = .int v) :
    ∃ c, common [a, b] = .ok c := by
  cases a <;> cases first <;> cases b <;> cases second <;> exact ⟨_, rfl⟩

/-- The type in which integers are combined. -/
theorem common_int (combined : common [a, b] = .ok c) (first : a.storage = .int u)
    (second : b.storage = .int v) :
    ∃ w, c.storage = .int w ∧ (StorageType.int u).join (.int v) = .int w := by
  cases a <;> cases first <;> cases b <;> cases second <;> cases combined <;> exact ⟨_, rfl, rfl⟩

end ElementType

/-- The integers that a type with a sign holds. -/
theorem IntegerType.fits_signed (width : Width) (n : Int) :
    IntegerType.fits ⟨true, width⟩ n = true ↔
      -(2 ^ width.bits : Int) ≤ 2 * n ∧ 2 * n < 2 ^ width.bits := by
  have power : ((Nat.pow 2 width.bits : Nat) : Int) = 2 ^ width.bits := Nat.cast_pow 2 _
  have positive : 0 < Nat.pow 2 width.bits := Nat.two_pow_pos _
  change decide (n.bmod (Nat.pow 2 width.bits) = n) = true ↔ _
  rw [decide_eq_true_iff, ← power]
  generalize Nat.pow 2 width.bits = size at positive
  constructor
  · intro same
    have least := Int.le_bmod (x := n) positive
    have most := Int.bmod_lt (x := n) positive
    omega
  · rintro ⟨least, most⟩
    exact Int.bmod_eq_of_le_mul_two (by omega) (by omega)

theorem IntegerType.fits_int32 {n : Int} :
    IntegerType.int32.fits n = true ↔ -2 ^ 31 ≤ n ∧ n < 2 ^ 31 := by
  have range := IntegerType.fits_signed .w32 n
  change _ ↔ -(2 ^ 32 : Int) ≤ 2 * n ∧ 2 * n < 2 ^ 32 at range
  exact range.trans (by omega)

theorem IntegerType.fits_int64 {n : Int} :
    IntegerType.int64.fits n = true ↔ -2 ^ 63 ≤ n ∧ n < 2 ^ 63 := by
  have range := IntegerType.fits_signed .w64 n
  change _ ↔ -(2 ^ 64 : Int) ≤ 2 * n ∧ 2 * n < 2 ^ 64 at range
  exact range.trans (by omega)

/-! ### Elements -/

namespace Scalar

variable {f : Binary} {u v w : IntegerType} {j k : Int}

/-- An operation on integers that respects residues. -/
def Binary.Modular (f : Binary) : Prop :=
  ∀ {N m m' n n' : Int}, m ≡ m' [ZMOD N] → n ≡ n' [ZMOD N] → f.onInt m n ≡ f.onInt m' n' [ZMOD N]

theorem modular_addition : addition.Modular := Int.ModEq.add

theorem modular_subtraction : subtraction.Modular := Int.ModEq.sub

theorem modular_multiplication : multiplication.Modular := Int.ModEq.mul

/-- Stored integers are combined modulo the size of the type. -/
theorem within_int (modular : f.Modular) (u v w : IntegerType) (j k : Int) :
    f.within (.int w) (.int u j) (.int v k) = .int w (w.wrap (f.onInt j k)) :=
  congrArg (Scalar.int w) (IntegerType.wrap_congr (modular (w.wrap_modEq j) (w.wrap_modEq k)))

theorem apply_int (modular : f.Modular) (join : (StorageType.int u).join (.int v) = .int w)
    (j k : Int) : f.apply (.int u j) (.int v k) = .int w (w.wrap (f.onInt j k)) := by
  have type : common (.int u j) (.int v k) = .int w := join
  unfold Binary.apply
  rw [type]
  exact within_int modular u v w j k

/-- A sum of stored integers is the exact one, wrapped once. -/
theorem foldl_int (w : IntegerType) (ns : List Int) (m : Int) :
    (ns.map fun n => Scalar.int w (w.wrap n)).foldl (addition.within (.int w)) (.int w (w.wrap m)) =
      .int w (w.wrap (m + ns.sum)) := by
  induction ns generalizing m with
  | nil => simp
  | cons n ns ih =>
    have step : addition.within (.int w) (.int w (w.wrap m)) (.int w (w.wrap n)) =
        .int w (w.wrap (m + n)) := by
      rw [within_int modular_addition]
      exact congrArg _ (IntegerType.wrap_congr ((w.wrap_modEq m).add (w.wrap_modEq n)))
    rw [List.map_cons, List.foldl_cons, step, ih, List.sum_cons, add_assoc]

theorem refusalIn?_int {xs ys : List Int} :
    refusalIn? (xs.map (Scalar.int u) ++ ys.map (Scalar.int v)) = none := by
  refine List.findSome?_eq_none_iff.mpr fun x mem => ?_
  rcases List.mem_append.mp mem with mem | mem <;>
    obtain ⟨n, _, rfl⟩ := List.mem_map.mp mem <;> rfl

/-- A sum of products of stored integers is the exact one, wrapped once. -/
theorem dot_int (join : (StorageType.int u).join (.int v) = .int w) {xs ys : List Int}
    (some : xs ≠ []) (some' : ys ≠ []) :
    dot (xs.map (.int u)) (ys.map (.int v)) = .int w (w.wrap (Element.dot xs ys)) := by
  have products : List.zipWith (multiplication.within (.int w)) (xs.map (.int u))
      (ys.map (.int v)) = (List.zipWith (· * ·) xs ys).map fun n => .int w (w.wrap n) := by
    rw [List.zipWith_map, List.map_zipWith]
    congr 1
    funext j k
    exact within_int modular_multiplication u v w j k
  have zero : (whole 0).store (.int w) = .int w (w.wrap 0) := rfl
  obtain ⟨x, rest, rfl⟩ := List.exists_cons_of_ne_nil some
  obtain ⟨y, rest', rfl⟩ := List.exists_cons_of_ne_nil some'
  have type : common (.int u x) (.int v y) = .int w := join
  have run : runType (.int w) = .int w := rfl
  rw [List.map_cons, List.map_cons] at products ⊢
  unfold dot
  simp only [type, run]
  rw [products, ← List.map_cons, ← List.map_cons, refusalIn?_int, totalWithin, zero, foldl_int,
    zero_add]
  exact congrArg (Scalar.int w) (w.wrap_wrap _)

/-- A stored integer and a double that is an integer. -/
theorem whole_toFloat {type : ElementType} (is : type.storage = .int u) (fits : u.fits j = true) :
    Number.Whole (Scalar.int u j).toFloat (Number.rounded j) := by
  refine Number.whole_ofInt ?_
  rcases ElementType.storage_int is with rfl | rfl
  · have range := IntegerType.fits_int32.mp fits
    omega
  · have range := IntegerType.fits_int64.mp fits
    omega

/-- A double that is read as an integer, as it is stored. -/
theorem storeFloat_read {type : ElementType} (is : type.storage = .int u) {x : Float} {n : Int}
    (read : Number.truncate? x = some n) : storeFloat u x =
      u.wrap (if u.fits n then n else u.wrap (Int.pow 2 (u.width.bits - 1))) := by
  rcases ElementType.storage_int is with rfl | rfl
  all_goals
    simp only [storeFloat, read]
    rfl

/-- A double that is read as no integer is stored as the least value. -/
theorem storeFloat_unread {type : ElementType} (is : type.storage = .int u) {x : Float}
    (unread : Number.truncate? x = none) :
    storeFloat u x = u.wrap (Int.pow 2 (u.width.bits - 1)) := by
  refine Eq.trans ?_ (u.wrap_wrap (Int.pow 2 (u.width.bits - 1)))
  rcases ElementType.storage_int is with rfl | rfl
  all_goals
    simp only [storeFloat, unread]
    rfl

/-- A double beside an integer as it is stored. -/
theorem storeFloat_nears {type : ElementType} (is : type.storage = .int u) {x : Float} {n : Int}
    (nears : Number.Nears x n) : storeFloat u x = u.settle n := by
  rw [IntegerType.settle]
  rcases nears with whole | ⟨⟨s, infinite⟩, large⟩
  · rw [storeFloat_read is (Number.whole_iff.mp whole).2]
    split
    next fits => exact IntegerType.wrap_of_fits fits
    next => exact u.wrap_wrap _
  · have unfit : ¬ u.fits n = true := by
      intro fits
      rcases ElementType.storage_int is with rfl | rfl
      · have range := IntegerType.fits_int32.mp fits
        omega
      · have range := IntegerType.fits_int64.mp fits
        omega
    rw [if_neg unfit]
    exact storeFloat_unread is (Number.read_infinity infinite).2

end Scalar

/-! ### Arrays -/

namespace Tensor

/-- An array of integers as it is stored. -/
def stored (u : IntegerType) (x : Tensor Int) : Tensor Scalar := x.map (.int u)

variable {u v w : IntegerType} {x y z : Tensor Int} {f : Scalar → Scalar}

theorem mem_stored {s : Scalar} (mem : s ∈ (x.stored u).toList) : ∃ j ∈ x.toList, .int u j = s := by
  rw [stored, toList_map] at mem
  exact List.mem_map.mp mem

theorem stored_proper : (x.stored u).Proper := by
  intro s mem
  obtain ⟨j, _, rfl⟩ := mem_stored mem
  rfl

/-- What has been wrapped is stored as it is. -/
theorem assign_wrapped (z : Tensor Int) (w : IntegerType) :
    ((z.map w.wrap).stored w).assign (.int w) z.shape = .ok ((z.map w.wrap).stored w) := by
  refine (assign_self stored_proper (.int w)).trans (congrArg Except.ok ?_)
  rw [stored, map_map, map_map, map_map]
  exact map_congr fun j _ => congrArg (Scalar.int w) (w.wrap_wrap j)

/-- What is made of every element, stored in a buffer of the type. -/
theorem assign_made {r : Int → Int} (each : ∀ j ∈ x.toList, (f (.int u j)).refusal? = none ∧
    (f (.int u j)).store (.int w) = .int w (r j)) :
    ((x.stored u).map f).assign (.int w) x.shape = .ok ((x.map r).stored w) := by
  have proper : ((x.stored u).map f).Proper := by
    intro s mem
    rw [toList_map] at mem
    obtain ⟨s, inside, rfl⟩ := List.mem_map.mp mem
    obtain ⟨j, held, rfl⟩ := mem_stored inside
    exact (each j held).1
  refine (assign_self proper (.int w)).trans (congrArg Except.ok ?_)
  rw [stored, stored, map_map, map_map, map_map]
  exact map_congr fun j mem => (each j mem).2

/-- Combined images are the image of what is combined. -/
theorem combine_map {α β γ α' β' γ' : Type} [Inhabited α] [Inhabited β] [Inhabited γ]
    [Inhabited α'] [Inhabited β'] [Inhabited γ'] {f : α → β → γ} {f' : α' → β' → γ'} {g : α' → α}
    {h : β' → β} {i : γ' → γ} (each : ∀ p q, f (g p) (h q) = i (f' p q)) (a : Tensor α')
    (b : Tensor β') : (a.map g).combine f (b.map h) = (a.combine f' b).map (Tensor.map i) := by
  unfold combine
  cases joined : broadcast? [a.shape, b.shape] with
  | none => rw [show broadcast? [(a.map g).shape, (b.map h).shape] = none from joined]; rfl
  | some s =>
    rw [show broadcast? [(a.map g).shape, (b.map h).shape] = some s from joined]
    refine congrArg Except.ok (ext_get rfl fun pos inside => ?_)
    have inside : pos ∈ positions s := inside
    rw [get_map i inside, get_ofFn inside, get_ofFn inside, ← each]
    congr 1
    · exact get_map g (clamp_mem joined (by simp) inside)
    · exact get_map h (clamp_mem joined (by simp) inside)

/-- What is combined of stored arrays, in the type that both have in common. -/
theorem combine_stored {f : Scalar.Binary} (modular : f.Modular)
    (join : (StorageType.int u).join (.int v) = .int w) (op : Scalar → Scalar → Scalar)
    (applies : ∀ j k, op (.int u j) (.int v k) = f.apply (.int u j) (.int v k)) :
    (x.stored u).combine op (y.stored v) =
      (x.combine f.onInt y).map fun z => (z.map w.wrap).stored w := by
  have each (j k : Int) : op (.int u j) (.int v k) = .int w (w.wrap (f.onInt j k)) :=
    (applies j k).trans (Scalar.apply_int modular join j k)
  refine (combine_map (i := fun n => Scalar.int w (w.wrap n)) each x y).trans ?_
  cases x.combine f.onInt y with
  | error => rfl
  | ok z => exact congrArg Except.ok (map_map w.wrap (Scalar.int w) z).symm

/-- The product of stored matrices. -/
theorem product_stored (join : (StorageType.int u).join (.int v) = .int w)
    {front front' r : List Nat} {m k n : Nat} (left : x.shape = front ++ [m, k])
    (right : y.shape = front' ++ [k, n]) (joined : broadcast? [front, front'] = some r)
    (inner : 0 < k) : (x.stored u).product (y.stored v) =
      (x.product y).map fun z => (z.map w.wrap).stored w := by
  refine (product_map (h := fun n => Scalar.int w (w.wrap n)) left right joined inner
    fun xs ys some some' => Scalar.dot_int join some some').trans ?_
  cases x.product y with
  | error => rfl
  | ok z => exact congrArg Except.ok (map_map w.wrap (Scalar.int w) z).symm

end Tensor

end ReverseMode
