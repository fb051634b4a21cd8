import Mathlib.Data.List.Forall2
import ReverseMode.Graph.Basic
import ReverseMode.Proofs.Outcome

/-!
Arrays of elements that are added exactly.

Where addition of elements is associative and commutative and storing rounds nothing, a
contribution does the same to every buffer: it adds one array, which depends on the extents of
the buffer only.
-/

namespace ReverseMode

/-! ### Positions -/

theorem flatMap_blocks (m n : Nat) :
    ((List.range m).flatMap fun i => (List.range n).map (i * n + ·)) = List.range (m * n) := by
  induction m with
  | zero => simp
  | succ m ih => simp [List.range_succ, ih, Nat.succ_mul, List.range_add]

/-- Positions are listed in the order of their offsets. -/
theorem map_offset_positions (shape : List Nat) :
    (positions shape).map (offset shape) = List.range (volume shape) := by
  induction shape with
  | nil => rfl
  | cons e rest ih =>
    have block : ∀ i, ((positions rest).map (i :: ·)).map (offset (e :: rest)) =
        (List.range (volume rest)).map (i * volume rest + ·) := by
      intro i
      rw [← ih, List.map_map, List.map_map]
      rfl
    rw [positions, List.map_flatMap]
    simp only [block]
    exact flatMap_blocks e (volume rest)

theorem offset_getElem {shape : List Nat} {i : Nat} (bound : i < (positions shape).length) :
    offset shape (positions shape)[i] = i := by
  have inRange : i < volume shape := by rwa [← length_positions]
  have := congrArg (fun l => l[i]?) (map_offset_positions shape)
  simpa [bound, inRange] using this

theorem offset_lt {shape pos : List Nat} (inside : pos ∈ positions shape) :
    offset shape pos < volume shape := by
  have := List.mem_map_of_mem (f := offset shape) inside
  rwa [map_offset_positions, List.mem_range] at this

theorem mem_positions {shape pos : List Nat} :
    pos ∈ positions shape ↔ List.Forall₂ (· < ·) pos shape := by
  induction shape generalizing pos with
  | nil => simp [positions]
  | cons e rest ih =>
    simp only [positions, List.mem_flatMap, List.mem_range, List.mem_map]
    constructor
    · rintro ⟨i, less, tail, inside, rfl⟩
      exact .cons less (ih.mp inside)
    · intro all
      cases all with
      | cons less tail => exact ⟨_, less, _, ih.mpr tail, rfl⟩

namespace Tensor

variable {α β : Type}

open scoped Element

section Access

variable [Inhabited α]

theorem get_ofFn {shape : List Nat} {f : List Nat → α} {pos : List Nat}
    (inside : pos ∈ positions shape) : (ofFn shape f).get pos = f pos := by
  obtain ⟨i, bound, rfl⟩ := List.getElem_of_mem inside
  simp [Tensor.get, ofFn, offset_getElem bound, bound]

theorem get_map [Inhabited β] {t : Tensor α} {pos : List Nat} (f : α → β)
    (inside : pos ∈ positions t.shape) : (t.map f).get pos = f (t.get pos) := by
  have bound : offset t.shape pos < t.data.size := t.size_eq ▸ offset_lt inside
  simp [Tensor.get, map, bound]

theorem ofFn_get (t : Tensor α) : ofFn t.shape t.get = t := by
  obtain ⟨shape, data, size⟩ := t
  simp only [ofFn, mk.injEq, true_and]
  apply Array.ext
  · simp [length_positions, size]
  · intro i _ bound
    simp [Tensor.get, offset_getElem, bound]

/-- Arrays are equal that have the same elements. -/
theorem ext_get {t u : Tensor α} (shape : t.shape = u.shape)
    (same : ∀ pos ∈ positions t.shape, t.get pos = u.get pos) : t = u := by
  rw [← ofFn_get t, ← ofFn_get u, ← shape]
  simp only [ofFn, mk.injEq, true_and]
  congr 1
  exact List.map_congr_left same

theorem clamp_self {shape pos : List Nat} (inside : pos ∈ positions shape) :
    clamp shape pos = pos := by
  have all := mem_positions.mp inside
  rw [clamp, all.length_eq, Nat.sub_self, List.drop_zero]
  clear inside
  induction all with
  | nil => rfl
  | @cons i e pos rest less _ ih =>
    rw [List.zipWith_cons_cons, ih]
    split
    next one => rw [show i = 0 by omega]
    · rfl

/-- An array is read at its own positions. -/
theorem read_self {t : Tensor α} {pos : List Nat} (inside : pos ∈ positions t.shape) :
    t.read pos = t.get pos := by
  rw [read, clamp_self inside]

theorem get_full {shape : List Nat} {x : α} {pos : List Nat} (inside : pos ∈ positions shape) :
    (full shape x).get pos = x := by
  simp [Tensor.get, full, offset_lt inside]

end Access

end Tensor

/-- Elements that are added exactly: addition is associative and commutative, zero adds nothing,
and a number is added and stored as what it is. -/
class Element.Exact (α : Type) [Element α] : Prop where
  add_assoc : ∀ a b c : α, add (add a b) c = add a (add b c)
  add_comm : ∀ a b : α, add a b = add b a
  zero_add : ∀ a : α, add (whole 0) a = a
  like_eq : ∀ a b : α, like a b = b
  replace_eq : ∀ a b : α, replace a b = b
  refusal?_eq : ∀ a : α, refusal? a = none
  store_zero : ∀ t : StorageType, store t (whole 0 : α) = whole 0

/-- Integers as elements; what they cannot say is zero. -/
instance : Element Int where
  literal
    | .whole n | .int _ n => n
    | .bool b => if b then 1 else 0
    | _ => 0
  store _ x := x
  like _ x := x
  replace _ x := x
  refusal? _ := none
  add := (· + ·)
  sub := (· - ·)
  mul := (· * ·)
  div := (· / ·)
  max := max
  min := min
  clamp low high x := max low (min high x)
  neg := (- ·)
  abs x := x.natAbs
  sign := Int.sign
  exp _ := 0
  log _ := 0
  sin _ := 0
  cos _ := 0
  tan _ := 0
  tanh _ := 0
  sqrt _ := 0
  pow := Int.pow
  logaddexp _ _ := 0
  lt x y := x < y
  le x y := x ≤ y
  eq x y := x = y
  sum runs := runs.flatten.foldr (· + ·) 0
  prod _ xs := xs.foldr (· * ·) 1
  mean xs := xs.foldr (· + ·) 0 / xs.length
  dot xs ys := (List.zipWith (· * ·) xs ys).foldr (· + ·) 0
  position := id
  position? := some
  toFloat := Float.ofInt

instance : Element.Exact Int where
  add_assoc := Int.add_assoc
  add_comm := Int.add_comm
  zero_add := Int.zero_add
  like_eq _ _ := rfl
  replace_eq _ _ := rfl
  refusal?_eq _ := rfl
  store_zero _ := rfl

section Sums

open scoped Element

variable {α : Type} [Element α]

/-- The sum of some elements. -/
def Element.total (xs : List α) : α := xs.foldr Element.add (Element.whole 0)

namespace Tensor

/-- Arrays added element by element. -/
def plus (t u : Tensor α) : Tensor α := t.zipWith Element.add u

/-- Arrays of some extents added up. -/
def total (shape : List Nat) (ts : List (Tensor α)) : Tensor α :=
  ofFn shape fun pos => Element.total (ts.map fun t => t.get pos)

@[simp] theorem shape_plus (t u : Tensor α) : (t.plus u).shape = t.shape := rfl

@[simp] theorem shape_total (shape : List Nat) (ts : List (Tensor α)) :
    (total shape ts).shape = shape := rfl

theorem get_plus {t u : Tensor α} {pos : List Nat} (inside : pos ∈ positions t.shape) :
    (t.plus u).get pos = Element.add (t.get pos) (u.get pos) := get_ofFn inside

theorem get_total {shape : List Nat} {ts : List (Tensor α)} {pos : List Nat}
    (inside : pos ∈ positions shape) :
    (total shape ts).get pos = Element.total (ts.map fun t => t.get pos) := get_ofFn inside

end Tensor

variable [Element.Exact α]

theorem Element.total_append (xs ys : List α) :
    Element.total (xs ++ ys) = Element.add (Element.total xs) (Element.total ys) := by
  induction xs with
  | nil => exact (Element.Exact.zero_add _).symm
  | cons x xs ih =>
    change Element.add x (Element.total (xs ++ ys)) = _
    rw [ih, ← Element.Exact.add_assoc]
    rfl

theorem Element.total_perm {xs ys : List α} (perm : xs.Perm ys) :
    Element.total xs = Element.total ys := by
  induction perm with
  | nil => rfl
  | cons x _ ih => exact congrArg (Element.add x) ih
  | swap x y l =>
    change Element.add y (Element.add x _) = Element.add x (Element.add y _)
    rw [← Element.Exact.add_assoc, Element.Exact.add_comm y x, Element.Exact.add_assoc]
  | trans _ _ ih ih' => exact ih.trans ih'

namespace Tensor

variable {shape : List Nat}

theorem total_perm {ts us : List (Tensor α)} (perm : ts.Perm us) :
    total shape ts = total shape us := by
  refine ext_get rfl fun pos inside => ?_
  rw [shape_total] at inside
  rw [get_total inside, get_total inside]
  exact Element.total_perm (perm.map _)

/-- What is added first and what is added later is added together. -/
theorem plus_total_append {t : Tensor α} {ts us : List (Tensor α)} (same : t.shape = shape) :
    (t.plus (total shape ts)).plus (total shape us) = t.plus (total shape (ts ++ us)) := by
  subst same
  refine ext_get rfl fun pos inside => ?_
  rw [shape_plus, shape_plus] at inside
  rw [get_plus (t := t.plus _) inside, get_plus inside, get_plus inside, get_total inside,
    get_total inside, get_total inside, List.map_append, Element.total_append,
    Element.Exact.add_assoc]

theorem plus_total_nil {t : Tensor α} (same : t.shape = shape) : t.plus (total shape []) = t := by
  subst same
  refine ext_get rfl fun pos inside => ?_
  rw [shape_plus] at inside
  rw [get_plus inside, get_total inside, Element.Exact.add_comm]
  exact Element.Exact.zero_add _

theorem plus_total_single {t u : Tensor α} (same : t.shape = shape) :
    t.plus (total shape [u]) = t.plus u := by
  subst same
  refine ext_get rfl fun pos inside => ?_
  rw [shape_plus] at inside
  rw [get_plus inside, get_plus inside, get_total inside]
  congr 1
  exact (Element.Exact.add_comm _ _).trans (Element.Exact.zero_add _)

theorem get_zeros {s : Signature} {pos : List Nat} (inside : pos ∈ positions s.shape.extents) :
    (Graph.zeros s : Tensor α).get pos = Element.whole 0 := by
  rw [Graph.zeros, get_full inside, Element.Exact.store_zero]

/-- Zeros add nothing. -/
theorem zeros_plus_total {s : Signature} {ts : List (Tensor α)} :
    (Graph.zeros s).plus (total s.shape.extents ts) = total s.shape.extents ts := by
  refine ext_get rfl fun pos inside => ?_
  have inside : pos ∈ positions s.shape.extents := inside
  rw [get_plus inside, get_zeros inside]
  exact Element.Exact.zero_add _

theorem plus_zeros_plus {t u : Tensor α} {s : Signature} (same : t.shape = s.shape.extents) :
    t.plus ((Graph.zeros s).plus u) = t.plus u := by
  refine ext_get rfl fun pos inside => ?_
  rw [shape_plus] at inside
  have inside' : pos ∈ positions s.shape.extents := same ▸ inside
  rw [get_plus inside, get_plus inside, get_plus inside', get_zeros inside', Element.Exact.zero_add]

/-! ### Contributions -/

/-- What an addition in place adds to a buffer of some extents. -/
def inPlaceAmount (shape : List Nat) (addend : Tensor α) : Except Fault (Tensor α) :=
  match broadcast? [shape, addend.shape] with
  | some joined => if joined = shape then .ok (addend.expand shape) else .error .value
  | none => .error .value

theorem addInPlace_eq (target addend : Tensor α) :
    target.addInPlace addend = target.plus <$> inPlaceAmount target.shape addend := by
  have unrefused : ∀ xs : List α, xs.findSome? Element.refusal? = none := fun xs =>
    List.findSome?_eq_none_iff.mpr fun x _ => Element.Exact.refusal?_eq x
  unfold addInPlace updateInPlace inPlaceAmount combine
  simp only [unrefused]
  cases joined : broadcast? [target.shape, addend.shape] with
  | none => rfl
  | some shape =>
    by_cases same : shape = target.shape
    · subst same
      have sum : ofFn target.shape (fun pos =>
          Element.replace (target.read pos) (target.read pos + addend.read pos)) =
          target.plus (addend.expand target.shape) := by
        refine ext_get rfl fun pos inside => ?_
        have inside : pos ∈ positions target.shape := inside
        rw [get_ofFn inside, get_plus inside, expand, get_ofFn inside, Element.Exact.replace_eq,
          read_self inside]
        rfl
      simp only [if_true]
      exact (if_pos rfl).trans (congrArg Except.ok sum)
    · simp only [same, if_false]
      exact if_neg same

/-- Amounts added one after the other. -/
def sparseAmount (shape : List Nat) (addends : List (Addend α)) : Tensor α :=
  ofFn shape fun pos =>
    Element.total ((addends.filter fun a => a.offset = offset shape pos).map Addend.amount)

/-- The element at a place after some amounts have been added. -/
theorem foldl_addends (addends : List (Addend α)) (data : Array α) (i : Nat) :
    (addends.foldl (fun data a => data.modify a.offset fun x => Element.like x (x + a.amount))
      data)[i]? = data[i]?.map fun x => Element.add x
        (Element.total ((addends.filter fun a => a.offset = i).map Addend.amount)) := by
  induction addends generalizing data with
  | nil =>
    have nothing : ∀ x : α, Element.add x (Element.total []) = x := fun x =>
      (Element.Exact.add_comm _ _).trans (Element.Exact.zero_add x)
    simp [nothing]
  | cons a rest ih =>
    rw [List.foldl_cons, ih, Array.getElem?_modify]
    by_cases here : a.offset = i
    · simp only [here, if_true, Option.map_map, List.filter_cons_of_pos, decide_true,
        List.map_cons]
      congr 1
      funext x
      rw [Function.comp_apply, Element.Exact.like_eq]
      exact Element.Exact.add_assoc _ _ _
    · simp [here]

theorem addAt_eq (target : Tensor α) (addends : List (Addend α)) :
    target.addAt addends = target.plus (sparseAmount target.shape addends) := by
  refine ext_get rfl fun pos inside => ?_
  have inside : pos ∈ positions target.shape := inside
  have bound : offset target.shape pos < target.data.size :=
    target.size_eq ▸ offset_lt inside
  rw [get_plus inside, sparseAmount, get_ofFn inside, Tensor.get, Tensor.get,
    Array.getD_eq_getD_getElem?, Array.getD_eq_getD_getElem?]
  change ((addends.foldl _ target.data)[offset target.shape pos]?).getD _ = _
  rw [foldl_addends, Array.getElem?_eq_getElem bound]
  rfl

/-- What an addition in place to some places of an axis adds. -/
def windowAmount (shape : List Nat) (axis : Nat) (places : List Nat) (addend : Tensor α) :
    Except Fault (Tensor α) :=
  (fun d : Tensor α => ofFn shape fun pos =>
    match places.idxOf? (pos.getD axis 0) with
    | some k => d.get (pos.set axis k)
    | none => Element.whole 0) <$> inPlaceAmount (shape.set axis places.length) addend

omit [Element α] [Element.Exact α] in
theorem set_mem_positions {shape pos : List Nat} (inside : pos ∈ positions shape) {axis k e : Nat}
    (less : k < e) : pos.set axis k ∈ positions (shape.set axis e) := by
  have all := mem_positions.mp inside
  refine mem_positions.mpr ?_
  clear inside
  induction all generalizing axis with
  | nil => exact .nil
  | cons first rest ih =>
    cases axis with
    | zero => exact .cons less rest
    | succ axis => exact .cons first ih

omit [Element.Exact α] in
/-- A window holds the elements of the buffer at its places. -/
theorem get_selectAxis {t : Tensor α} {pos : List Nat} (inside : pos ∈ positions t.shape)
    {axis : Nat} {places : List Nat} {k : Nat} (found : places.idxOf? (pos.getD axis 0) = some k) :
    pos.set axis k ∈ positions (t.selectAxis axis places).shape ∧
      (t.selectAxis axis places).get (pos.set axis k) = t.get pos := by
  obtain ⟨bound, same, _⟩ := List.idxOf?_eq_some_iff.mp found
  have inWindow : pos.set axis k ∈ positions (t.shape.set axis places.length) :=
    set_mem_positions inside bound
  refine ⟨inWindow, ?_⟩
  rw [selectAxis, get_ofFn inWindow, List.set_set]
  congr 1
  by_cases axial : axis < pos.length
  · have place : places.getD ((pos.set axis k).getD axis 0) 0 = pos[axis] := by
      have first : (pos.set axis k).getD axis 0 = k := by simp [axial]
      have second : pos.getD axis 0 = pos[axis] := by simp [axial]
      rw [first, ← second, ← same]
      simp [bound]
    rw [place, List.set_getElem_self]
  · exact List.set_eq_of_length_le (Nat.le_of_not_lt axial)

theorem putAxis_eq (target addend : Tensor α) (axis : Nat) (places : List Nat) :
    (fun window => target.putAxis axis places window) <$>
        (target.selectAxis axis places).addInPlace addend =
      target.plus <$> windowAmount target.shape axis places addend := by
  rw [addInPlace_eq, windowAmount]
  cases amount : inPlaceAmount (target.shape.set axis places.length) addend with
  | error f =>
    change _ <$> _ <$> inPlaceAmount (target.shape.set axis places.length) addend = _
    rw [amount]
    rfl
  | ok d =>
    change _ <$> _ <$> inPlaceAmount (target.shape.set axis places.length) addend = _
    rw [amount]
    refine congrArg Except.ok (ext_get rfl fun pos inside => ?_)
    have inside : pos ∈ positions target.shape := inside
    rw [get_plus inside, get_ofFn inside]
    refine (get_ofFn inside).trans ?_
    cases found : places.idxOf? (pos.getD axis 0) with
    | none => exact ((Element.Exact.add_comm _ _).trans (Element.Exact.zero_add _)).symm
    | some k =>
      obtain ⟨inWindow, same⟩ := get_selectAxis inside found
      simp only [get_plus inWindow, same]

end Tensor

open Tensor in
/-- A contribution adds the same array to every buffer of some extents. -/
theorem Contribution.addTo_eq (c : Contribution α) (shape : List Nat) :
    ∃ amount : Except Fault (Tensor α), ∀ target : Tensor α, target.shape = shape →
      c.addTo target = target.plus <$> amount := by
  cases c with
  | dense gradient =>
    refine ⟨gradient.unbroadcast shape, ?_⟩
    rintro target rfl
    have plain : (fun x y : α => x + Element.like x y) = Element.add := by
      funext x y
      rw [Element.Exact.like_eq]
      rfl
    rw [addTo, accumulate, plain]
    rfl
  | sparse addends =>
    refine ⟨.ok (sparseAmount shape addends), ?_⟩
    rintro target rfl
    rw [addTo, addAt_eq]
    rfl
  | inPlace addend =>
    refine ⟨inPlaceAmount shape addend, ?_⟩
    rintro target rfl
    exact addInPlace_eq target addend
  | window axis places addend =>
    refine ⟨windowAmount shape axis places addend, ?_⟩
    rintro target rfl
    exact putAxis_eq target addend axis places

/-- Added to a buffer is what would be added to zeros. -/
theorem Contribution.addTo_plus {c : Contribution α} {target t : Tensor α} {s : Signature}
    (same : target.shape = s.shape.extents) (added : c.addTo target = .ok t) :
    ∃ amount, c.addTo (Graph.zeros s) = .ok amount ∧ t = target.plus amount := by
  obtain ⟨amount, adds⟩ := c.addTo_eq s.shape.extents
  obtain ⟨d, rfl, rfl⟩ := map_eq_ok.mp ((adds target same).symm.trans added)
  exact ⟨(Graph.zeros s).plus d, adds _ rfl, (Tensor.plus_zeros_plus same).symm⟩

open Tensor in
/-- An array of the extents of the buffer is added as it is. -/
theorem Contribution.addTo_inPlace {e target t : Tensor α} (same : e.shape = target.shape)
    (added : (Contribution.inPlace e).addTo target = .ok t) : t = target.plus e := by
  obtain ⟨d, amount, rfl⟩ := map_eq_ok.mp ((Tensor.addInPlace_eq target e).symm.trans added)
  unfold Tensor.inPlaceAmount at amount
  split at amount
  next joined _ =>
    split at amount
    · cases amount
      refine ext_get rfl fun pos inside => ?_
      have inside : pos ∈ positions target.shape := inside
      rw [get_plus inside, get_plus inside, expand, get_ofFn inside, read_self (same ▸ inside)]
    · cases amount
  · cases amount

end Sums

end ReverseMode
