import ReverseMode.Proofs.ArrayTypes
import ReverseMode.Proofs.FloatNumbers
import ReverseMode.Proofs.IntegerArithmetic

/-!
Numbers subtracted from nodes, and nodes from numbers.

A node minus a number is the node plus the negated number. The number is negated in what it is
stored in: floats and integers without a storage type have a negation, and so has every stored
integer whose negation fits its type. The negation of the others wraps, so that a nonzero unsigned
integer, or the least signed one, is subtracted as another number. A number minus a node is the
number plus the negated node, and always right.
-/

namespace ReverseMode

open scoped Element
open Element (real)

/-! ### Amounts -/

/-- What a number amounts to, whatever it is stored in. -/
inductive Amount where
  | whole (k : Int)
  | double (x : Float)
  | single (x : Float32)

namespace Amount

/-- The amount with the other sign. -/
def neg : Amount → Amount
  | whole k => whole (-k)
  | double x => double (-x)
  | single x => single (-x)

/-- The double that an amount is read as; there is none for an integer beyond all doubles. -/
def toReal : Amount → Except Fault Float
  | whole k => Argument.intToReal k
  | double x => .ok x
  | single x => .ok x.toFloat

/-- Where an amount can be read as a double, so can its negation. -/
theorem toReal_neg {a : Amount} {x : Float} (read : a.toReal = .ok x) :
    ∃ y, a.neg.toReal = .ok y := by
  cases a with
  | whole k =>
    obtain ⟨y, held⟩ := Number.ofInt?_neg (Argument.intToReal_eq_ok.mp read)
    exact ⟨y, Argument.intToReal_eq_ok.mpr held⟩
  | double | single => exact ⟨_, rfl⟩

end Amount

namespace Argument

/-- A number of this amount. -/
inductive Amounts : Argument Scalar → Amount → Prop
  | int (k : Int) : Amounts (.int k) (.whole k)
  | real (x : Float) : Amounts (.real x) (.double x)
  | stored (t : IntegerType) (k : Int) : Amounts (.scalar (.int t k)) (.whole k)
  | half (x : Float32) : Amounts (.scalar (.float16 x)) (.single x)
  | single (x : Float32) : Amounts (.scalar (.float32 x)) (.single x)
  | double (x : Float) : Amounts (.scalar (.float64 x)) (.double x)

/-- The negation of a number fits what the number is stored in. -/
def Negates : Argument Scalar → Prop
  | .scalar (.int t k) => t.fits (-k) = true
  | _ => True

variable {b : Argument Scalar} {a : Amount} {x : Float}

namespace Amounts

theorem isNumber (is : b.Amounts a) : b.isNumber = true := by
  cases is <;> rfl

theorem toReal (is : b.Amounts a) (read : a.toReal = .ok x) : b.toReal = .ok x := by
  cases is with
  | stored t k =>
    have held := intToReal_eq_ok.mp read
    exact congrArg Except.ok (Number.ofInt?_eq_some.mp held).1
  | _ => exact read

theorem negated (is : b.Amounts a) (negates : b.Negates) : b.negated.Amounts a.neg := by
  cases is with
  | int k => exact .int (-k)
  | real x => exact .real (-x)
  | stored t k =>
    have same : t.wrap (-k) = -k := of_decide_eq_true negates
    have kept : (Argument.scalar (.int t k) : Argument Scalar).negated = .scalar (.int t (-k)) :=
      congrArg (fun k => Argument.scalar (.int t k)) same
    rw [kept]
    exact .stored t (-k)
  | half x => exact .half (-x)
  | single x => exact .single (-x)
  | double x => exact .double (-x)

end Amounts

end Argument

namespace IntegerType

variable {t : IntegerType} {k : Int}

theorem modulus_even (t : IntegerType) : ∃ m : Nat, 0 < m ∧ t.modulus = 2 * m := by
  have bits : t.width.bits = t.width.bits - 1 + 1 := by cases t.width <;> rfl
  refine ⟨2 ^ (t.width.bits - 1), Nat.two_pow_pos _, ?_⟩
  have twice : Nat.pow 2 t.width.bits = 2 * 2 ^ (t.width.bits - 1) := by
    rw [bits, Nat.pow_eq, pow_succ, Nat.mul_comm, Nat.add_sub_cancel]
  exact congrArg Int.ofNat twice

theorem fits_iff : t.fits k = true ↔
    if t.signed then -t.modulus ≤ 2 * k ∧ 2 * k < t.modulus else 0 ≤ k ∧ k < t.modulus := by
  obtain ⟨m, positive, even⟩ := t.modulus_even
  have modulus : Nat.pow 2 t.width.bits = 2 * m := Int.ofNat.inj even
  rw [fits, decide_eq_true_eq, wrap, even, modulus]
  cases t.signed with
  | true =>
    rw [if_pos rfl, if_pos rfl, Int.bmod_eq_iff (by omega)]
    simp
    omega
  | false =>
    rw [if_neg nofun, if_neg nofun]
    constructor
    · intro same
      rw [← same]
      exact ⟨Int.emod_nonneg k (by omega), Int.emod_lt_of_pos k (by omega)⟩
    · rintro ⟨least, most⟩
      exact Int.emod_eq_of_lt least (by omega)

/-- The integers of a type that have their negation in it: zero, and of a signed type all but the
least one. -/
theorem fits_neg (held : t.fits k = true) :
    t.fits (-k) = true ↔ k = 0 ∨ t.signed = true ∧ 2 * k ≠ -t.modulus := by
  obtain ⟨m, positive, even⟩ := t.modulus_even
  rw [fits_iff] at held ⊢
  cases signed : t.signed <;> simp [signed] at held ⊢ <;> omega

end IntegerType

/-! ### Sums of floats -/

namespace Number

open Float.Model (UnpackedFloat)

theorem unpacked_add_comm (format : Float.Model.Format) (u v : UnpackedFloat) :
    UnpackedFloat.add format u v = UnpackedFloat.add format v u := by
  cases u with
  | notANumber => cases v <;> rfl
  | infinity s =>
    cases v with
    | infinity t => cases s <;> cases t <;> rfl
    | _ => rfl
  | zero s =>
    cases v with
    | zero t => cases s <;> cases t <;> rfl
    | _ => rfl
  | finite s m e _ =>
    cases v with
    | finite t k f _ =>
      simp only [UnpackedFloat.add]
      rw [min_comm f e, Int.add_comm]
    | _ => rfl

theorem double_add_comm (x y : Float) : x + y = y + x := by
  show Float.ofModel (.add x.toModel y.toModel) = Float.ofModel (.add y.toModel x.toModel)
  rw [Float.Model.add, Float.Model.add, unpacked_add_comm]

theorem single_add_comm (x y : Float32) : x + y = y + x := by
  show Float32.ofModel (.add x.toModel y.toModel) = Float32.ofModel (.add y.toModel x.toModel)
  rw [Float32.Model.add, Float32.Model.add, unpacked_add_comm]

end Number

namespace Scalar

variable {a : Scalar} {s : StorageType}

/-- A double beside a float is taken to the type of the float, on either side. -/
theorem add_real (typed : a.type? = some s) (float : s.Floating) (c : Float) :
    (a + real c).type? = some s ∧ a + real c = real c + a := by
  obtain ⟨first, second⟩ := common_literal (y := real c) typed float rfl rfl
  have plain := refusal?_of_type? typed
  have left : a + real c = addition.within s a (real c) := by
    refine (apply_eq addition (.inl (by simp [typed]))).trans ?_
    rw [unlessRefused_plain plain rfl, first, reaches_of_type? typed, reaches_real]
    rfl
  have right : real c + a = addition.within s (real c) a := by
    refine (apply_eq addition (.inr (by simp [typed]))).trans ?_
    rw [unlessRefused_plain rfl plain, second, reaches_of_type? typed, reaches_real]
    rfl
  rw [left, right]
  refine ⟨type?_within _ _ _ _, ?_⟩
  rcases float with rfl | rfl | rfl
  · exact congrArg (fun x => Scalar.float16 (Half.roundSingle x)) (Number.single_add_comm _ _)
  · exact congrArg Scalar.float32 (Number.single_add_comm _ _)
  · exact congrArg Scalar.float64 (Number.double_add_comm _ _)

/-- A float is stored in its own type as it is. -/
theorem store_floating (typed : a.type? = some s) (float : s.Floating) : a.store s = a := by
  rcases float with rfl | rfl | rfl <;> cases a <;> first | rfl | cases typed

end Scalar

/-! ### Nodes of floats -/

namespace Node

variable {leaf : Nat → Option (Tensor Scalar)} {n : Node Scalar} {v : Tensor Scalar} {t : Stamp}

/-- A node stands for an array of its extents and its type. -/
structure Holds (leaf : Nat → Option (Tensor Scalar)) (n : Node Scalar) (v : Tensor Scalar) :
    Prop where
  value : n.denote leaf = some v
  conforms : v.Conforms n.signature

/-- A function of every element that keeps the float type. -/
theorem Holds.unary {f : Unary} (holds : n.Holds leaf v) (float : n.type.isFloat = true)
    (shape : t.shape = n.shape) (type : t.type = n.type)
    (keeps : ∀ a : Scalar, a.type? = some n.type.storage →
      (f.value a).type? = some n.type.storage) :
    (Node.apply t (.unary f) [n]).Holds leaf (v.map f.value) := by
  have typed : (v.map f.value).Typed n.type.storage := by
    intro a mem
    rw [Tensor.toList_map] at mem
    obtain ⟨b, inside, rfl⟩ := List.mem_map.mp mem
    exact keeps b (holds.conforms.typed b inside)
  have extents : v.shape = n.shape.extents := holds.conforms.shape
  refine ⟨denote_apply_eq_some.mpr ⟨[v], by simp [Yields, holds.value], ?_⟩, ?_⟩
  · show (v.map f.value).assign t.type.storage t.shape.extents = .ok _
    rw [type, shape, ← extents]
    refine (Tensor.assign_self typed.proper n.type.storage).trans (congrArg Except.ok ?_)
    rw [Tensor.map_map]
    exact Tensor.map_congr fun a mem => Scalar.store_floating (keeps a (holds.conforms.typed a mem))
      (ElementType.storage_floating float)
  · refine ⟨extents.trans (congrArg Shape.extents shape.symm), fun a mem => ?_⟩
    exact (typed a mem).trans (congrArg (fun t => some t.storage) type.symm)

theorem Holds.neg (holds : n.Holds leaf v) (float : n.type.isFloat = true)
    (shape : t.shape = n.shape) (type : t.type = n.type) :
    (Node.apply t (.unary .neg) [n]).Holds leaf (v.map fun a => -a) := by
  refine holds.unary float shape type fun a typed => ?_
  have plain : a.type? ≠ some .bool := by
    rw [typed]
    rcases ElementType.storage_floating float with is | is | is <;> simp [is]
  exact (Scalar.type?_neg plain).trans typed

theorem Holds.addScalar {c : Float} (holds : n.Holds leaf v) (float : n.type.isFloat = true)
    (shape : t.shape = n.shape) (type : t.type = n.type) :
    (Node.apply t (.unary (.addScalar c)) [n]).Holds leaf (v.map fun a => a + real c) :=
  holds.unary float shape type fun _ typed =>
    (Scalar.add_real typed (ElementType.storage_floating float) c).1

end Node

/-! ### Calls -/

namespace Expression

open Session (Accepts)

variable {s : Session Scalar} {w : World Scalar} {n : Node Scalar} {a : Amount}
variable {b c : Argument Scalar} {x : Float}

/-- A call answers the sum of a node and a double. The operator has the double for its parameter;
where the graph holds an equal application already, that may be the other zero. -/
def Adds (call : SessionM Scalar (Argument Scalar)) (s : Session Scalar) (w : World Scalar)
    (n : Node Scalar) (x : Float) : Prop :=
  ∃ t y s', call s = .ok (.node (.apply t (.unary (.addScalar y)) [n])) s' ∧
    (x = y ∨ Zeros.Opposite x y) ∧ (w.graph.found? (.unary (.addScalar x)) [n] = none → x = y) ∧
    ∀ leaf v, n.Holds leaf v →
      (Node.apply t (.unary (.addScalar y)) [n]).Holds leaf (v.map fun e => e + real y)

/-- A call answers a double plus the negation of a node. -/
def AddsNegated (call : SessionM Scalar (Argument Scalar)) (s : Session Scalar)
    (n : Node Scalar) (x : Float) : Prop :=
  ∃ t u y s',
    call s = .ok (.node (.apply t (.unary (.addScalar y)) [.apply u (.unary .neg) [n]])) s' ∧
    (x = y ∨ Zeros.Opposite x y) ∧
    ∀ leaf v, n.Holds leaf v →
      (Node.apply t (.unary (.addScalar y)) [.apply u (.unary .neg) [n]]).Holds leaf
        (v.map fun e => real y + -e)

theorem addScalar_adds (accepts : s.Accepts w n) (float : n.type.isFloat = true) (x : Float) :
    Adds (unary (.unary (.addScalar x)) (.node n)) s w n x := by
  obtain ⟨t, y, s', _, ran, shape, type, same, fresh, _⟩ := unary_alike (.inl rfl) accepts
    fun y _ => if_pos (by simp [Node.signature, float])
  exact ⟨t, y, s', ran, same, fresh, fun _ _ holds => holds.addScalar float shape type⟩

theorem addScalar_neg_adds (accepts : s.Accepts w n) (float : n.type.isFloat = true) (x : Float) :
    AddsNegated (do unary (.unary (.addScalar x)) (← neg (.node n))) s n x := by
  obtain ⟨u, s₁, w₁, negates, shape, type, accepts₁⟩ := Combination.neg_accepted accepts
  have float₁ : (Node.apply u (.unary .neg) [n]).type.isFloat = true :=
    (congrArg ElementType.isFloat type).trans float
  obtain ⟨t, y, s', ran, same, _, values⟩ := addScalar_adds accepts₁ float₁ x
  refine ⟨t, u, y, s', (run_bind negates).trans ran, same, fun leaf v holds => ?_⟩
  have sums := values leaf _ (holds.neg float shape type)
  have same : (v.map fun e => -e).map (fun e => e + real y) = v.map fun e => real y + -e := by
    rw [Tensor.map_map]
    refine Tensor.map_congr fun e mem => ?_
    have typed := (holds.neg float shape type).conforms.typed (-e)
      (by rw [Tensor.toList_map]; exact List.mem_map_of_mem mem)
    exact (Scalar.add_real typed (ElementType.storage_floating float₁) y).2
  rwa [same] at sums

/-- A node minus a number is the sum of the node and the number negated in what it is stored in. -/
theorem sub_eq_withReal (number : b.isNumber = true) :
    sub (.node n) b = withReal .addScalar b.negated (.node n) := by
  simp only [sub, Argument.node?, number, if_true]

theorem add_eq_withReal (number : b.isNumber = true) :
    add (.node n) b = withReal .addScalar b (.node n) := by
  simp only [add, folding, Argument.node?, number, if_true]

theorem withReal_eq (read : b.toReal = .ok x) :
    withReal .addScalar b (.node n) = unary (.unary (.addScalar x)) (.node n) :=
  funext fun _ => withReal_ok read (.node n)

/-- A number minus a node is the sum of the negated node and the number. -/
theorem sub_node_eq (is : b.Amounts a) (read : a.toReal = .ok x) :
    sub b (.node n) = (do unary (.unary (.addScalar x)) (← neg (.node n))) := by
  have unfolded : sub b (.node n) = (do
      let c ← realOf b
      unary (.unary (.addScalar c)) (← neg (.node n))) := by
    cases is <;> rfl
  rw [unfolded]
  exact funext fun _ => run_bind (realOf_ok (is.toReal read))

/-- A number subtracted from a node of floats is added with the other sign, just as its negation is,
if that fits what the number is stored in; and a node of floats subtracted from a number is negated
and added to it. A stored integer is in any case added as its wrapped negation, which is another
number unless it is zero or of a signed type and not the least one. -/
theorem sub_number (accepts : s.Accepts w n) (float : n.type.isFloat = true) (is : b.Amounts a)
    (read : a.toReal = .ok x) :
    (b.Negates → ∃ y, a.neg.toReal = .ok y ∧ Adds (sub (.node n) b) s w n y ∧
      ∀ c : Argument Scalar, c.Amounts a.neg → sub (.node n) b = add (.node n) c) ∧
    AddsNegated (sub b (.node n)) s n x ∧
    ∀ t k, b = .scalar (.int t k) →
      sub (.node n) b = add (.node n) (.scalar (.int t (t.wrap (-k)))) ∧
      (t.fits k = true → (b.Negates ↔ k = 0 ∨ t.signed = true ∧ 2 * k ≠ -t.modulus)) := by
  refine ⟨fun negates => ?_, ?_, ?_⟩
  · obtain ⟨y, opposite⟩ := a.toReal_neg read
    have built : sub (.node n) b = unary (.unary (.addScalar y)) (.node n) :=
      (sub_eq_withReal is.isNumber).trans (withReal_eq ((is.negated negates).toReal opposite))
    refine ⟨y, opposite, built ▸ addScalar_adds accepts float y, fun c amounts => ?_⟩
    rw [built, add_eq_withReal amounts.isNumber, withReal_eq (amounts.toReal opposite)]
  · rw [sub_node_eq is read]
    exact addScalar_neg_adds accepts float x
  · rintro t k rfl
    exact ⟨(sub_eq_withReal rfl).trans (add_eq_withReal rfl).symm, IntegerType.fits_neg⟩

end Expression

/-! ### An example -/

namespace Sample

open Session (onGraph)
open Expression World

def byte : IntegerType := ⟨false, .w8⟩

/-- A vector of one double. -/
def ten : Node Scalar :=
  .leaf ⟨0, 0, .vector 1 Nat.one_pos, .float64, some 0, .ofBool false, none⟩ (.constant 10)

/-- The world in which the vector has been built. -/
def tenBuilt : World Scalar :=
  let w : World Scalar := start 0 { type := .float64 }
  w.next (.constant ten.shape (.constant 10) (.ok none) none) (.node ten) (w.graph.recorded ten)

/-- The session of that world. -/
def withTen : Session Scalar :=
  after ((do
    let serial ← Session.addGraph { type := .float64 }
    onGraph serial (Graph.constant ten.shape (.constant 10) (.ok none) none) :
      SessionM Scalar (Node Scalar)) {})

theorem withTen_accepts : withTen.Accepts tenBuilt ten where
  reachable := .next (.start 0 _) (fun _ inside => nomatch inside) rfl
  inside := by decide +kernel
  graph := rfl
  known := .inr rfl
  used := rfl

/-- An integer without a storage type is subtracted as a signed byte of the other sign is added, and
a byte minus the vector is the byte plus the negated vector. -/
theorem ten_minus_five : sub (.node ten) (.int 5) =
      (add (.node ten) (.scalar (.int ⟨true, .w8⟩ (-5))) : SessionM Scalar (Argument Scalar)) ∧
    ∃ x, Number.ofInt? 5 = some x ∧
      AddsNegated (sub (.scalar (.int byte 5)) (.node ten)) withTen ten x := by
  obtain ⟨x, held⟩ := Option.isSome_iff_exists.mp
    (show (Number.ofInt? 5).isSome = true by decide +kernel)
  have read := Argument.intToReal_eq_ok.mpr held
  obtain ⟨plain, -, -⟩ := sub_number withTen_accepts rfl (.int 5) read
  obtain ⟨-, swapped, -⟩ := sub_number withTen_accepts rfl (.stored byte 5) read
  obtain ⟨_, _, _, same⟩ := plain trivial
  exact ⟨same _ (.stored ⟨true, .w8⟩ (-5)), x, held, swapped⟩

/-- What a node answers that a call builds beside the vector, after a forward pass. -/
def answeredTen (x : SessionM Scalar (Argument Scalar)) : List Scalar :=
  match (do
    match ← x with
    | .node n => onGraph n.graph (do Graph.forward; Graph.value (.node n))
    | _ => throw .type : SessionM Scalar (Tensor Scalar)) withTen with
  | .ok t _ => t.toList
  | .error _ _ => []

/-- Ten minus an unsigned byte of five is not five but 261, and ten minus the least signed byte is
not 138 but minus 118. -/
theorem bytes_wrap :
    (answeredTen (sub (.node ten) (.scalar (.int byte 5)))).map (Scalar.eq (.real 261.0)) =
      [true] ∧
    (answeredTen (add (.node ten) (.int (-5)))).map (Scalar.eq (.real 5.0)) = [true] ∧
    (answeredTen (sub (.node ten) (.scalar (.int ⟨true, .w8⟩ (-128))))).map
      (Scalar.eq (.real (-118.0))) = [true] ∧
    (answeredTen (add (.node ten) (.int 128))).map (Scalar.eq (.real 138.0)) = [true] := by
  decide +kernel

end Sample

end ReverseMode
