import ReverseMode.Proofs.Fractions
import ReverseMode.Proofs.StoredLiterals
import ReverseMode.Proofs.TopEntries

/-!
Indices that are handed in as literals.

A literal among the indices becomes a constant of 32-bit integers before anything is looked up.
Whether a call is accepted depends on the shape of the literal only, and what is looked up are the
integers that are stored for its entries, counted from the end of the axis if they are negative. One
that is off the axis stands for no place.
-/

namespace ReverseMode

open scoped Element Scalar

/-! ### Literals as constants -/

/-- A constant whose value are the entries of a literal, stored with 32 bits. -/
def Node.Keeps (k : Node Scalar) (content : Literal) : Prop :=
  ∃ t init, k = .leaf t init ∧ t.type = .index ∧ t.shape.extents = content.shape ∧
    ∀ random, init.run t.shape t.type random = (content.store .index).map fun b => (b, random)

/-- The value of a leaf that is as large as the literal that it is made of. -/
theorem run_ofLiteral {content : Literal} {r : Shape} (extents : r.extents = content.shape)
    (sized : Initializer.checkSize content.size r = .ok ()) (type : ElementType)
    (random : Random) : (Initializer.ofLiteral content : Initializer Scalar).run r type random =
      (content.store type).map fun b => (b, random) := by
  have laid : content.entries.reshape r.extents = .ok content.entries :=
    extents ▸ Tensor.reshape_self content.entries
  have literal (b : Tensor Scalar) : b.map (Element.literal (α := Scalar)) = b :=
    Tensor.ext_get rfl fun pos inside => Tensor.get_map _ inside
  show (do
    Initializer.checkSize content.size r
    let laid ← content.entries.reshape r.extents
    let stored ← Literal.store type ⟨content.type, laid⟩
    pure (stored.map Element.literal, random)) = _
  rw [sized, laid]
  show (content.store type >>= fun stored => pure (stored.map Element.literal, random)) = _
  cases content.store type with
  | error f => rfl
  | ok b => exact congrArg (fun b => Except.ok (b, random)) (literal b)

namespace Expression

open Session (Accepts lift onGraph onGraph_answer)

variable {s s' : Session Scalar} {w : World Scalar} {n : Node Scalar} {lit v : Argument Scalar}
  {content : Literal} {r : Shape}

theorem answer_lift {β : Type} {e : Except Fault β} {b : β} :
    (lift e : SessionM Scalar β) s = .ok b s' ↔ e = .ok b ∧ s = s' := by
  cases e with
  | ok c => exact answer_pure.trans (by simp)
  | error f => simp [lift, not_answer_throw]

theorem indexNode_literal (literal : lit.node? = none) (n : Node Scalar) :
    indexNode lit (.node n) = (do
      let content ← lift lit.toLiteral
      let shape ← lift (Shape.ofNats content.shape)
      pure (.node (← constantLike n shape (.ofLiteral content) .index))) := by
  cases lit with
  | node m => cases literal
  | _ => rfl

/-- A literal among the indices becomes a new constant. -/
theorem indexNode_answers (accepts : s.Accepts w n) (literal : lit.node? = none)
    (read : lit.toLiteral = .ok content) (shaped : Shape.ofNats content.shape = .ok r)
    (sized : Initializer.checkSize content.size r = .ok ()) : ∃ k s' w',
      indexNode lit (.node n) s = .ok (.node k) s' ∧ k.Keeps content ∧
        k.signature = ⟨r, .index⟩ ∧ (∀ m, s.Accepts w m → s'.Accepts w' m) ∧ s'.Accepts w' k ∧
        k.id + 1 = w'.graph.slots.size := by
  have extents : r.extents = content.shape := (Shape.ofNats_eq_ok.mp shaped).symm
  have held : Graph.checkHeld (Initializer.ofLiteral content : Initializer Scalar) r = .ok () :=
    sized
  obtain ⟨t, s', w', ran, rfl, type, kept, new, newest⟩ :=
    constantLike_answers accepts held .index
  have built : indexNode lit (.node n) s = .ok (.node (.leaf t (.ofLiteral content))) s' := by
    rw [indexNode_literal literal, run_bind (answer_lift.mpr ⟨read, rfl⟩),
      run_bind (answer_lift.mpr ⟨shaped, rfl⟩), run_bind ran]
    rfl
  have value : ∀ random, (Initializer.ofLiteral content).run t.shape t.type random =
      (content.store .index).map fun b => (b, random) := by
    intro random
    rw [type]
    exact run_ofLiteral extents sized .index random
  exact ⟨_, s', w', built, ⟨t, _, rfl, type, extents, value⟩, congrArg (Signature.mk t.shape) type,
    kept, new, newest⟩

/-- Whatever becomes an index constant is a literal with a shape and as many entries. -/
theorem of_indexNode (literal : lit.node? = none) (ran : indexNode lit (.node n) s = .ok v s') :
    ∃ content r, lit.toLiteral = .ok content ∧ Shape.ofNats content.shape = .ok r ∧
      Initializer.checkSize content.size r = .ok () := by
  rw [indexNode_literal literal] at ran
  obtain ⟨content, _, read, ran⟩ := answer_bind.mp ran
  obtain ⟨r, _, shaped, ran⟩ := answer_bind.mp ran
  obtain ⟨k, _, built, _⟩ := answer_bind.mp ran
  obtain ⟨g, made, _⟩ := onGraph_answer.mp built
  exact ⟨content, r, (answer_lift.mp read).1, (answer_lift.mp shaped).1,
    (Graph.constant_answer.mp made).1⟩

/-- The functions that look elements up at indices. -/
inductive Search where
  | gather (axis : Argument Scalar)
  | indexSelect (axis : Argument Scalar)
  | rows
  | cols
  | crossEntropy (smoothing : Argument Scalar)

namespace Search

/-- The operator of a function. -/
def lookup : Search → Except Fault Lookup
  | gather axis => .ok (.gather axis.toAxis)
  | indexSelect axis => .ok (.indexSelect axis.toAxis)
  | rows => .ok (.indexSelect (.int 0 : Argument Scalar).toAxis)
  | cols => .ok (.indexSelect (.int (-1) : Argument Scalar).toAxis)
  | crossEntropy smoothing => smoothing.toReal.map .crossEntropy

/-- A call of a function by its name. -/
def call (f : Search) (n : Node Scalar) (indices : Argument Scalar) :
    SessionM Scalar (Argument Scalar) :=
  match f with
  | gather axis => Expression.call "gather" ⟨[.node n, axis, indices], []⟩
  | indexSelect axis => Expression.call "index_select" ⟨[.node n, axis, indices], []⟩
  | rows => Expression.call "rows" ⟨[.node n, indices], []⟩
  | cols => Expression.call "cols" ⟨[.node n, indices], []⟩
  | crossEntropy smoothing => Expression.call "cross_entropy" ⟨[.node n, indices, smoothing], []⟩

/-- The indices become a node, and the operator is applied to both nodes. -/
theorem call_eq (f : Search) (n : Node Scalar) (indices : Argument Scalar) :
    f.call n indices = (do
      let k ← indexNode indices (.node n)
      let l ← lift f.lookup
      applyOn n l.operator [.node n, k]) := by
  cases f with
  | crossEntropy smoothing =>
    have read : (crossEntropy smoothing).lookup = smoothing.toReal.map .crossEntropy := rfl
    show Expression.crossEntropy (.node n) indices smoothing = _
    rw [read]
    unfold Expression.crossEntropy realOf
    cases smoothing.toReal <;> rfl
  | _ => rfl

/-- Whatever is answered is the operator applied to the node and to a constant for the literal. -/
theorem of_call (f : Search) (accepts : s.Accepts w n) (literal : lit.node? = none)
    (ran : f.call n lit s = .ok v s') : ∃ content l k t, lit.toLiteral = .ok content ∧
      f.lookup = .ok l ∧ k.Keeps content ∧ v = .node (.apply t l.operator [n, k]) ∧
      l.operator.infer [n.signature, k.signature] = .ok ⟨t.shape, t.type⟩ := by
  rw [call_eq] at ran
  obtain ⟨_, s₁, indexed, ran⟩ := answer_bind.mp ran
  obtain ⟨content, r, read, shaped, sized⟩ := of_indexNode literal indexed
  obtain ⟨k, _, w₁, indexed', keeps, -, kept, new, newest⟩ :=
    indexNode_answers accepts literal read shaped sized
  cases indexed.symm.trans indexed'
  obtain ⟨l, _, chosen, ran⟩ := answer_bind.mp ran
  obtain ⟨named, rfl⟩ := answer_lift.mp chosen
  have accepts' := kept n accepts
  have others : ∀ m ∈ [n, k], s₁.Accepts w₁ m := by simpa using ⟨accepts', new⟩
  cases inferred : l.operator.infer ([n, k].map Node.signature) with
  | error f =>
    obtain ⟨_, raised⟩ := applyOn_refused l.operator [n, k] accepts' others inferred
    cases ran.symm.trans raised
  | ok t =>
    -- the constant is new, so no application of it is found
    have wf := new.reachable.invariant.sound.toWellFormed
    obtain ⟨_, _, ran', fresh⟩ := applyOn_answers l.operator [n, k] accepts' others inferred
    cases ran.symm.trans ran'
    obtain ⟨st, rfl⟩ := fresh (Graph.unfound_of_newest wf (by simp) newest)
    have own : l.operator.isCustom = false := by cases l <;> rfl
    obtain ⟨st', p, same, inferred', -⟩ := applyOn_alike [n, k] own accepts' others ran
    cases same
    exact ⟨content, l, k, st, read, named, keeps, rfl, inferred'⟩

/-- Where the shape of the literal fits, the call is answered, whatever the entries are. -/
theorem call_answers (f : Search) (accepts : s.Accepts w n) (literal : lit.node? = none)
    (read : lit.toLiteral = .ok content) {l : Lookup} (named : f.lookup = .ok l)
    (shaped : Shape.ofNats content.shape = .ok r) (few : content.size < 2 ^ 63) {t : Signature}
    (inferred : l.operator.infer [n.signature, ⟨r, .index⟩] = .ok t) :
    ∃ v s', f.call n lit s = .ok v s' := by
  have extents : content.shape = r.extents := Shape.ofNats_eq_ok.mp shaped
  have sized : Initializer.checkSize content.size r = .ok () := by
    have size : content.size = r.elements := content.entries.size_eq.trans (congrArg volume extents)
    have fits : IntegerType.int64.fits r.elements = true :=
      IntegerType.fits_int64.mpr (by omega)
    refine if_pos ?_
    rw [Initializer.needed, IntegerType.wrap_of_fits fits, size]
  obtain ⟨k, s₁, w₁, indexed, -, signature, kept, new, -⟩ :=
    indexNode_answers accepts literal read shaped sized
  have accepts' := kept n accepts
  have others : ∀ m ∈ [n, k], s₁.Accepts w₁ m := by simpa using ⟨accepts', new⟩
  have inferred : l.operator.infer ([n, k].map Node.signature) = .ok t := by
    rw [List.map_cons, List.map_singleton, signature, inferred]
  obtain ⟨v, s', ran, -⟩ := applyOn_answers l.operator [n, k] accepts' others inferred
  refine ⟨v, s', ?_⟩
  rw [call_eq, run_bind indexed, run_bind (answer_lift.mpr ⟨named, rfl⟩)]
  exact ran

end Search

/-! ### What is looked up -/

/-- A node that stands for what is looked up in another one at the integers that are stored for a
literal. -/
def Finds (l : Lookup) (content : Literal) (n k u : Node Scalar) : Prop :=
  ∀ leaf a b, n.denote leaf = some a → a.shape = n.shape.extents → a.HeldIn n.type.storage →
    a.size < 2 ^ 63 → content.store .index = .ok b → k.denote leaf = some b →
    ∃ m : Tensor Int, b = m.stored .int32 ∧ content.Indexed m ∧
      (∀ f, l.axis.resolve n.shape.rank = .error f → u.denote leaf = none) ∧
      ∀ i, l.axis.resolve n.shape.rank = .ok i →
        ((∃ y, u.denote leaf = some y) ↔ ∀ j ∈ m.toList, OnAxis (n.shape.extent i) j) ∧
        ∀ y, u.denote leaf = some y → l.Looks u.signature i a m y

theorem finds_of_apply {l : Lookup} {k : Node Scalar} {t : Stamp} (plain : content.Plain)
    (keeps : k.Keeps content)
    (inferred : l.operator.infer [n.signature, k.signature] = .ok ⟨t.shape, t.type⟩) :
    Finds l content n k (.apply t l.operator [n, k]) := by
  intro leaf a b value shape held few stored index
  have shape : a.shape = n.signature.shape.extents := shape
  have held : a.HeldIn n.signature.type.storage := held
  obtain ⟨m, rfl, indexed⟩ := Literal.indexed_store plain stored
  have indices : m.shape = k.signature.shape.extents := by
    obtain ⟨st, init, rfl, -, extents, -⟩ := keeps
    exact indexed.shape.trans extents.symm
  have denotes (y : Tensor Scalar) : (Node.apply t l.operator [n, k]).denote leaf = some y ↔
      l.operator.forward t.type.storage t.shape.extents [a, m.stored .int32] = .ok y := by
    have view : l.operator.isView = false := by cases l <;> rfl
    have yields : Yields (Node.denote leaf) [n, k] [a, m.stored .int32] := by
      simp [Yields, value, index]
    rw [Node.denote_apply_eq_some]
    constructor
    · rintro ⟨ts, yields', made⟩
      rw [yields'.unique yields, Operator.result, view] at made
      exact made
    · intro made
      refine ⟨_, yields, ?_⟩
      rw [Operator.result, view]
      exact made
  refine ⟨m, rfl, indexed, fun f unresolved => ?_, fun i resolved => ?_⟩
  · refine Option.eq_none_iff_forall_ne_some.mpr fun y shown => ?_
    have unresolved : l.axis.resolve n.signature.shape.rank = .error f := unresolved
    exact Lookup.forward_unresolved shape unresolved inferred ((denotes y).mp shown)
  · have extent : a.extent i = n.shape.extent i := congrArg (fun e => e.getD i 1) shape
    have resolved : l.axis.resolve n.signature.shape.rank = .ok i := resolved
    obtain ⟨answers, looks⟩ := Lookup.forward_iff shape held indices indexed.fits resolved inferred
      few
    rw [extent] at answers
    exact ⟨(exists_congr denotes).trans answers, fun y shown => looks y ((denotes y).mp shown)⟩

/-- Literal indices are looked up as the integers that are stored for them with 32 bits, counted
from the end of the axis if they are negative, and one that is off the axis leaves the output
without a value. A call is accepted for the shape of the literal, whatever its entries are. Of
numbers in lists the integer part is stored where 32 bits hold it, so integers that fit are looked
up as they are given; but a fraction is cut, and an integer of 64 bits that does not fit wraps. So
it is with the numbers of an array. -/
theorem literal_indices (f : Search) (accepts : s.Accepts w n) (literal : lit.node? = none)
    (read : lit.toLiteral = .ok content) :
    (∀ l r t, f.lookup = .ok l → Shape.ofNats content.shape = .ok r → content.size < 2 ^ 63 →
      l.operator.infer [n.signature, ⟨r, .index⟩] = .ok t → ∃ v s', f.call n lit s = .ok v s') ∧
    (content.Plain → ∀ v s', f.call n lit s = .ok v s' → ∃ l k u, f.lookup = .ok l ∧
      k.Keeps content ∧ v = .node u ∧ Finds l content n k u) ∧
    (∀ given, lit.listed? = some given → content.Plain ∧ ∀ m, content.Indexed m →
      List.Forall₂ (fun x j => ∀ z, x.part? = some z → IntegerType.int32.fits z = true → j = z)
        given m.toList) ∧
    (∀ zs : List Int, lit.listed? = some (zs.map .whole) →
      (∀ z ∈ zs, IntegerType.int64.fits z = true) →
      ∀ m, content.Indexed m → m.toList = zs.map IntegerType.int32.wrap) ∧
    (∀ type values, lit = .array type values → values.HeldIn type → content.Plain ∧
      ∀ m, content.Indexed m → List.Forall₂ Scalar.Taken values.toList m.toList) := by
  refine ⟨fun l r t named shaped few inferred => ?_, fun plain v s' ran => ?_,
    fun given listed => ?_, fun zs listed fits m indexed => ?_, fun type values is held => ?_⟩
  · exact f.call_answers accepts literal read named shaped few inferred
  · obtain ⟨content', l, k, t, read', named, keeps, rfl, inferred⟩ := f.of_call accepts literal ran
    obtain rfl := Except.ok.inj (read.symm.trans read')
    exact ⟨l, k, _, named, keeps, rfl, finds_of_apply plain keeps inferred⟩
  · obtain ⟨plain, stands⟩ := Argument.toLiteral_listed listed read
    exact ⟨plain, fun m indexed => indexed.parts stands⟩
  · exact indexed.wraps (Argument.toLiteral_wholes listed fits read)
  · subst is
    obtain ⟨read', plain⟩ := Argument.toLiteral_array held
    obtain rfl := Except.ok.inj (read.symm.trans read')
    exact ⟨plain, fun m indexed => indexed.array rfl⟩

end Expression

namespace Sample

open Session (onGraph)
open Expression

/-- The last place of three, and the first one counted from the end. -/
def outermost : Argument Scalar := .list [.int 2, .int (-3)]

/-- The array that they are read as. -/
def readOutermost : Literal :=
  ⟨.number (.int .int64), ⟨[2], #[.number (.int .int64 2), .number (.int .int64 (-3))], rfl⟩⟩

/-- The last and the first of three places are picked as they are given. -/
theorem outermost_picked : ∃ l k u s', Search.rows.lookup = .ok l ∧ k.Keeps readOutermost ∧
    Search.rows.call trio outermost lining = .ok (.node u) s' ∧ Finds l readOutermost trio k u ∧
    ∀ m, readOutermost.Indexed m → m.toList = [2, -3] := by
  have literal : outermost.node? = none := rfl
  have read : outermost.toLiteral = .ok readOutermost := rfl
  obtain ⟨answers, finds, listed, wraps, -⟩ :=
    Expression.literal_indices .rows lining_accepts literal read
  have fits : ∀ z ∈ [(2 : Int), -3], IntegerType.int64.fits z = true := by decide
  have wholes : outermost.listed? = some (([2, -3] : List Int).map .whole) := rfl
  let rows : Lookup := .indexSelect (.int 0 : Argument Scalar).toAxis
  have named : Search.rows.lookup = .ok rows := rfl
  let pair : Shape := .vector 2 (by decide)
  have shaped : Shape.ofNats readOutermost.shape = .ok pair := rfl
  have inferred : rows.operator.infer [trio.signature, ⟨pair, .index⟩] = .ok ⟨pair, .int32⟩ := rfl
  obtain ⟨v, s', ran⟩ := answers rows pair _ named shaped (by decide) inferred
  obtain ⟨l, k, u, named, keeps, rfl, found⟩ := finds (listed _ wholes).1 v s' ran
  exact ⟨l, k, u, s', named, keeps, ran, found, wraps [2, -3] wholes fits⟩

/-- Ten, twenty and thirty. -/
def tens : Literal :=
  ⟨.number (.int .int64), ⟨[3], #[.number (.int .int64 10), .number (.int .int64 20),
    .number (.int .int64 30)], rfl⟩⟩

/-- What is picked of ten, twenty and thirty by literal indices in a forward pass. -/
def pickedOfTens (indices : Argument Scalar) : Option (List Scalar) :=
  match (do
    let serial ← Session.addGraph { type := .int32 }
    let n ← onGraph serial (Graph.constant ⟨[3], trio_extents⟩ (.ofLiteral tens) (.ok none) none)
    match ← Search.rows.call n indices with
    | .node u => onGraph u.graph (do Graph.forward; Graph.value (.node u))
    | _ => throw .type : SessionM Scalar (Tensor Scalar)) {} with
  | .ok t _ => some t.toList
  | .error _ _ => none

/-- One and a half picks the second place, and so does an integer that is far beyond the axis. -/
theorem twenty_picked :
    (pickedOfTens (.list [.real 1.5])).map (List.map (Scalar.eq (.whole 20))) = some [true] ∧
    (pickedOfTens (.list [.int (2 ^ 32 + 1)])).map (List.map (Scalar.eq (.whole 20))) =
      some [true] := by
  decide +kernel

end Sample

end ReverseMode
