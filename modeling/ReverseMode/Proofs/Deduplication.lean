import ReverseMode.Proofs.Kinds
import ReverseMode.Proofs.Values

/-!
Applications that are given again.

Construction answers an application that is on the tape already where kind, parameters and inputs
are the same. Such an application computes what the call asks for, value and gradients, unless
two parameters of the operators are the two zeros: these count as one number, but an operator
can tell them apart.
-/

namespace ReverseMode

variable {α : Type}

namespace Operator

/-- The functions that a caller has supplied. -/
def rules : Operator α → List (Rule α)
  | custom _ _ forward backward _ => forward :: backward.toList
  | _ => []

/-- The functions of two operators have names, which tell them apart. -/
structure ToldApart (p q : Operator α) : Prop where
  named : ∀ r ∈ p.rules ++ q.rules, r.name ≠ ""
  apart : ∀ r ∈ p.rules, ∀ r' ∈ q.rules, r.name = r'.name → r = r'

/-- Parameters at one place of two operators are the two zeros. -/
def ZerosDiffer (p q : Operator α) : Prop :=
  ∃ pair ∈ p.parameters.zip q.parameters, Parameter.Opposite pair.1 pair.2

/-- Two operators compute the same from inputs of these signatures: the same view or value in a
buffer of any type and shape, and the same contributions to the gradients. -/
structure Agree [Element α] (p q : Operator α) (inputs : List Signature) : Prop where
  isView : p.isView = q.isView
  differentiable : p.differentiable = q.differentiable
  viewOf : ∀ ts : List (Tensor α), ts.map Tensor.shape = inputs.map (·.shape.extents) →
    p.viewOf ts = q.viewOf ts
  forward : ∀ (type : StorageType) (shape : List Nat) (ts : List (Tensor α)),
    ts.map Tensor.shape = inputs.map (·.shape.extents) →
    p.forward type shape ts = q.forward type shape ts
  contributions : ∀ (ts : List (Tensor α)) (out g : Tensor α) (wanted : List Bool),
    ts.map Tensor.shape = inputs.map (·.shape.extents) →
    p.contributions ts out g wanted = q.contributions ts out g wanted

/-- The axis that an operator works along. -/
def axis? : Operator α → Option Axis
  | reduce _ a | scalarProduct a | softmax a | logSoftmax a | topK _ a _ _ | concatenate a
  | slice a _ | indexSelect a | gather a => some a
  | _ => none

/-! ### Operators without texts -/

theorem unary_eq {f f' : Unary} (blank : (unary f : Operator α).blank = (unary f' : Operator α).blank)
    (parameters : (unary f : Operator α).parameters = (unary f' : Operator α).parameters) :
    f = f' := by
  cases f <;> cases f' <;> try first | rfl | cases blank
  all_goals
    cases parameters
    rfl

theorem joint_eq {f f' : Joint} (blank : (joint f : Operator α).blank = (joint f' : Operator α).blank)
    (parameters : (joint f : Operator α).parameters = (joint f' : Operator α).parameters) :
    f = f' := by
  cases f <;> cases f' <;> try first | rfl | cases blank
  next r r' =>
    have name := Parameter.text.inj (List.cons.inj parameters).1
    cases r <;> cases r' <;> first | rfl | exact absurd name (by decide)

theorem flag_inj {b c : Bool} (same : Parameter.flag b = Parameter.flag c) : b = c := by
  cases b <;> cases c <;> first | rfl | cases same

theorem type_inj {t t' : ElementType} (same : t.name = t'.name) : t = t' := by
  cases t <;> cases t' <;> first | rfl | exact absurd same (by decide)

theorem map_some_inj {ns ns' : List Int} (same : ns.map some = ns'.map some) : ns = ns' :=
  Function.Injective.list_map (fun _ _ => Option.some.inj) same

/-- Operators that hold neither an axis nor functions are determined by kind and parameters. -/
theorem eq_of_key {p q : Operator α} (blank : p.blank = q.blank)
    (parameters : p.parameters = q.parameters) (memoize : p.memoize = true) (none : p.axis? = none)
    (own : p.isCustom = false) : p = q := by
  cases p with
  | unary f =>
    cases q with
    | unary f' => rw [unary_eq blank parameters]
    | _ => cases blank
  | joint f =>
    cases q with
    | joint f' => rw [joint_eq blank parameters]
    | _ => cases blank
  | clipGradient c =>
    cases q with
    | clipGradient c' =>
      cases parameters
      rfl
    | _ => cases blank
  | stopGradient =>
    cases q with
    | stopGradient => rfl
    | _ => cases blank
  | cast t =>
    cases q with
    | cast t' => rw [type_inj (Parameter.text.inj (List.cons.inj parameters).1)]
    | _ => cases blank
  | crossEntropy x =>
    cases q with
    | crossEntropy x' =>
      cases parameters
      rfl
    | _ => cases blank
  | layerNorm x =>
    cases q with
    | layerNorm x' =>
      cases parameters
      rfl
    | _ => cases blank
  | matMul transA transB scalar batched =>
    cases q with
    | matMul transA' transB' scalar' batched' =>
      simp only [Operator.parameters, List.cons.injEq, Parameter.real.injEq, and_true] at parameters
      obtain ⟨left, right, rfl, kind⟩ := parameters
      rw [flag_inj left, flag_inj right, flag_inj kind]
    | _ => cases blank
  | transpose axes =>
    cases q with
    | transpose axes' =>
      rw [map_some_inj (Parameter.numbers.inj (List.cons.inj parameters).1)]
    | _ => cases blank
  | reshape shape =>
    cases q with
    | reshape shape' =>
      rw [map_some_inj (Parameter.numbers.inj (List.cons.inj parameters).1)]
    | _ => cases blank
  | unspecified shaped =>
    cases q with
    | unspecified shaped' =>
      cases blank
      rfl
    | _ => cases blank
  | debug => cases memoize
  | custom => cases own
  | _ => cases none

section Agree

variable [Element α]

theorem Agree.refl (p : Operator α) (inputs : List Signature) : Agree p p inputs :=
  ⟨rfl, rfl, fun _ _ => rfl, fun _ _ _ _ => rfl, fun _ _ _ _ _ => rfl⟩

/-! ### Operators along an axis -/

/-- Axes with one key are resolved alike. -/
theorem resolve_of_parameter {a b : Axis} (same : axisParameter a = axisParameter b) :
    a.resolve = b.resolve := by
  obtain ⟨m, text, plain⟩ := a
  obtain ⟨n, text', plain'⟩ := b
  cases m with
  | none =>
    cases n with
    | none =>
      funext rank
      exact congrArg (fun t => Except.error (Fault.axisNotInteger t)) (Parameter.text.inj same)
    | some n => cases same
  | some m =>
    cases n with
    | none => cases same
    | some n =>
      cases Parameter.number.inj same
      rfl

/-- The operator along another axis. -/
def along (axis : Axis) : Operator α → Operator α
  | reduce r _ => reduce r axis
  | scalarProduct _ => scalarProduct axis
  | softmax _ => softmax axis
  | logSoftmax _ => logSoftmax axis
  | topK k _ descending indices => topK k axis descending indices
  | concatenate _ => concatenate axis
  | slice _ selection => slice axis selection
  | indexSelect _ => indexSelect axis
  | gather _ => gather axis
  | op => op

omit [Element α] in
theorem along_self {p : Operator α} {a : Axis} (axis : p.axis? = some a) : p.along a = p := by
  cases p <;> cases axis <;> rfl

omit [Element α] in
/-- Operators along an axis have no real parameters, unless they select places. -/
theorem real_notMem_parameters {p : Operator α} {a : Axis} {x : Float} (axis : p.axis? = some a)
    (whole : ∀ s, p ≠ slice a s) : .real x ∉ p.parameters := by
  have place (b : Axis) : axisParameter b ≠ .real x := by
    unfold axisParameter
    split <;> nofun
  cases p with
  | slice _ s =>
    cases axis
    exact absurd rfl (whole s)
  | reduce | scalarProduct | softmax | logSoftmax | topK | concatenate | indexSelect | gather =>
    simp [Operator.parameters, (place _).symm, Parameter.flag]
  | _ => cases axis

/-- An operator computes the same along one axis, however the axis is written. -/
theorem agree_along {p : Operator α} {a b : Axis} {inputs : List Signature}
    (axis : p.axis? = some a) (resolve : a.resolve = b.resolve) (whole : ∀ s, p ≠ slice a s) :
    Agree p (p.along b) inputs := by
  cases p with
  | reduce r =>
    cases axis
    refine ⟨rfl, rfl, fun _ _ => rfl, fun type shape ts _ => ?_, fun ts out g wanted _ => ?_⟩
    · simp only [along, Operator.forward, value, resolve]
    · cases ts with
      | nil => rfl
      | cons t ts => simp only [along, Operator.contributions, reduceGradient, resolve]
  | scalarProduct =>
    cases axis
    refine ⟨rfl, rfl, fun _ _ => rfl, fun type shape ts _ => ?_, fun ts out g wanted _ => ?_⟩
    · simp only [along, Operator.forward, value, resolve]
    · rcases ts with _ | ⟨t, _ | ⟨u, _ | _⟩⟩ <;> rfl
  | softmax =>
    cases axis
    refine ⟨rfl, rfl, fun _ _ => rfl, fun type shape ts _ => ?_, fun ts out g wanted _ => ?_⟩
    · simp only [along, Operator.forward, value, resolve]
    · simp only [along, Operator.contributions, softmaxGradient, resolve]
  | logSoftmax =>
    cases axis
    refine ⟨rfl, rfl, fun _ _ => rfl, fun type shape ts _ => ?_, fun ts out g wanted _ => ?_⟩
    · simp only [along, Operator.forward, value, resolve]
    · simp only [along, Operator.contributions, logSoftmaxGradient, resolve]
  | topK k _ descending indices =>
    cases axis
    refine ⟨rfl, ?_, fun _ _ => rfl, fun type shape ts _ => ?_, fun ts out g wanted _ => ?_⟩
    · cases indices <;> rfl
    · simp only [along, Operator.forward, value, topKValue, topPlaces, resolve]
    · cases ts with
      | nil => rfl
      | cons t ts => simp only [along, Operator.contributions, topKGradient, topPlaces, resolve]
  | concatenate =>
    cases axis
    refine ⟨rfl, rfl, fun _ _ => rfl, fun type shape ts _ => ?_, fun ts out g wanted _ => ?_⟩
    · simp only [along, Operator.forward, value, resolve]
    · simp only [along, Operator.contributions, resolve]
  | indexSelect =>
    cases axis
    refine ⟨rfl, rfl, fun _ _ => rfl, fun type shape ts _ => ?_, fun ts out g wanted _ => ?_⟩
    · simp only [along, Operator.forward, value, resolve]
    · rcases ts with _ | ⟨t, _ | ⟨u, _ | _⟩⟩
      · rfl
      · rfl
      · simp only [along, Operator.contributions, resolve]
      · rfl
  | gather =>
    cases axis
    refine ⟨rfl, rfl, fun _ _ => rfl, fun type shape ts _ => ?_, fun ts out g wanted _ => ?_⟩
    · simp only [along, Operator.forward, value, resolve]
    · rcases ts with _ | ⟨t, _ | ⟨u, _ | _⟩⟩
      · rfl
      · rfl
      · simp only [along, Operator.contributions, gatherAddends, resolve]
      · rfl
  | slice _ s =>
    cases axis
    exact absurd rfl (whole s)
  | _ => cases axis

theorem joinRule_resolve {a b : Axis} {inputs : List Signature} {s s' : Signature}
    (resolve : a.resolve = b.resolve) (first : joinRule a inputs = .ok s)
    (second : joinRule b inputs = .ok s') : s = s' := by
  unfold joinRule at first second
  cases inputs with
  | nil => cases first
  | cons x rest =>
    obtain ⟨shape, found, first⟩ := bind_eq_ok.mp first
    obtain ⟨_, found', second⟩ := bind_eq_ok.mp second
    cases found.symm.trans found'
    obtain ⟨i, place, first⟩ := bind_eq_ok.mp first
    obtain ⟨_, place', second⟩ := bind_eq_ok.mp second
    rw [← resolve, place] at place'
    cases place'
    obtain ⟨_, _, first⟩ := bind_eq_ok.mp first
    obtain ⟨_, _, second⟩ := bind_eq_ok.mp second
    exact Except.ok.inj (first.symm.trans second)

theorem gatherRule_resolve {a b : Axis} {x indices : Signature} {s s' : Signature}
    (resolve : a.resolve = b.resolve) (first : gatherRule a x indices = .ok s)
    (second : gatherRule b x indices = .ok s') : s = s' := by
  unfold gatherRule at first second
  obtain ⟨_, _, first⟩ := bind_eq_ok.mp first
  obtain ⟨_, _, second⟩ := bind_eq_ok.mp second
  obtain ⟨i, place, first⟩ := bind_eq_ok.mp first
  obtain ⟨_, place', second⟩ := bind_eq_ok.mp second
  rw [← resolve, place] at place'
  cases place'
  cases outside : !Tensor.agreeOutside i indices.shape.extents x.shape.extents with
  | true =>
    simp only [outside, if_true] at first
    cases first
  | false =>
    simp only [outside, Bool.false_eq_true, if_false] at first second
    exact Except.ok.inj (first.symm.trans second)

omit [Element α] in
/-- Signatures that are inferred along one axis are the same, however the axis is written. -/
theorem infer_along {p : Operator α} {a b : Axis} {inputs : List Signature} {s s' : Signature}
    (axis : p.axis? = some a) (resolve : a.resolve = b.resolve) (whole : ∀ s, p ≠ slice a s)
    (first : p.infer inputs = .ok s) (second : (p.along b).infer inputs = .ok s') : s = s' := by
  cases p with
  | reduce r =>
    cases axis
    simp only [along, Operator.infer, reduceRule, resolve] at first second
    exact Except.ok.inj (first.symm.trans second)
  | scalarProduct =>
    cases axis
    simp only [along, Operator.infer, resolve] at first second
    exact Except.ok.inj (first.symm.trans second)
  | softmax =>
    cases axis
    simp only [along, Operator.infer, resolve] at first second
    exact Except.ok.inj (first.symm.trans second)
  | logSoftmax =>
    cases axis
    simp only [along, Operator.infer, resolve] at first second
    exact Except.ok.inj (first.symm.trans second)
  | topK k _ descending indices =>
    cases axis
    simp only [along, Operator.infer, topKRule, resolve] at first second
    exact Except.ok.inj (first.symm.trans second)
  | concatenate =>
    cases axis
    exact joinRule_resolve resolve first second
  | indexSelect =>
    cases axis
    simp only [along, Operator.infer, indexSelectRule, resolve] at first second
    exact Except.ok.inj (first.symm.trans second)
  | gather =>
    cases axis
    obtain ⟨⟨x, indices⟩, two, first⟩ := bind_eq_ok.mp first
    obtain ⟨_, two', second⟩ := bind_eq_ok.mp second
    cases two.symm.trans two'
    exact gatherRule_resolve resolve first second
  | slice _ s =>
    cases axis
    exact absurd rfl (whole s)
  | _ => cases axis

/-! ### Selections -/

/-- A bound as a key holds it. -/
def boundKey : Bound → Option Int
  | .given n _ => some n
  | _ => none

theorem number_eq_ok {b : Bound} {n : Option Int} (read : b.number = .ok n) : n = boundKey b := by
  cases b with
  | leftOut => exact (Except.ok.inj read).symm
  | given n => exact (Except.ok.inj read).symm
  | refused => cases read

/-- Start, stop and step that the keys of bounds stand for. -/
def limits : List (Option Int) → Option (Option Int × Option Int × Option Int)
  | [stop] => some (none, stop, none)
  | [start, stop] => some (start, stop, none)
  | [start, stop, step] => some (start, stop, step)
  | _ => none

theorem limits_bounds {bounds : List Bound} {start stop step : Bound}
    (three : Selection.bounds3 bounds = some (start, stop, step)) :
    limits (bounds.map boundKey) = some (boundKey start, boundKey stop, boundKey step) := by
  rcases bounds with _ | ⟨b, _ | ⟨c, _ | ⟨d, _ | ⟨e, rest⟩⟩⟩⟩
  · cases three
  · cases three
    rfl
  · cases three
    rfl
  · cases three
    rfl
  · cases three

/-- A range that selects places selects those of its limits. -/
theorem places_range {bounds : List Bound} {axis : Axis} {extent : Nat} {places : List Nat}
    (found : (Selection.range bounds).places axis extent = .ok places) :
    ∃ start stop step, limits (bounds.map boundKey) = some (start, stop, step) ∧
      Selection.rangePlaces start stop step extent = .ok places := by
  unfold Selection.places at found
  cases three : Selection.bounds3 bounds with
  | none =>
    simp only [three] at found
    cases found
  | some given =>
    obtain ⟨start, stop, step⟩ := given
    simp only [three] at found
    obtain ⟨stride, read, found⟩ := bind_eq_ok.mp found
    cases number_eq_ok read
    refine ⟨_, _, _, limits_bounds three, ?_⟩
    by_cases zero : boundKey step = some 0
    · rw [if_pos zero] at found
      cases found
    · rw [if_neg zero] at found
      obtain ⟨_, read, found⟩ := bind_eq_ok.mp found
      cases number_eq_ok read
      obtain ⟨_, read, found⟩ := bind_eq_ok.mp found
      cases number_eq_ok read
      obtain ⟨ps, made, found⟩ := bind_eq_ok.mp found
      cases empty : ps.isEmpty with
      | true =>
        simp only [empty, if_true] at found
        cases found
      | false =>
        simp only [empty, Bool.false_eq_true, if_false] at found
        rwa [← pure_eq_ok.mp found]

/-- A number that names a place does so by the integer that its key holds. -/
theorem single_eq_ok {number : Scalar} {plain : String} {extent i : Nat}
    (found : Selection.single number plain extent = .ok i) :
    ∃ n, numberParameter number = .number n ∧ Axis.wrap? n extent = some i := by
  have placed : ∀ n : Int, Selection.placeOf n plain extent = .ok i →
      Axis.wrap? n extent = some i := by
    intro n place
    unfold Selection.placeOf at place
    split at place
    next j wrapped => exact Except.ok.inj place ▸ wrapped
    next => cases place
  cases number with
  | bool b => exact ⟨_, rfl, placed _ found⟩
  | whole n => exact ⟨n, rfl, placed n found⟩
  | int t n =>
    obtain ⟨j, place, found⟩ := bind_eq_ok.mp found
    cases fits : t.fits extent with
    | true =>
      simp only [fits, if_true] at found
      exact ⟨n, rfl, placed n (pure_eq_ok.mp found ▸ place)⟩
    | false =>
      simp only [fits, Bool.false_eq_true, if_false] at found
      cases found
  | _ =>
    unfold Selection.single at found
    dsimp only at found
    split at found
    · cases found
    · cases found

/-- The places of a selection, read off its key. -/
theorem places_eq_ok {s : Selection} {axis : Axis} {extent : Nat} {places : List Nat}
    (found : s.places axis extent = .ok places) :
    (∃ n i, selectionParameter s = .number n ∧ Axis.wrap? n extent = some i ∧ places = [i]) ∨
    ∃ keys start stop step, selectionParameter s = .numbers keys ∧
      limits keys = some (start, stop, step) ∧
      Selection.rangePlaces start stop step extent = .ok places := by
  cases s with
  | place number =>
    obtain ⟨i, single, found⟩ := bind_eq_ok.mp found
    obtain ⟨n, key, wrapped⟩ := single_eq_ok single
    exact .inl ⟨n, i, key, wrapped, (pure_eq_ok.mp found).symm⟩
  | array numbers =>
    rcases numbers with _ | ⟨x, _ | _⟩
    · cases found
    · obtain ⟨_, _, found⟩ := bind_eq_ok.mp found
      cases found
    · cases found
  | range bounds =>
    obtain ⟨start, stop, step, three, made⟩ := places_range found
    exact .inr ⟨_, start, stop, step, rfl, three, made⟩
  | refused => cases found

/-- Selections with one key select the same places, where both select some. -/
theorem places_of_parameter {s s' : Selection} {a b : Axis} {extent : Nat} {ps ps' : List Nat}
    (same : selectionParameter s = selectionParameter s') (first : s.places a extent = .ok ps)
    (second : s'.places b extent = .ok ps') : ps = ps' := by
  rcases places_eq_ok first with
    ⟨n, i, key, wrapped, rfl⟩ | ⟨keys, start, stop, step, key, three, made⟩
  · rcases places_eq_ok second with ⟨n', i', key', wrapped', rfl⟩ | ⟨_, _, _, _, key', _⟩
    · cases key.symm.trans (same.trans key')
      cases wrapped.symm.trans wrapped'
      rfl
    · cases key.symm.trans (same.trans key')
  · rcases places_eq_ok second with ⟨_, _, key', _⟩ | ⟨_, _, _, _, key', three', made'⟩
    · cases key.symm.trans (same.trans key')
    · cases key.symm.trans (same.trans key')
      cases three.symm.trans three'
      exact Except.ok.inj (made.symm.trans made')

omit [Element α] in
/-- What a slice that fits its input selects. -/
theorem infer_slice {a : Axis} {selection : Selection} {inputs : List Signature} {s : Signature}
    (inferred : (slice a selection : Operator α).infer inputs = .ok s) :
    ∃ x i ps, inputs = [x] ∧ a.resolve x.shape.rank = .ok i ∧
      selection.places a (x.shape.extent i) = .ok ps ∧
      (do pure ⟨← x.shape.set (.ofInt i) ps.length, x.type⟩ : Except Fault Signature) = .ok s := by
  obtain ⟨x, one, inferred⟩ := bind_eq_ok.mp inferred
  obtain ⟨i, resolved, inferred⟩ := bind_eq_ok.mp inferred
  obtain ⟨ps, selected, inferred⟩ := bind_eq_ok.mp inferred
  refine ⟨x, i, ps, ?_, resolved, selected, inferred⟩
  rcases inputs with _ | ⟨y, _ | _⟩
  · cases one
  · cases one
    rfl
  · cases one

/-- Slices with one key select the same. -/
theorem agree_slice {a b : Axis} {selection selection' : Selection} {inputs : List Signature}
    {s s' : Signature} (resolve : a.resolve = b.resolve)
    (same : selectionParameter selection = selectionParameter selection')
    (first : (slice a selection : Operator α).infer inputs = .ok s)
    (second : (slice b selection' : Operator α).infer inputs = .ok s') :
    s = s' ∧ Agree (slice a selection : Operator α) (slice b selection') inputs := by
  obtain ⟨x, i, ps, rfl, resolved, selected, made⟩ := infer_slice first
  obtain ⟨_, j, ps', one, resolved', selected', made'⟩ := infer_slice second
  cases one
  rw [← resolve, resolved] at resolved'
  cases resolved'
  cases places_of_parameter same selected selected'
  have one : ∀ ts : List (Tensor α), ts.map Tensor.shape = [x.shape.extents] →
      ∃ t, ts = [t] ∧ t.rank = x.shape.rank ∧ t.extent i = x.shape.extent i := by
    intro ts fits
    obtain ⟨t, rfl, shape⟩ := List.map_eq_singleton_iff.mp fits
    exact ⟨t, rfl, congrArg List.length shape, congrArg (·.getD i 1) shape⟩
  refine ⟨Except.ok.inj (made.symm.trans made'), rfl, rfl, fun _ _ => rfl,
    fun type shape ts fits => ?_, fun ts out g wanted fits => ?_⟩
  · obtain ⟨t, rfl, rank, extent⟩ := one ts fits
    have value : (slice a selection : Operator α).value shape.length [t] =
        (slice b selection').value shape.length [t] := by
      simp only [Operator.value, Operator.first, bind, Except.bind, ← resolve, rank, resolved, extent,
        selected, selected']
    simp only [Operator.forward, value]
  · obtain ⟨t, rfl, rank, extent⟩ := one ts fits
    simp only [Operator.contributions, bind, Except.bind, ← resolve, rank, resolved, extent,
      selected, selected']

/-! ### All operators -/

omit [Element α] in
theorem along_of_blank {p q : Operator α} {a : Axis} (blank : p.blank = q.blank)
    (parameters : p.parameters = q.parameters) (axis : p.axis? = some a)
    (whole : ∀ s, p ≠ slice a s) :
    ∃ b, a.resolve = b.resolve ∧ q = p.along b := by
  cases p with
  | reduce r =>
    cases q with
    | reduce r' b =>
      cases axis
      cases blank
      exact ⟨b, resolve_of_parameter (List.cons.inj (List.cons.inj parameters).2).1, rfl⟩
    | _ => cases blank
  | scalarProduct =>
    cases q with
    | scalarProduct b =>
      cases axis
      exact ⟨b, resolve_of_parameter (List.cons.inj parameters).1, rfl⟩
    | _ => cases blank
  | softmax =>
    cases q with
    | softmax b =>
      cases axis
      exact ⟨b, resolve_of_parameter (List.cons.inj parameters).1, rfl⟩
    | _ => cases blank
  | logSoftmax =>
    cases q with
    | logSoftmax b =>
      cases axis
      exact ⟨b, resolve_of_parameter (List.cons.inj parameters).1, rfl⟩
    | _ => cases blank
  | topK k _ descending indices =>
    cases q with
    | topK k' b descending' indices' =>
      cases axis
      simp only [Operator.parameters, List.cons.injEq, Parameter.number.injEq, and_true]
        at parameters
      obtain ⟨rfl, same, order, places⟩ := parameters
      cases flag_inj order
      cases flag_inj places
      exact ⟨b, resolve_of_parameter same, rfl⟩
    | _ => cases blank
  | concatenate =>
    cases q with
    | concatenate b =>
      cases axis
      exact ⟨b, resolve_of_parameter (List.cons.inj parameters).1, rfl⟩
    | _ => cases blank
  | indexSelect =>
    cases q with
    | indexSelect b =>
      cases axis
      exact ⟨b, resolve_of_parameter (List.cons.inj parameters).1, rfl⟩
    | _ => cases blank
  | gather =>
    cases q with
    | gather b =>
      cases axis
      exact ⟨b, resolve_of_parameter (List.cons.inj parameters).1, rfl⟩
    | _ => cases blank
  | slice _ s =>
    cases axis
    exact absurd rfl (whole s)
  | _ => cases axis

omit [Element α] in
/-- Functions of one name are one function. -/
theorem backward_eq {r r' : Option (Rule α)} (named : ∀ s ∈ r.toList ++ r'.toList, s.name ≠ "")
    (apart : ∀ s ∈ r, ∀ s' ∈ r', s.name = s'.name → s = s')
    (same : (r.map Rule.name).getD "" = (r'.map Rule.name).getD "") : r = r' := by
  cases r with
  | none =>
    cases r' with
    | none => rfl
    | some s' => exact absurd same.symm (named s' (by simp))
  | some s =>
    cases r' with
    | none => exact absurd same (named s (by simp))
    | some s' => rw [apart s rfl s' rfl same]

/-- Operators of one key with functions of one name are the same but for their own names. -/
theorem agree_custom {p q : Operator α} {inputs : List Signature} {s s' : Signature}
    (custom : p.isCustom = true) (custom' : q.isCustom = true)
    (parameters : p.parameters = q.parameters) (apart : p.ToldApart q)
    (first : p.infer inputs = .ok s) (second : q.infer inputs = .ok s') :
    s = s' ∧ Agree p q inputs := by
  cases p with
  | custom shape type forward backward name =>
    cases q with
    | custom shape' type' forward' backward' name' =>
      simp only [Operator.parameters, List.cons.injEq, Parameter.numbers.injEq,
        Parameter.text.injEq, and_true] at parameters
      obtain ⟨extents, types, rule, rules⟩ := parameters
      have shapes : shape = shape' := by
        have inner : Function.Injective fun e : Nat => some (e : Int) :=
          fun m n same => Int.ofNat.inj (Option.some.inj same)
        have same : shape.extents = shape'.extents := inner.list_map extents
        cases shape
        cases shape'
        cases same
        rfl
      have forwards : forward = forward' :=
        apart.apart forward (by simp [Operator.rules]) forward' (by simp [Operator.rules]) rule
      have backwards : backward = backward' := by
        refine backward_eq (fun r mem => apart.named r ?_) (fun r mem r' mem' => ?_) rules
        · simp only [Operator.rules, List.mem_append, List.mem_cons] at mem ⊢
          exact mem.elim (fun mem => .inl (.inr mem)) fun mem => .inr (.inr mem)
        · refine apart.apart r ?_ r' ?_
          · simp [Operator.rules, Option.mem_def.mp mem]
          · simp [Operator.rules, Option.mem_def.mp mem']
      cases type_inj types
      subst shapes forwards backwards
      refine ⟨Except.ok.inj (first.symm.trans second), rfl, ?_, fun _ _ => rfl,
        fun _ _ _ _ => rfl, fun _ _ _ _ _ => ?_⟩
      · cases backward <;> rfl
      · cases backward <;> rfl
    | _ => cases custom'
  | _ => cases custom

/-- Operators with one key agree where both fit. -/
theorem agree_of_key {p q : Operator α} {inputs : List Signature} {s s' : Signature}
    (memoize : p.memoize = true) (kind : p.kind = q.kind) (parameters : p.parameters = q.parameters)
    (apart : p.ToldApart q) (first : p.infer inputs = .ok s) (second : q.infer inputs = .ok s') :
    s = s' ∧ Agree p q inputs := by
  obtain ⟨custom, blank⟩ := blank_of_kind kind
  cases own : p.isCustom with
  | true => exact agree_custom own (custom ▸ own) parameters apart first second
  | false =>
    have blank := blank own
    cases axis : p.axis? with
    | none =>
      cases eq_of_key blank parameters memoize axis own
      exact ⟨Except.ok.inj (first.symm.trans second), Agree.refl p inputs⟩
    | some a =>
      by_cases sliced : ∃ selection, p = slice a selection
      · obtain ⟨selection, rfl⟩ := sliced
        cases q with
        | slice b selection' =>
          have same := List.cons.inj parameters
          exact agree_slice (resolve_of_parameter same.1) (List.cons.inj same.2).1 first second
        | _ => cases blank
      · have whole := not_exists.mp sliced
        obtain ⟨b, resolve, rfl⟩ := along_of_blank blank parameters axis whole
        exact ⟨infer_along axis resolve whole first second, agree_along axis resolve whole⟩

end Agree

end Operator

namespace Graph

variable [Element α] {known : Node α → Prop} {g : Graph α}

omit [Element α] in
/-- An application that is found has the key that was looked for. -/
theorem found_eq_some (wf : WellFormed known g) {op : Operator α} {nodes : List (Node α)}
    {n : Node α} (found : g.found? op nodes = some n) : op.memoize = true ∧ ∃ s op' inputs,
      n = .apply s op' inputs ∧ op'.memoize = true ∧ nodes.map Node.id = inputs.map Node.id ∧
        op.kind = op'.kind ∧ Parameter.allSame op.parameters op'.parameters = true := by
  unfold found? at found
  cases memoize : op.memoize with
  | false =>
    rw [if_neg (by simp [memoize])] at found
    cases found
  | true =>
    rw [if_pos memoize] at found
    obtain ⟨_, s, op', inputs, rfl, again, accepted⟩ := wf.find_eq_some found
    simp only [Bool.and_eq_true, ApplicationKey.same, Node.key, beq_iff_eq] at accepted
    obtain ⟨⟨ids, kind⟩, parameters⟩ := accepted
    exact ⟨rfl, s, op', inputs, rfl, again, ids, kind, parameters⟩

omit [Element α] in
theorem eq_of_ids (wf : WellFormed known g) {ns ms : List (Node α)} (first : ∀ n ∈ ns, known n)
    (second : ∀ m ∈ ms, known m) (ids : ns.map Node.id = ms.map Node.id) : ns = ms := by
  induction ns generalizing ms with
  | nil => cases ms with
    | nil => rfl
    | cons => cases ids
  | cons n ns ih => cases ms with
    | nil => cases ids
    | cons m ms =>
      obtain ⟨id, ids⟩ := List.cons.inj ids
      rw [wf.unique (first n (by simp)) (second m (by simp)) id,
        ih (fun n mem => first n (by simp [mem])) (fun m mem => second m (by simp [mem])) ids]

omit [Element α] in
theorem inputs_of_checked {inputs : List (Input α)} {nodes : List (Node α)}
    (checked : inputs.mapM g.checkInput = .ok nodes) : inputs = nodes.map .node := by
  induction inputs generalizing nodes with
  | nil =>
    rw [List.mapM_nil, pure_eq_ok] at checked
    rw [← checked]
    rfl
  | cons input inputs ih =>
    rw [List.mapM_cons, bind_eq_ok] at checked
    obtain ⟨n, first, checked⟩ := checked
    obtain ⟨rest, others, checked⟩ := bind_eq_ok.mp checked
    rw [← pure_eq_ok.mp checked, ih others, (checkInput_eq_ok.mp first).1]
    rfl

end Graph

namespace World

open ReverseMode.Graph

variable [Element α]

/-- A call that answers a node of the tape leaves the graph as it was. The node applies an operator
to the inputs of the call, and this agrees with the one asked for unless two of their parameters
are the two zeros. Where they agree, the node denotes what a new one would. -/
theorem add_existing {w : World α} (reachable : w.Reachable) {op : Operator α}
    {inputs : List (Input α)} {n : Node α} {g : Graph α}
    (admissible : w.Admissible (.add op inputs))
    (apart : ∀ m ∈ w.graph.tape.toList, ∀ p, m.op? = some p → op.ToldApart p)
    (answered : add op inputs w.graph = .ok n g) (existing : n ∈ w.graph.tape.toList) :
    g = w.graph ∧ ∃ s p nodes, n = .apply s p nodes ∧ inputs = nodes.map .node ∧
      (op.ZerosDiffer p ∨
        op.infer (nodes.map Node.signature) = .ok n.signature ∧
        op.Agree p (nodes.map Node.signature) ∧
        ∀ leaf ts, Yields (Node.denote leaf) nodes ts →
          ts.map Tensor.shape = nodes.map (·.shape.extents) →
          (Node.apply s op nodes).denote leaf = n.denote leaf) := by
  have wf := reachable.invariant.sound.toWellFormed
  obtain ⟨nodes, sig, checked, inferred, given⟩ := add_answer.mp answered
  have known : ∀ n ∈ nodes, w.known n ∧ w.graph.checkNode n = .ok () :=
    checkInputs (fun n mem home => admissible n mem home) checked
  rcases given with ⟨found, rfl⟩ | ⟨_, rfl, _⟩
  · refine ⟨rfl, ?_⟩
    obtain ⟨memoize, s, p, nodes', rfl, again, ids, kind, parameters⟩ := found_eq_some wf found
    have mem := wf.known_of_tape existing
    have same : nodes = nodes' := eq_of_ids wf (fun n input => (known n input).1)
      (fun m input => wf.known_inputs mem (m := m) input) ids
    subst same
    refine ⟨s, p, nodes, rfl, inputs_of_checked checked, ?_⟩
    rcases Parameter.allSame_cases parameters with parameters | opposite
    · obtain ⟨rfl, agree⟩ := Operator.agree_of_key memoize kind parameters
        (apart _ existing p rfl) inferred (wf.inferred mem)
      refine .inr ⟨inferred, agree, fun leaf ts values fits => ?_⟩
      have result : op.result s ts = p.result s ts := by
        have fits : ts.map Tensor.shape = (nodes.map Node.signature).map (·.shape.extents) := by
          rw [fits, List.map_map]
          rfl
        unfold Operator.result
        rw [agree.isView, agree.viewOf ts fits, agree.forward _ _ ts fits]
      refine Option.ext fun t => ?_
      rw [Node.denote_apply_eq_some, Node.denote_apply_eq_some]
      constructor
      · rintro ⟨us, values', found⟩
        cases values'.unique values
        exact ⟨ts, values, result ▸ found⟩
      · rintro ⟨us, values', found⟩
        cases values'.unique values
        exact ⟨ts, values, result.symm ▸ found⟩
    · exact .inl opposite
  · exact absurd (wf.bound (wf.known_of_tape existing)) (Nat.lt_irrefl _)

end World

/-! ### Examples -/

namespace Sample

open ReverseMode.Graph World

theorem built_tape : built.graph.tape.toList = [square, sum] := rfl

theorem built_plain : ∀ m ∈ built.graph.tape.toList, ∀ p : Operator Int, m.op? = some p →
    (Operator.joint .mult).ToldApart p := by
  have plain : ∀ m ∈ built.graph.tape.toList, ∀ p : Operator Int, m.op? = some p → p.rules = [] := by
    intro m on p applied
    rw [built_tape] at on
    simp only [List.mem_cons, List.not_mem_nil, or_false] at on
    rcases on with rfl | rfl
    · cases applied
      rfl
    · cases applied
      rfl
  intro m on p applied
  refine ⟨fun r mem => ?_, fun r mem => ?_⟩
  · rw [plain m on p applied] at mem
    cases mem
  · cases mem

/-- The product of the parameter with itself is built once, and its node denotes the product. -/
theorem square_again :
    add (.joint .mult) [.node x, .node x] built.graph = .ok square built.graph ∧
      (Operator.joint .mult).Agree (.joint .mult : Operator Int) [x.signature, x.signature] ∧
      (Operator.joint .mult : Operator Int).infer [x.signature, x.signature] =
        .ok square.signature := by
  have admissible : built.Admissible (.add (.joint .mult) [.node x, .node x]) := by
    intro n inside _
    simp [Request.nodes, Input.nodes] at inside
    exact inside ▸ .inl (.inl (.inr rfl))
  have answered : add (.joint .mult) [.node x, .node x] built.graph = .ok square built.graph := rfl
  obtain ⟨_, s, p, nodes, applied, _, differ | ⟨inferred, agree, _⟩⟩ :=
    add_existing built_reachable admissible built_plain answered (by simp [built_tape])
  · obtain ⟨_, mem, _⟩ := differ
    cases mem
  · cases applied
    exact ⟨answered, agree, inferred⟩

/-- A constant of one element. -/
def one : Node Scalar :=
  .leaf { graph := 0, id := 0, shape := .vector 1 Nat.one_pos, type := .float64, episode := some 0
          trainable := .ofBool false, name := none }
    (.constant 1)

/-- The constant times a number. -/
def scaled (c : Float) : Node Scalar :=
  .apply { graph := 0, id := 1, shape := .vector 1 Nat.one_pos, type := .float64, episode := some 0
           trainable := .ofBool false, name := none }
    (.unary (.mulScalar c)) [one]

/-- The constant times zero is built. -/
def scaledOnce : World Scalar :=
  let w : World Scalar := start 0 { type := .float64 }
  let w := w.next (.constant one.shape (.constant 1) (.ok none) none) (.node one)
    (w.graph.recorded one)
  w.next (.add (.unary (.mulScalar 0.0)) [.node one]) (.node (scaled 0.0))
    (w.graph.recorded (scaled 0.0))

theorem scaledOnce_reachable : Reachable scaledOnce := by
  refine .next (.next (.start 0 _) ?_ rfl) ?_ rfl
  · intro n inside
    cases inside
  · intro n inside _
    simp [Request.nodes, Input.nodes] at inside
    exact .inr (inside ▸ rfl)

/-- The constant times minus zero is given the node of the constant times zero, which computes
another function. -/
theorem zeros_merged : Reachable scaledOnce ∧
    add (.unary (.mulScalar (-0.0))) [.node one] scaledOnce.graph =
      .ok (scaled 0.0) scaledOnce.graph ∧
    ¬ (Operator.unary (.mulScalar (-0.0))).Agree (.unary (.mulScalar 0.0) : Operator Scalar)
        [one.signature] := by
  refine ⟨scaledOnce_reachable, rfl, fun agree => ?_⟩
  let bits (r : Except Fault (Tensor Scalar)) : Option (List UInt64) :=
    r.toOption.map fun t => t.toList.map fun x => x.toFloat.toBits
  have same := agree.forward .float64 [1] [.full [1] (.float64 1.0)] rfl
  have differ : bits ((Operator.unary (.mulScalar (-0.0))).forward .float64 [1]
        [.full [1] (.float64 1.0)]) ≠
      bits ((Operator.unary (.mulScalar 0.0)).forward .float64 [1] [.full [1] (.float64 1.0)]) := by
    decide +kernel
  exact differ (congrArg bits same)

end Sample

end ReverseMode
