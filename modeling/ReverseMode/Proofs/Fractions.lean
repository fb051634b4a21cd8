import ReverseMode.Proofs.Assignment
import ReverseMode.Proofs.Broadcast
import ReverseMode.Proofs.Builders
import ReverseMode.Proofs.Deduplication
import ReverseMode.Proofs.Rules
import ReverseMode.Proofs.Values

/-!
Fractions beside integers.

A number meets an integer node in three ways. As the parameter of an operator of one input it is
looked at, and a fraction is refused. Where it is promoted to a constant of the type of the node, or
multiplies a matrix product, it is not: the constant loses the fraction, and so does the product.
-/

namespace ReverseMode

/-! ### Floats and their negation -/

namespace Number

open Float.Model Float.Model.UnpackedFloat Float.Model.Format

/-- Negation keeps the exponent and the mantissa of a representation. -/
theorem components_neg {b : BitVec binary64.numBits} (valid : binary64.Valid b) :
    unpackExponent (UnpackedFloat.pack binary64 (UnpackedFloat.unpack binary64 b).neg) =
        unpackExponent b ∧
      unpackMantissa (UnpackedFloat.pack binary64 (UnpackedFloat.unpack binary64 b).neg) =
        unpackMantissa b := by
  by_cases top : unpackExponent b = -1#_
  · by_cases none : unpackMantissa b = 0#_
    · rw [UnpackedFloat.unpack, if_pos top, if_pos none, top, none]
      simp only [UnpackedFloat.neg, UnpackedFloat.pack, packedInfinity,
        unpackExponent_packComponents, unpackMantissa_packComponents]
      exact ⟨trivial, rfl⟩
    · have nan : UnpackedFloat.unpack binary64 b = .notANumber := by
        rw [UnpackedFloat.unpack, if_pos top, if_neg none]
      have canonical := valid.eq_packedNaN top none
      rw [nan]
      exact ⟨congrArg _ canonical.symm, congrArg _ canonical.symm⟩
  · have below : (unpackExponent b).toNat + 1 < 2 ^ 11 := by
      have small : (unpackExponent b).toNat < 2 ^ 11 := (unpackExponent b).isLt
      have distinct := mt BitVec.eq_of_toNat_eq top
      have last : (-1#_ : BitVec binary64.exponentBits).toNat = 2 ^ 11 - 1 := rfl
      omega
    have small : (unpackMantissa b).toNat < 2 ^ 52 := (unpackMantissa b).isLt
    by_cases bottom : unpackExponent b = 0#_
    · by_cases none : unpackMantissa b = 0#_
      · rw [UnpackedFloat.unpack, if_neg top, if_pos bottom, dif_pos none, bottom, none]
        simp only [UnpackedFloat.neg, UnpackedFloat.pack, packedZero,
          unpackExponent_packComponents, unpackMantissa_packComponents]
        exact ⟨rfl, rfl⟩
      · rw [UnpackedFloat.unpack, if_neg top, if_pos bottom, dif_neg none]
        have short : Nat.log2 (unpackMantissa b).toNat + 1 ≠ binary64.mantissaBits := by
          have := (Nat.log2_lt (n := (unpackMantissa b).toNat) (k := 52) (by
            intro zero
            exact none (BitVec.eq_of_toNat_eq zero))).mpr small
          show _ ≠ 53
          omega
        simp only [UnpackedFloat.neg, UnpackedFloat.pack, bottom]
        rw [if_neg (by decide), if_neg short]
        simp
    · have full : (1#1 ++ unpackMantissa b).toNat = 2 ^ 52 + (unpackMantissa b).toNat := by
        rw [BitVec.toNat_append, Nat.shiftLeft_eq, Nat.mul_comm,
          ← Nat.two_pow_add_eq_or_of_lt (unpackMantissa b).isLt]
        rfl
      have long : Nat.log2 (1#1 ++ unpackMantissa b).toNat + 1 = binary64.mantissaBits := by
        have : Nat.log2 (1#1 ++ unpackMantissa b).toNat = 52 := by
          rw [Nat.log2_eq_iff (by omega), full]
          omega
        rw [this]
        rfl
      have biased : ((((unpackExponent b).toNat : Int) - (binary64.exponentBias +
          binary64.mantissaBitsWithoutImplicit)) + binary64.exponentBias +
            binary64.mantissaBitsWithoutImplicit).toNat = (unpackExponent b).toNat := by
        omega
      rw [UnpackedFloat.unpack, if_neg top, if_neg bottom]
      simp only [UnpackedFloat.neg, UnpackedFloat.pack]
      rw [biased, if_neg (by omega), if_pos long, full]
      simp only [unpackExponent_packComponents, unpackMantissa_packComponents]
      refine ⟨BitVec.eq_of_toNat_eq ?_, BitVec.eq_of_toNat_eq ?_⟩
      · exact Nat.mod_eq_of_lt (unpackExponent b).isLt
      · exact (Nat.add_mod_left _ _).trans (Nat.mod_eq_of_lt small)

/-- The representation of a double. -/
def representation (x : Float) : BitVec binary64.numBits := x.toModel.toBits.toBitVec

/-- Whether a double is an integer is told by its exponent and its mantissa. -/
theorem isWhole_congr {x y : Float}
    (exponent : unpackExponent (representation x) = unpackExponent (representation y))
    (mantissa : unpackMantissa (representation x) = unpackMantissa (representation y)) :
    isWhole x = isWhole y := by
  have field (z : Float) : z.toBits.toNat / Nat.pow 2 52 % Nat.pow 2 11 =
      (unpackExponent (representation z)).toNat := (Zeros.toNat_unpackExponent _).symm
  have fraction (z : Float) : z.toBits.toNat % Nat.pow 2 52 =
      (unpackMantissa (representation z)).toNat := (Zeros.toNat_unpackMantissa _).symm
  unfold isWhole Number.read
  simp only [field, fraction]
  rw [exponent, mantissa]
  split_ifs <;> rfl

theorem isWhole_neg (x : Float) : isWhole (-x) = isWhole x :=
  isWhole_congr (components_neg x.toModel.valid).1 (components_neg x.toModel.valid).2

end Number

/-! ### Calls on the graph of a node -/

namespace Graph

variable {α : Type} {g g' : Graph α} {op : Operator α} {known : Node α → Prop}

theorem checkInputs_eq_ok {nodes : List (Node α)} (used : ∀ n ∈ nodes, g.checkNode n = .ok ()) :
    (nodes.map Input.node).mapM g.checkInput = .ok nodes := by
  induction nodes with
  | nil => rfl
  | cons n nodes ih =>
    have first : g.checkInput (.node n) = .ok n := checkInput_eq_ok.mpr ⟨rfl, used n (by simp)⟩
    rw [List.map_cons, List.mapM_cons, first, ih fun m mem => used m (by simp [mem])]
    rfl

/-- A node of this graph and of this episode may be used where it has just been recorded. -/
theorem checkNode_recorded {n : Node α} (home : n.graph = g.serial)
    (now : n.episode = some g.episode) : (g.recorded n).checkNode n = .ok () := by
  have serial : (g.recorded n).serial = g.serial := rfl
  have episode : (g.recorded n).episode = g.episode := rfl
  rw [checkNode, home, now, serial, episode, if_neg (by simp)]
  simp

/-- Inputs that do not fit are refused before anything changes. -/
theorem add_refused {nodes : List (Node α)} {f : Fault}
    (used : ∀ n ∈ nodes, g.checkNode n = .ok ())
    (refused : op.infer (nodes.map Node.signature) = .error f) :
    add op (nodes.map .node) g = .error f g := by
  have first : (get : GraphM α (Graph α)) g = .ok g g := rfl
  have second : (lift ((nodes.map Input.node).mapM g.checkInput) : GraphM α _) g = .ok nodes g := by
    rw [checkInputs_eq_ok used]
    rfl
  rw [add, run_bind first, run_bind second, refused]
  rfl

/-- An operator is applied as it is, or an application is found whose operator has the same texts and
whose parameters are the same, unless two of them are the two zeros. -/
theorem add_alike (wf : WellFormed known g) {nodes : List (Node α)} {n : Node α}
    (own : op.isCustom = false) (mem : ∀ m ∈ nodes, known m)
    (used : ∀ m ∈ nodes, g.checkNode m = .ok ()) (ran : add op (nodes.map .node) g = .ok n g') :
    g'.checkNode n = .ok () ∧ ∃ s p, n = .apply s p nodes ∧
      p.infer (nodes.map Node.signature) = .ok ⟨s.shape, s.type⟩ ∧
      (p = op ∨ op.memoize = true ∧ op.blank = p.blank ∧
        (op.parameters = p.parameters ∨ op.ZerosDiffer p)) := by
  obtain ⟨nodes', t, checked, inferred, given⟩ := add_answer.mp ran
  obtain rfl : nodes = nodes' := Except.ok.inj ((checkInputs_eq_ok used).symm.trans checked)
  rcases given with ⟨found, rfl⟩ | ⟨_, rfl, rfl⟩
  · refine ⟨checkNode_of_tape wf (wf.mem_of_found found), ?_⟩
    obtain ⟨memoize, s, p, inputs, rfl, _, ids, kind, parameters⟩ := found_eq_some wf found
    have stands := wf.known_of_tape (wf.mem_of_found found)
    obtain rfl := eq_of_ids wf mem (fun m input => wf.known_inputs stands (m := m) input) ids
    obtain ⟨_, blank⟩ := Operator.blank_of_kind kind
    exact ⟨s, p, rfl, wf.inferred stands, .inr ⟨memoize, blank own,
      Parameter.allSame_cases parameters⟩⟩
  · exact ⟨checkNode_recorded rfl rfl, _, op, rfl, inferred, .inl rfl⟩

/-- The newest node is no input of an application yet. -/
theorem unfound_of_newest (wf : WellFormed known g) {nodes : List (Node α)} {n : Node α}
    (mem : n ∈ nodes) (newest : n.id + 1 = g.slots.size) : g.found? op nodes = none := by
  cases found : g.found? op nodes with
  | none => rfl
  | some m =>
    obtain ⟨_, s, p, inputs, rfl, _, ids, _⟩ := found_eq_some wf found
    have stands := wf.known_of_tape (wf.mem_of_found found)
    obtain ⟨i, input, same⟩ := List.mem_map.mp (ids ▸ List.mem_map_of_mem mem)
    have older := (wf.inputs stands (m := i) input).2
    have bound := wf.bound stands
    omega

end Graph

namespace Session

open ReverseMode.Graph

variable {α : Type} [Element α] {s : Session α} {w : World α} {n : Node α}

/-- A session in which a graph has come about by calls and accepts a node. -/
structure Accepts (s : Session α) (w : World α) (n : Node α) : Prop where
  reachable : w.Reachable
  inside : n.graph < s.graphs.size
  graph : s.graphAt n.graph = w.graph
  known : w.known n
  used : w.graph.checkNode n = .ok ()

/-- The session after a call on one graph. -/
def settled (s : Session α) (serial : Nat) (g : Graph α) : Session α :=
  (s.takeGraph serial).2.putGraph serial g

omit [Element α] in
theorem onGraph_answer {β : Type} {call : GraphM α β} {serial : Nat} {b : β} {s' : Session α} :
    onGraph serial call s = .ok b s' ↔
      ∃ g, call (s.graphAt serial) = .ok b g ∧ s' = s.settled serial g := by
  rw [onGraph_run]
  cases call (s.graphAt serial) with
  | ok c g => simp [settled, eq_comm]
  | error f g => simp

omit [Element α] in
theorem size_settled (s : Session α) (serial : Nat) (g : Graph α) :
    (s.settled serial g).graphs.size = s.graphs.size := by
  unfold settled putGraph takeGraph
  dsimp only
  rw [← Array.foldl_toList, graphs_writes]
  simp

/-- The world of a graph whose reports have been taken after a call. -/
def taken (w : World α) (r : Request α) (a : Answer α) (g : Graph α) : World α :=
  ⟨{ g with reports := #[] }, (w.next r a g).known, (w.next r a g).fresh⟩

/-- What a session accepts it accepts after a node has been built, and the new node as well. -/
theorem Accepts.built (accepts : s.Accepts w n) {r : Request α} {p : Node α} {g : Graph α}
    (admissible : w.Admissible r) (answered : r.call w.graph = .ok (.node p) g)
    (serial : g.serial = w.graph.serial) (episode : g.episode = w.graph.episode) :
    (∀ m, s.Accepts w m → (s.settled n.graph g).Accepts (taken w r (.node p) g) m) ∧
      (g.checkNode p = .ok () → (s.settled n.graph g).Accepts (taken w r (.node p) g) p) := by
  have reachable : (taken w r (.node p) g).Reachable :=
    .step (accepts.reachable.next admissible answered) (.quiet ⟨⟨rfl, rfl, Nat.le_refl _⟩, rfl⟩)
  have home := serial_of_checkNode accepts.used
  have after : ∀ m : Node α, m.graph = n.graph →
      (s.settled n.graph g).graphAt m.graph = (taken w r (.node p) g).graph := by
    intro m same
    rw [settled, graphAt_onGraph, if_pos ⟨same, accepts.inside⟩]
    rfl
  refine ⟨fun m other => ?_, fun used => ?_⟩
  · have same : m.graph = n.graph := (serial_of_checkNode other.used).trans home.symm
    refine ⟨reachable, size_settled s _ g ▸ other.inside, after m same, .inl other.known, ?_⟩
    have used := other.used
    rw [checkNode] at used ⊢
    rw [← serial, ← episode] at used
    exact used
  · have same : p.graph = n.graph := (serial_of_checkNode used).trans (serial.trans home.symm)
    exact ⟨reachable, size_settled s _ g ▸ same ▸ accepts.inside, after p same, .inr rfl, used⟩

end Session

namespace Expression

open Session (lift onGraph Accepts onGraph_answer settled taken)

section Building

variable {α : Type} {s : Session α} {w : World α} {n : Node α} {op : Operator α}

/-- A call that is refused for an element type. -/
def TypeRefused (x : SessionM α (Argument α)) (s : Session α) : Prop :=
  ∃ f s', x s = .error f s' ∧ f.kind = .elementType

theorem TypeRefused.after {β : Type} {x : SessionM α β} {f : β → SessionM α (Argument α)} {b : β}
    {s' : Session α} (ran : x s = .ok b s') (refused : TypeRefused (f b) s') :
    TypeRefused (x >>= f) s := by
  obtain ⟨e, s'', raised, kind⟩ := refused
  exact ⟨e, s'', (run_bind ran).trans raised, kind⟩

theorem applyOn_answer {inputs : List (Argument α)} {a : Argument α} {s' : Session α} :
    applyOn n op inputs s = .ok a s' ↔ ∃ p g, a = .node p ∧
      Graph.add op (inputs.map Argument.toInput) (s.graphAt n.graph) = .ok p g ∧
        s' = s.settled n.graph g := by
  rw [applyOn, answer_bind]
  simp only [onGraph_answer, answer_pure]
  constructor
  · rintro ⟨p, _, ⟨g, added, rfl⟩, rfl, rfl⟩
    exact ⟨p, g, rfl, added, rfl⟩
  · rintro ⟨p, g, rfl, added, rfl⟩
    exact ⟨p, _, ⟨g, added, rfl⟩, rfl, rfl⟩

theorem toInput_nodes (nodes : List (Node α)) :
    (nodes.map Argument.node).map Argument.toInput = nodes.map Input.node := by
  rw [List.map_map]
  rfl

variable [Element α]

/-- Nodes of a graph that do not fit an operator are refused there. -/
theorem applyOn_refused (op : Operator α) (nodes : List (Node α)) {f : Fault}
    (accepts : s.Accepts w n)
    (others : ∀ m ∈ nodes, s.Accepts w m)
    (refused : op.infer (nodes.map Node.signature) = .error f) :
    ∃ s', applyOn n op (nodes.map .node) s = .error f s' := by
  refine ⟨s.settled n.graph w.graph, ?_⟩
  have raised : onGraph n.graph (Graph.add op (nodes.map .node)) s =
      .error f (s.settled n.graph w.graph) := by
    rw [Session.onGraph_run, accepts.graph,
      Graph.add_refused (fun m mem => (others m mem).used) refused]
    rfl
  unfold applyOn
  rw [toInput_nodes]
  exact raise_bind.mpr (.inl raised)

/-- Nodes of a graph that fit an operator are given to it, or to an equal one. -/
theorem applyOn_answers (op : Operator α) (nodes : List (Node α)) {t : Signature}
    (accepts : s.Accepts w n)
    (others : ∀ m ∈ nodes, s.Accepts w m)
    (inferred : op.infer (nodes.map Node.signature) = .ok t) :
    ∃ a s', applyOn n op (nodes.map .node) s = .ok a s' ∧
      (w.graph.found? op nodes = none → ∃ st, a = .node (.apply st op nodes)) := by
  have checked := Graph.checkInputs_eq_ok fun m mem => (others m mem).used
  have run {p : Node α} {g : Graph α} (added : Graph.add op (nodes.map .node) w.graph = .ok p g) :
      applyOn n op (nodes.map .node) s = .ok (.node p) (s.settled n.graph g) := by
    refine applyOn_answer.mpr ⟨p, g, rfl, ?_, rfl⟩
    rw [accepts.graph, toInput_nodes, added]
  cases found : w.graph.found? op nodes with
  | some p =>
    exact ⟨_, _, run (Graph.add_answer.mpr ⟨nodes, t, checked, inferred, .inl ⟨found, rfl⟩⟩), nofun⟩
  | none =>
    exact ⟨_, _, run (Graph.add_answer.mpr ⟨nodes, t, checked, inferred, .inr ⟨found, rfl, rfl⟩⟩),
      fun _ => ⟨_, rfl⟩⟩

theorem unary_refused {f : Fault} (accepts : s.Accepts w n)
    (refused : op.infer [n.signature] = .error f) (kind : f.kind = .elementType) :
    TypeRefused (unary op (.node n)) s := by
  obtain ⟨s', raised⟩ := applyOn_refused op [n] accepts (by simpa using accepts) refused
  exact ⟨f, s', raised, kind⟩

/-- Applied to accepted nodes an operator gives an accepted node, of itself or of an operator that is
alike. -/
theorem applyOn_alike (nodes : List (Node α)) {a : Argument α} {s' : Session α}
    (own : op.isCustom = false) (accepts : s.Accepts w n) (others : ∀ m ∈ nodes, s.Accepts w m)
    (ran : applyOn n op (nodes.map .node) s = .ok a s') :
    ∃ t p, a = .node (.apply t p nodes) ∧
      p.infer (nodes.map Node.signature) = .ok ⟨t.shape, t.type⟩ ∧
      (p = op ∨ op.memoize = true ∧ op.blank = p.blank ∧
        (op.parameters = p.parameters ∨ op.ZerosDiffer p)) ∧
      ∃ w', (∀ m, s.Accepts w m → s'.Accepts w' m) ∧ s'.Accepts w' (.apply t p nodes) := by
  obtain ⟨m, g, rfl, added, rfl⟩ := applyOn_answer.mp ran
  rw [accepts.graph, toInput_nodes] at added
  have wf := accepts.reachable.invariant.sound.toWellFormed
  obtain ⟨used, t, p, rfl, inferred, alike⟩ := Graph.add_alike wf own
    (fun m mem => (others m mem).known) (fun m mem => (others m mem).used) added
  obtain ⟨serial, episode⟩ := Graph.stamps_of_add added
  have admissible : w.Admissible (.add op (nodes.map .node)) := by
    intro m mem _
    obtain ⟨input, inside, mem⟩ := List.mem_flatMap.mp mem
    obtain ⟨m', given, rfl⟩ := List.mem_map.mp inside
    obtain rfl := List.mem_singleton.mp mem
    exact (others m given).known
  obtain ⟨kept, new⟩ := accepts.built admissible (World.answer_return.mpr ⟨_, added, rfl⟩) serial
    episode
  exact ⟨t, p, rfl, inferred, alike, _, kept, new used⟩

/-- An operator that its parameters tell apart is applied as it is, also where an equal application
is found. -/
theorem applyOn_accepted (nodes : List (Node α)) {a : Argument α} {s' : Session α}
    (own : op.isCustom = false) (none : op.axis? = none) (nonzero : ∀ p, ¬ op.ZerosDiffer p)
    (accepts : s.Accepts w n) (others : ∀ m ∈ nodes, s.Accepts w m)
    (ran : applyOn n op (nodes.map .node) s = .ok a s') :
    ∃ t, a = .node (.apply t op nodes) ∧
      op.infer (nodes.map Node.signature) = .ok ⟨t.shape, t.type⟩ ∧
      ∃ w', (∀ m, s.Accepts w m → s'.Accepts w' m) ∧ s'.Accepts w' (.apply t op nodes) := by
  obtain ⟨t, p, rfl, inferred, rfl | ⟨memoize, blank, parameters | differ⟩, accepted⟩ :=
    applyOn_alike nodes own accepts others ran
  · exact ⟨t, rfl, inferred, accepted⟩
  · obtain rfl := Operator.eq_of_key blank parameters memoize none own
    exact ⟨t, rfl, inferred, accepted⟩
  · exact absurd differ (nonzero p)

/-- Nodes that fit an operator along an axis are given to it, or to an equal one, which may write
the axis otherwise. -/
theorem applyOn_along {axis : Axis} (nodes : List (Node α)) {t : Signature}
    (works : op.axis? = some axis) (whole : ∀ selection, op ≠ .slice axis selection)
    (accepts : s.Accepts w n) (others : ∀ m ∈ nodes, s.Accepts w m)
    (inferred : op.infer (nodes.map Node.signature) = .ok t) :
    ∃ st axis' s' w', applyOn n op (nodes.map .node) s =
        .ok (.node (.apply st (op.along axis') nodes)) s' ∧
      axis'.resolve = axis.resolve ∧ ⟨st.shape, st.type⟩ = t ∧
      (∀ m, s.Accepts w m → s'.Accepts w' m) ∧
      s'.Accepts w' (.apply st (op.along axis') nodes) := by
  have own : op.isCustom = false := by cases op <;> first | rfl | cases works
  obtain ⟨a, s', ran, _⟩ := applyOn_answers op nodes accepts others inferred
  obtain ⟨st, p, rfl, inferred', alike, w', kept, new⟩ :=
    applyOn_alike nodes own accepts others ran
  obtain ⟨axis', resolve, rfl⟩ : ∃ axis', axis'.resolve = axis.resolve ∧ p = op.along axis' := by
    rcases alike with rfl | ⟨_, blank, parameters | ⟨pair, mem, x, y, first, second, _⟩⟩
    · exact ⟨axis, rfl, (Operator.along_self works).symm⟩
    · obtain ⟨axis', resolve, rfl⟩ := Operator.along_of_blank blank parameters works whole
      exact ⟨axis', resolve.symm, rfl⟩
    · have listed := (List.of_mem_zip mem).1
      rw [first] at listed
      exact absurd listed (Operator.real_notMem_parameters works whole)
  have same := Operator.infer_along works resolve.symm whole inferred inferred'
  exact ⟨st, axis', s', w', ran, resolve, same.symm, kept, new⟩

/-- A constant beside an accepted node is new, and it is accepted as well. -/
theorem constantLike_answers (accepts : s.Accepts w n) {shape : Shape} {init : Initializer α}
    (held : Graph.checkHeld init shape = .ok ()) (type : ElementType) : ∃ t s' w',
      constantLike n shape init type s = .ok (.leaf t init) s' ∧ t.shape = shape ∧ t.type = type ∧
        (∀ m, s.Accepts w m → s'.Accepts w' m) ∧ s'.Accepts w' (.leaf t init) ∧
        t.id + 1 = w'.graph.slots.size := by
  let k := w.graph.constantNode shape init type none
  have made : Graph.constant shape init (.ok (some type)) none w.graph =
      .ok k (w.graph.recorded k) :=
    Graph.constant_answer.mpr ⟨held, type, rfl, rfl, rfl⟩
  have admissible : w.Admissible (.constant shape init (.ok (some type)) none) := by
    intro m mem
    cases mem
  obtain ⟨kept, new⟩ := accepts.built admissible (World.answer_return.mpr ⟨_, made, rfl⟩) rfl rfl
  have ran : onGraph n.graph (Graph.constant shape init (.ok (some type)) none) s = .ok k _ :=
    onGraph_answer.mpr ⟨_, (congrArg _ accepts.graph).trans made, rfl⟩
  exact ⟨_, _, _, ran, rfl, rfl, kept, new (Graph.checkNode_recorded rfl rfl),
    (Graph.size_widened w.graph).symm⟩

/-- A constant without axes for a number beside a node. Its value is the number as it is stored in
the type of the node. -/
def Stands (k : Node Scalar) (c : Float) (type : ElementType) : Prop :=
  ∃ t init, k = .leaf t init ∧ t.shape = Shape.scalar ∧ t.type = type ∧
    ∀ random, init.run t.shape t.type random =
      .ok (.scalar ((Scalar.real c).store type.storage), random)

end Building

section Numbers

variable {s : Session Scalar} {w : World Scalar} {n : Node Scalar} {c : Float}

/-- The leaf whose value is a number that has no type yet. -/
theorem run_ofValue (c : Float) (type : ElementType) (random : Random) :
    (Initializer.ofValue ⟨.number .float64, .scalar (.number (.float64 c))⟩ :
      Initializer Scalar).run Shape.scalar type random =
        .ok (.scalar ((Scalar.real c).store type.storage), random) := by
  have literal : (Tensor.scalar ((Scalar.real c).store type.storage)).map
      (Element.literal (α := Scalar)) = .scalar ((Scalar.real c).store type.storage) := by
    simp [Tensor.map, Tensor.scalar, Element.literal]
  rw [← literal]
  cases type <;> rfl

/-- A number beside a node becomes a new constant. -/
theorem promote_real (accepts : s.Accepts w n) (c : Float) : ∃ k s' w',
    promote (.real c) n s = .ok k s' ∧ Stands k c n.type ∧ k.signature = ⟨.scalar, n.type⟩ ∧
      (∀ m, s.Accepts w m → s'.Accepts w' m) ∧ s'.Accepts w' k ∧
      k.id + 1 = w'.graph.slots.size := by
  let init : Initializer Scalar := .ofValue ⟨.number .float64, .scalar (.number (.float64 c))⟩
  have held : Graph.checkHeld init .scalar = .ok () := rfl
  obtain ⟨t, s', w', ran, shape, type, kept, new, newest⟩ :=
    constantLike_answers accepts held n.type
  have value : ∀ random, init.run t.shape t.type random =
      .ok (.scalar ((Scalar.real c).store n.type.storage), random) := by
    rw [shape, type]
    exact run_ofValue c n.type
  refine ⟨.leaf t init, s', w', ran, ⟨t, init, rfl, shape, type, value⟩, ?_, kept, new, newest⟩
  exact congrArg₂ Signature.mk shape type

/-! ### Operators beside numbers -/

theorem not_isFloat {type : ElementType} (integer : type.isInt = true) : type.isFloat = false := by
  cases type <;> first | rfl | cases integer

theorem infer_addScalar (integer : n.type.isInt = true) (fraction : Number.isWhole c = false) :
    ∃ f, (Operator.unary (.addScalar c) : Operator Scalar).infer [n.signature] = .error f ∧
      f.kind = .elementType := by
  refine ⟨.truncation "ScalarAdd" (Decimal.text c) n.type.name, if_neg ?_, rfl⟩
  simp [Node.signature, not_isFloat integer, fraction]

theorem infer_mulScalar (integer : n.type.isInt = true) (fraction : Number.isWhole c = false) :
    ∃ f, (Operator.unary (.mulScalar c) : Operator Scalar).infer [n.signature] = .error f ∧
      f.kind = .elementType := by
  refine ⟨.truncation "ScalarMult" (Decimal.text c) n.type.name, if_neg ?_, rfl⟩
  simp [Node.signature, not_isFloat integer, fraction]

/-- A node and a number that stands beside it have the extents and the type of the node. -/
theorem broadcastRule_scalar (n : Signature) :
    Operator.broadcastRule [n, ⟨.scalar, n.type⟩] = .ok n ∧
      Operator.broadcastRule [⟨.scalar, n.type⟩, n] = .ok n := by
  have type : ElementType.common [n.type, n.type] = .ok n.type := by
    cases n.type <;> rfl
  obtain ⟨first, second⟩ := Shape.broadcast_scalar n.shape
  constructor <;> simp only [Operator.broadcastRule, List.map_cons, List.map_nil, type]
  · rw [first]
    rfl
  · rw [second]
    rfl

end Numbers

/-- The functions that combine two operands. -/
inductive Combination (α : Type) where
  | add | sub | mul | div | maximum | minimum
  | compare (r : Relation)
  | scalarProduct (axis : Argument α)

namespace Combination

variable {α : Type} [Element α]

def name : Combination α → String
  | add => "add"
  | sub => "sub"
  | mul => "mul"
  | div => "div"
  | maximum => "maximum"
  | minimum => "minimum"
  | compare r => r.name
  | scalarProduct _ => "scalar_product"

/-- The arguments after the operands. -/
def rest : Combination α → List (Argument α)
  | scalarProduct axis => [axis]
  | _ => []

/-- A call of the function by its name. -/
def call (k : Combination α) (a b : Argument α) : SessionM α (Argument α) :=
  Expression.call k.name ⟨a :: b :: k.rest, []⟩

/-- The operator of a function that promotes numbers. -/
def operator? : Combination α → Option (Operator α)
  | maximum => some (.joint .maximum)
  | minimum => some (.joint .minimum)
  | compare r => some (.joint (.compare r))
  | scalarProduct axis => some (.scalarProduct axis.toAxis)
  | _ => none

theorem call_operator {k : Combination α} {op : Operator α} (is : k.operator? = some op)
    (a b : Argument α) : k.call a b = binary op a b := by
  cases k with
  | compare r =>
    cases is
    cases r <;> rfl
  | _ =>
    cases is
    try rfl

end Combination

/-! ### The three ways -/

namespace Combination

variable {s : Session Scalar} {w : World Scalar} {n : Node Scalar} {c : Float}

theorem addScalar_refused (accepts : s.Accepts w n) (integer : n.type.isInt = true)
    (fraction : Number.isWhole c = false) :
    TypeRefused (unary (.unary (.addScalar c)) (.node n)) s := by
  obtain ⟨f, refused, kind⟩ := infer_addScalar integer fraction
  exact unary_refused accepts refused kind

theorem mulScalar_refused (accepts : s.Accepts w n) (integer : n.type.isInt = true)
    (fraction : Number.isWhole c = false) :
    TypeRefused (unary (.unary (.mulScalar c)) (.node n)) s := by
  obtain ⟨f, refused, kind⟩ := infer_mulScalar integer fraction
  exact unary_refused accepts refused kind

/-- A node is negated where a number minus the node is asked for. -/
theorem neg_accepted (accepts : s.Accepts w n) : ∃ t s' w',
    neg (.node n) s = .ok (.node (.apply t (.unary .neg) [n])) s' ∧ t.shape = n.shape ∧
      t.type = n.type ∧ s'.Accepts w' (.apply t (.unary .neg) [n]) := by
  have negates : (Operator.unary .neg : Operator Scalar).infer [n.signature] = .ok n.signature :=
    rfl
  have self : ∀ m ∈ [n], s.Accepts w m := by simpa using accepts
  obtain ⟨a, s', ran, _⟩ := applyOn_answers _ [n] accepts self negates
  obtain ⟨t, rfl, inferred, w', _, new⟩ := applyOn_accepted [n] rfl rfl
    (fun p ⟨_, mem, _⟩ => by cases mem) accepts self ran
  have same := Except.ok.inj (inferred.symm.trans negates)
  exact ⟨t, s', w', ran, congrArg Signature.shape same, congrArg Signature.type same, new⟩

/-- The node is negated first; a fraction minus the node is refused after that. -/
theorem sub_refused (accepts : s.Accepts w n) (integer : n.type.isInt = true)
    (fraction : Number.isWhole c = false) : TypeRefused (sub.call (.real c) (.node n)) s := by
  obtain ⟨t, s', w', ran, _, type, new⟩ := neg_accepted accepts
  exact .after (f := fun m => unary (.unary (.addScalar c)) m) ran
    (addScalar_refused new ((congrArg _ type).trans integer) fraction)

theorem div_refused (accepts : s.Accepts w n) (integer : n.type.isInt = true) (c : Float) :
    TypeRefused (div.call (.real c) (.node n)) s := by
  obtain ⟨k, s', w', ran, _, signature, kept, new, _⟩ := promote_real accepts c
  have others : ∀ m ∈ [k, n], s'.Accepts w' m := by simpa using ⟨new, kept n accepts⟩
  have refused : (Operator.joint .div : Operator Scalar).infer ([k, n].map Node.signature) =
      .error (.notFloat "Division" n.type.name) := by
    have rule : Operator.broadcastRule ([k, n].map Node.signature) = .ok n.signature := by
      rw [List.map_cons, signature]
      exact (broadcastRule_scalar n.signature).2
    have float : n.type.requireFloat "Division" = .error (.notFloat "Division" n.type.name) := by
      rw [ElementType.requireFloat, not_isFloat integer]
      rfl
    show Operator.jointRule .div _ = _
    rw [Operator.jointRule, rule]
    exact congrArg (fun e => e >>= fun _ => pure n.signature) float
  obtain ⟨s'', raised⟩ := applyOn_refused (.joint .div) [k, n] (kept n accepts) others refused
  exact .after (f := fun k => applyOn n (.joint .div) [.node k, .node n]) ran ⟨_, s'', raised, rfl⟩

/-- A call that joins a node with the constant for a number, whatever the number. Only what is no
axis can be refused. -/
def Joins (op : Operator Scalar) (n : Node Scalar) (c : Float)
    (operands : Node Scalar → List (Node Scalar)) (x : SessionM Scalar (Argument Scalar))
    (s : Session Scalar) : Prop :=
  (∃ k t s', x s = .ok (.node (.apply t op (operands k))) s' ∧ Stands k c n.type) ∨
    ∃ axis f s', op = .scalarProduct axis ∧ x s = .error f s' ∧ f.kind = .axis

/-- Where a node and a constant combine to the signature of the node, the functions that promote
numbers accept them. -/
theorem infer_operator {k : Combination Scalar} {op : Operator Scalar} (is : k.operator? = some op)
    {a b n : Signature} (rule : Operator.broadcastRule [a, b] = .ok n) :
    (∃ t, op.infer [a, b] = .ok t) ∨
      ∃ axis f, op = .scalarProduct axis ∧ op.infer [a, b] = .error f ∧ f.kind = .axis := by
  cases k with
  | maximum | minimum | compare =>
    cases is
    exact .inl ⟨n, congrArg (fun e => e >>= fun s => pure s) rule⟩
  | scalarProduct axis =>
    cases is
    obtain ⟨shape, joined, rule⟩ := bind_eq_ok.mp rule
    obtain ⟨type, common, _⟩ := bind_eq_ok.mp rule
    have joined : Shape.broadcast [a.shape, b.shape] = .ok shape := joined
    have common : ElementType.common [a.type, b.type] = .ok type := common
    have unfolded : (Operator.scalarProduct axis.toAxis : Operator Scalar).infer [a, b] = (do
        let shape ← Shape.broadcast [a.shape, b.shape]
        let i ← axis.toAxis.resolve shape.rank
        let reduced ← shape.set (.ofInt i) 1
        pure ⟨reduced, ← ElementType.common [a.type, b.type]⟩) := rfl
    cases resolved : axis.toAxis.resolve shape.rank with
    | error f =>
      refine .inr ⟨axis.toAxis, f, rfl, ?_, Axis.kind_of_resolve resolved⟩
      rw [unfolded, joined]
      show (axis.toAxis.resolve shape.rank >>= _) = _
      rw [resolved]
      rfl
    | ok i =>
      obtain ⟨reduced, set, _⟩ := Shape.set_ofInt (Axis.resolve_lt resolved) Nat.one_pos
      refine .inl ⟨⟨reduced, type⟩, ?_⟩
      rw [unfolded, joined, common]
      exact bind_eq_ok.mpr ⟨shape, rfl, bind_eq_ok.mpr ⟨i, resolved,
        bind_eq_ok.mpr ⟨reduced, set, rfl⟩⟩⟩
  | _ => cases is

theorem joins {k : Combination Scalar} {op : Operator Scalar} (is : k.operator? = some op)
    (accepts : s.Accepts w n) (c : Float) :
    Joins op n c (fun k => [n, k]) (k.call (.node n) (.real c)) s ∧
      Joins op n c (fun k => [k, n]) (k.call (.real c) (.node n)) s := by
  rw [call_operator is, call_operator is]
  obtain ⟨k, s', w', ran, stands, signature, kept, new, newest⟩ := promote_real accepts c
  have accepts' := kept n accepts
  have wf := new.reachable.invariant.sound.toWellFormed
  -- The constant is new, so no application of it is found.
  have joins (operands : Node Scalar → List (Node Scalar))
      (mem : k ∈ operands k) (others : ∀ m ∈ operands k, s'.Accepts w' m)
      (rule : ∃ a b, (operands k).map Node.signature = [a, b] ∧
        Operator.broadcastRule [a, b] = .ok n.signature) :
      Joins op n c operands (promote (.real c) n >>= fun k =>
        applyOn n op ((operands k).map .node)) s := by
    obtain ⟨a, b, signatures, rule⟩ := rule
    rcases infer_operator is rule with ⟨t, inferred⟩ | ⟨axis, f, along, refused, kind⟩
    · obtain ⟨_, s'', joined, fresh⟩ := applyOn_answers op (operands k) accepts' others
        (signatures ▸ inferred)
      obtain ⟨st, rfl⟩ := fresh (Graph.unfound_of_newest wf mem newest)
      exact .inl ⟨k, st, s'', (run_bind ran).trans joined, stands⟩
    · obtain ⟨s'', raised⟩ := applyOn_refused op (operands k) accepts' others (signatures ▸ refused)
      exact .inr ⟨axis, f, s'', along, (run_bind ran).trans raised, kind⟩
  obtain ⟨first, second⟩ := broadcastRule_scalar n.signature
  exact ⟨joins (fun k => [n, k]) (by simp) (by simpa using ⟨accepts', new⟩)
      ⟨_, _, congrArg (fun b => [n.signature, b]) signature, first⟩,
    joins (fun k => [k, n]) (by simp) (by simpa using ⟨new, accepts'⟩)
      ⟨_, _, congrArg (fun a => [a, n.signature]) signature, second⟩⟩

/-- A matrix product of two nodes by the name of its function, times a number. -/
def scaled (batched transA transB : Bool) (m n : Node Scalar) (c : Float) :
    SessionM Scalar (Argument Scalar) :=
  Expression.call (if batched then "bdot" else "dot")
    ⟨[.node m, .node n, .bool transA, .bool transB, .real c], []⟩

theorem scaled_eq (batched transA transB : Bool) (m n : Node Scalar) (c : Float) :
    scaled batched transA transB m n c =
      applyOn m (.matMul transA transB c batched) [.node m, .node n] := by
  cases batched <;> rfl

theorem isWhole_zero {x : Float} (zero : x = 0.0 ∨ x = -0.0) : Number.isWhole x = true := by
  rcases zero with rfl | rfl <;> decide +kernel

theorem ne_zeros (fraction : Number.isWhole c = false) : ¬(c = 0.0 ∨ c = -0.0) := fun zero => by
  rw [isWhole_zero zero] at fraction
  cases fraction

/-- A product with a number that is neither of the two zeros is told apart from all others. -/
theorem matMul_zerosDiffer {transA transB batched : Bool} (nonzero : ¬(c = 0.0 ∨ c = -0.0))
    (p : Operator Scalar) : ¬ (Operator.matMul transA transB c batched).ZerosDiffer p := by
  rintro ⟨⟨q, q'⟩, mem, x, y, rfl, rfl, opposite⟩
  have inside := (List.of_mem_zip mem).1
  have same : x = c := by
    simp only [Operator.parameters, Parameter.flag, List.mem_cons, List.not_mem_nil,
      or_false] at inside
    simpa using inside
  exact nonzero (same ▸ opposite.imp And.left And.left)

/-- Whether a product is accepted does not depend on the number. -/
theorem scaled_answers {m : Node Scalar} (accepts : s.Accepts w n) (other : s.Accepts w m)
    (batched transA transB : Bool) (c d : Float) :
    answers (scaled batched transA transB n m c s) =
      answers (scaled batched transA transB n m d s) := by
  have others : ∀ p ∈ [n, m], s.Accepts w p := by simpa using ⟨accepts, other⟩
  have each (c : Float) : answers (scaled batched transA transB n m c s) = true ↔
      ∃ t, Operator.productRule transA transB batched n.signature m.signature = .ok t := by
    rw [scaled_eq]
    cases inferred : Operator.productRule transA transB batched n.signature m.signature with
    | ok t =>
      obtain ⟨a, s', ran, _⟩ := applyOn_answers
        (.matMul transA transB c batched) [n, m] accepts others inferred
      have ran : applyOn n (.matMul transA transB c batched) [.node n, .node m] s = .ok a s' := ran
      simp [ran, answers]
    | error f =>
      obtain ⟨s', raised⟩ := applyOn_refused
        (.matMul transA transB c batched) [n, m] accepts others inferred
      have raised : applyOn n (.matMul transA transB c batched) [.node n, .node m] s =
        .error f s' := raised
      simp [raised, answers]
  exact Bool.eq_iff_iff.mpr ((each c).trans (each d).symm)

/-- The product of integers is scaled as a double and stored without its fraction. -/
theorem forward_scaled {transA transB batched : Bool} {u : IntegerType} {a b t : Tensor Scalar}
    (made : (do (← Operator.operand transA a).product (← Operator.operand transB b)) = .ok t)
    (integers : ∀ y ∈ t.toList, ∃ j, y = .int u j) :
    (Operator.matMul transA transB c batched).forward (.int u) t.shape [a, b] =
      .ok (t.map fun y => .int u (Scalar.storeFloat u (y.toFloat * c))) := by
  let scale (y : Scalar) : Scalar := y.mul (.real c)
  have each : ∀ y ∈ t.toList, scale y = .float64 (y.toFloat * c) := by
    intro y mem
    obtain ⟨j, rfl⟩ := integers y mem
    rfl
  have value : (Operator.matMul transA transB c batched).value t.shape.length [a, b] =
      .ok (t.map scale) := by
    obtain ⟨x, left, made⟩ := bind_eq_ok.mp made
    obtain ⟨y, right, made⟩ := bind_eq_ok.mp made
    exact bind_eq_ok.mpr ⟨(a, b), rfl, bind_eq_ok.mpr ⟨x, left, bind_eq_ok.mpr ⟨y, right,
      bind_eq_ok.mpr ⟨t, made, rfl⟩⟩⟩⟩
  have proper : (t.map scale).Proper := by
    intro x mem
    rw [Tensor.toList_map] at mem
    obtain ⟨y, inside, rfl⟩ := List.mem_map.mp mem
    rw [each y inside]
    rfl
  show ((Operator.matMul transA transB c batched).value t.shape.length [a, b] >>= fun r =>
    r.assign (.int u) t.shape) = _
  rw [value]
  refine (Tensor.assign_self proper (.int u)).trans (congrArg Except.ok ?_)
  rw [Tensor.map_map]
  exact Tensor.map_congr fun y mem => congrArg (Scalar.store (.int u)) (each y mem)

/-- A fraction within the range of an integer type is stored without what follows the point. -/
theorem storeFloat_integer {type : ElementType} {u : IntegerType} (is : type.storage = .int u)
    {z : Int}
    (finite : Number.truncate? c = some z) (fits : u.fits z = true) :
    Scalar.storeFloat u c = z := by
  have wrapped : u.wrap z = z := of_decide_eq_true fits
  unfold Scalar.storeFloat
  rw [finite]
  cases type <;> cases is
  all_goals
    refine Eq.trans (congrArg (IntegerType.wrap _) (if_pos fits)) wrapped

/-- A product with an integer node has an integer type. -/
theorem isInt_of_product {m : Node Scalar} {transA transB batched : Bool} {t : Signature}
    (inferred : Operator.productRule transA transB batched n.signature m.signature = .ok t)
    (integer : n.type.isInt = true) : t.type.isInt = true := by
  obtain ⟨_, _, _, _, common⟩ := Operator.productRule_eq_ok inferred
  have common : ElementType.common [n.type, m.type] = .ok t.type := common
  revert common integer
  cases n.type <;> cases m.type <;> cases t.type <;> decide

/-- What becomes of a number with a fraction beside an integer node. Addition, subtraction and
multiplication refuse it on either side, division on the left, and on the right unless its inverse
is an integer. The functions that promote numbers never look at it: their other operand is a
constant that holds its integer part. Nor does a matrix product, whose scaled elements are stored
without their fractions. -/
theorem fraction_beside_integers {u : IntegerType} (accepts : s.Accepts w n)
    (integer : n.type.storage = .int u) (fraction : Number.isWhole c = false) :
    (TypeRefused (add.call (.node n) (.real c)) s ∧ TypeRefused (add.call (.real c) (.node n)) s ∧
      TypeRefused (sub.call (.node n) (.real c)) s ∧ TypeRefused (sub.call (.real c) (.node n)) s ∧
      TypeRefused (mul.call (.node n) (.real c)) s ∧ TypeRefused (mul.call (.real c) (.node n)) s ∧
      TypeRefused (div.call (.real c) (.node n)) s) ∧
    (div.call (.node n) (.real c) = mul.call (.node n) (.real (1.0 / c)) ∧
      (Number.isWhole (1.0 / c) = false → TypeRefused (div.call (.node n) (.real c)) s)) ∧
    (∀ (k : Combination Scalar) op, k.operator? = some op →
      Joins op n c (fun k => [n, k]) (k.call (.node n) (.real c)) s ∧
      Joins op n c (fun k => [k, n]) (k.call (.real c) (.node n)) s) ∧
    (∀ m, s.Accepts w m → ∀ batched transA transB,
      answers (scaled batched transA transB n m c s) =
          answers (scaled batched transA transB n m 1.0 s) ∧
      ∀ a s', scaled batched transA transB n m c s = .ok a s' →
        ∃ t, a = .node (.apply t (.matMul transA transB c batched) [n, m]) ∧
          t.type.isInt = true ∧ ∀ v x y p,
            (do (← Operator.operand transA x).product (← Operator.operand transB y)) = .ok p →
            (∀ e ∈ p.toList, ∃ j, e = Scalar.int v j) →
            (Operator.matMul transA transB c batched).forward (.int v) p.shape [x, y] =
              .ok (p.map fun e => .int v (Scalar.storeFloat v (e.toFloat * c)))) ∧
    (Scalar.real c).store n.type.storage = .int u (Scalar.storeFloat u c) ∧
    ∀ d z, Number.truncate? d = some z → u.fits z = true → Scalar.storeFloat u d = z := by
  have isInt : n.type.isInt = true := by
    cases type : n.type <;> rw [type] at integer <;> first | rfl | cases integer
  have negated : Number.isWhole (-c) = false := (Number.isWhole_neg c).trans fraction
  have inverse : div.call (.node n) (.real c) = mul.call (.node n) (.real (1.0 / c)) := by
    have nonzero : (c == 0.0) = false := by
      cases zero : c == 0.0 with
      | false => rfl
      | true =>
        refine absurd ?_ (ne_zeros fraction)
        rcases Zeros.eq_or_opposite zero with same | opposite
        · exact .inl same
        · exact opposite.imp And.left And.left
    have ok : (Argument.real c : Argument Scalar).inverse = .ok (1.0 / c) := by
      rw [Argument.inverse, nonzero]
      rfl
    show (do unary (.unary (.mulScalar (← lift (Argument.real c).inverse))) (.node n)) = _
    rw [ok]
    rfl
  refine ⟨⟨addScalar_refused accepts isInt fraction, addScalar_refused accepts isInt fraction,
    addScalar_refused accepts isInt negated, sub_refused accepts isInt fraction,
    mulScalar_refused accepts isInt fraction, mulScalar_refused accepts isInt fraction,
    div_refused accepts isInt c⟩, ⟨inverse, fun whole => ?_⟩, fun k op is => joins is accepts c,
    fun m other batched transA transB => ⟨scaled_answers accepts other batched transA transB c 1.0,
      fun a s' ran => ?_⟩, ?_, fun d z => storeFloat_integer integer⟩
  · rw [inverse]
    exact mulScalar_refused accepts isInt whole
  · rw [scaled_eq] at ran
    obtain ⟨t, rfl, inferred, _⟩ := applyOn_accepted [n, m] rfl rfl
      (matMul_zerosDiffer (ne_zeros fraction)) accepts (by simpa using ⟨accepts, other⟩) ran
    exact ⟨t, rfl, isInt_of_product inferred isInt, fun v x y p made => forward_scaled made⟩
  · rw [integer]
    rfl

end Combination

end Expression

namespace Sample

open Session (onGraph)
open Expression Expression.Combination World

/-- A matrix of one element, an integer. -/
def unit : Node Scalar :=
  .leaf ⟨0, 0, ⟨[1, 1], by decide⟩, .int32, some 0, .ofBool false, none⟩ (.constant 1)

/-- The world in which the matrix has been built. -/
def counted : World Scalar :=
  let w : World Scalar := start 0 { type := .int32 }
  w.next (.constant unit.shape (.constant 1) (.ok none) none) (.node unit) (w.graph.recorded unit)

/-- The session of that world. -/
def counting : Session Scalar :=
  after ((do
    let serial ← Session.addGraph { type := .int32 }
    onGraph serial (Graph.constant unit.shape (.constant 1) (.ok none) none) :
      SessionM Scalar (Node Scalar)) {})

theorem counting_accepts : counting.Accepts counted unit where
  reachable := .next (.start 0 _) (fun _ inside => nomatch inside) rfl
  inside := by decide +kernel
  graph := rfl
  known := .inr rfl
  used := rfl

/-- One and a half is refused beside the matrix, and the larger one of both is taken all the same. -/
theorem half_beside_unit :
    TypeRefused (Combination.add.call (.node unit) (.real 1.5)) counting ∧
      ∃ k t s', Combination.maximum.call (.node unit) (.real 1.5) counting =
        .ok (.node (.apply t (.joint .maximum) [unit, k])) s' ∧ Stands k 1.5 .int32 := by
  obtain ⟨⟨refused, _⟩, _, joins, _⟩ := fraction_beside_integers (u := .int32) counting_accepts rfl
    (c := 1.5) (by decide +kernel)
  refine ⟨refused, ?_⟩
  rcases (joins .maximum _ rfl).1 with joined | ⟨_, _, _, other, _⟩
  · exact joined
  · cases other

/-- What a node answers that a call builds, after a forward pass. -/
def answered (x : SessionM Scalar (Argument Scalar)) : List Scalar :=
  match (do
    match ← x with
    | .node n => onGraph n.graph (do Graph.forward; Graph.value (.node n))
    | _ => throw .type : SessionM Scalar (Tensor Scalar)) counting with
  | .ok t _ => t.toList
  | .error _ _ => []

/-- Beside one and a half the integer one is taken for the larger number and not for the smaller,
and its product with itself times one and a half is one. -/
theorem half_truncated :
    (answered (Combination.maximum.call (.node unit) (.real 1.5))).map (Scalar.eq (.real 1.5)) =
      [false] ∧
    (answered (Combination.compare .lt |>.call (.node unit) (.real 1.5))).map Scalar.truth =
      [false] ∧
    (answered (Combination.scaled false false false unit unit 1.5)).map (Scalar.eq (.whole 1)) =
      [true] := by
  decide +kernel

end Sample

end ReverseMode
