import ReverseMode.Expression.Functions
import ReverseMode.Proofs.Growth
import ReverseMode.Proofs.Reachable

/-!
What the functions of the expression language leave behind when they are refused.

A function that adds one node leaves nothing: `Graph.add` checks before it records. A value that
meets a node is promoted to a constant first, and functions made of others have added their nodes
when a later one is refused. For each function the number of nodes that can be left is given, as
far as possible by the arguments: one that is promoted is `loose`, and of two arguments one is
promoted only if the other is `lone`.
-/

namespace ReverseMode

namespace Argument

variable {α : Type}

/-- Whether just one of two arguments is a node. -/
def lone (a b : Argument α) : Bool := a.node?.isSome != b.node?.isSome

/-- Whether an argument is neither a node nor a number. -/
def loose (a : Argument α) : Bool := a.node?.isNone && !a.isNumber

/-- Whether one of two arguments becomes a constant beside the other, where numbers do not. -/
def promoted (a b : Argument α) : Bool := lone a b && !a.isNumber && !b.isNumber

theorem isNumber_of_node {a : Argument α} {n : Node α} (is : a.node? = some n) :
    a.isNumber = false := by
  cases a <;> simp_all [node?, isNumber]

theorem lone_node (n : Node α) (b : Argument α) : lone (.node n) b = b.node?.isNone := by
  unfold lone
  cases b.node? <;> rfl

theorem promoted_node (n : Node α) (b : Argument α) : promoted (.node n) b = b.loose := by
  simp [promoted, lone_node, loose, isNumber]

end Argument

namespace Graph

variable {α : Type} {g g' g₁ : Graph α} {op op' : Operator α} {inputs : List (Input α)} {n : Node α}

theorem stamps_of_add (ran : add op inputs g = .ok n g') :
    g'.serial = g.serial ∧ g'.episode = g.episode := by
  obtain ⟨_, _, _, _, ⟨_, rfl⟩ | ⟨_, _, rfl⟩⟩ := add_answer.mp ran <;> exact ⟨rfl, rfl⟩

/-- Where one operator has been applied to inputs, another one that fits the same ones can be. -/
theorem add_again
    (fits : ∀ signatures t, op.infer signatures = .ok t → ∃ t', op'.infer signatures = .ok t')
    (serial : g'.serial = g.serial) (episode : g'.episode = g.episode)
    (ran : add op inputs g = .ok n g₁) : ∃ m g₂, add op' inputs g' = .ok m g₂ := by
  obtain ⟨nodes, t, checked, inferred, _⟩ := add_answer.mp ran
  rw [← checkInput_congr serial episode] at checked
  obtain ⟨t', inferred'⟩ := fits _ t inferred
  cases found : g'.found? op' nodes with
  | some m => exact ⟨m, g', add_answer.mpr ⟨nodes, t', checked, inferred', .inl ⟨found, rfl⟩⟩⟩
  | none => exact ⟨_, _, add_answer.mpr ⟨nodes, t', checked, inferred', .inr ⟨found, rfl, rfl⟩⟩⟩

end Graph

namespace Session

variable {α : Type} {s s' : Session α} {op op' : Operator α} {inputs : List (Input α)} {n : Node α}

theorem add_again {serial : Nat}
    (fits : ∀ signatures t, op.infer signatures = .ok t → ∃ t', op'.infer signatures = .ok t')
    (ran : onGraph serial (Graph.add op inputs) s = .ok n s') :
    ∃ m s'', onGraph serial (Graph.add op' inputs) s' = .ok m s'' := by
  rw [onGraph_run] at ran
  cases run : Graph.add op inputs (s.graphAt serial) with
  | error f g =>
    rw [run] at ran
    cases ran
  | ok n' g =>
    rw [run] at ran
    cases ran
    have same := Graph.stamps_of_add run
    have stamps : (((s.takeGraph serial).2.putGraph serial g).graphAt serial).serial =
          (s.graphAt serial).serial ∧
        (((s.takeGraph serial).2.putGraph serial g).graphAt serial).episode =
          (s.graphAt serial).episode := by
      rw [graphAt_onGraph]
      split
      · exact same
      · exact ⟨rfl, rfl⟩
    obtain ⟨m, g', again⟩ := Graph.add_again fits stamps.1 stamps.2 run
    exact ⟨m, _, by rw [onGraph_run, again]⟩

end Session

namespace Expression

open Argument (lone loose promoted)
open Session (lift onGraph Leaves Gives)

variable {α : Type}

/-- A call adds one node to the ones that it can leave behind. -/
abbrev Builds (k : Nat) (x : SessionM α (Argument α)) : Prop := Leaves k (k + 1) x

/-- What a call answers is a node. -/
abbrev GivesNode (x : SessionM α (Argument α)) : Prop := Gives (fun a => ∃ n, a = .node n) x

/-! ### One operator -/

theorem nodeOf_leaves (a : Argument α) : Leaves 0 0 (nodeOf a) := by
  unfold nodeOf
  split
  · exact .of_pure _
  · exact .of_throw _

theorem nodeOf_gives (a : Argument α) : Gives (fun n => a.node? = some n) (nodeOf a) := by
  intro s n s' ran
  cases is : a.node? with
  | none =>
    rw [nodeOf, is] at ran
    exact absurd ran not_answer_throw
  | some m =>
    rw [nodeOf, is] at ran
    obtain ⟨rfl, _⟩ := answer_pure.mp ran
    rfl

theorem realOf_leaves (a : Argument α) : Leaves 0 0 (realOf a : SessionM α Float) := .of_lift _

theorem itemsOf_leaves (a : Argument α) : Leaves 0 0 (itemsOf a) := .of_lift _

theorem applyOn_leaves (on : Node α) (op : Operator α) (inputs : List (Argument α)) :
    Builds 0 (applyOn on op inputs) :=
  (Session.add_leaves on.graph op _).map Argument.node

/-- What an operator answers is a node. -/
theorem applyOn_gives (on : Node α) (op : Operator α) (inputs : List (Argument α)) :
    GivesNode (applyOn on op inputs) := by
  refine Gives.after fun n s a s' ran => ?_
  obtain ⟨same, _⟩ := answer_pure.mp ran
  exact ⟨n, same.symm⟩

theorem unary_leaves (op : Operator α) (a : Argument α) : Builds 0 (unary op a) :=
  (nodeOf_leaves a).after fun n => applyOn_leaves n op [a]

theorem unary_gives (op : Operator α) (a : Argument α) :
    GivesNode (unary op a) :=
  Gives.after fun n => applyOn_gives n op [a]

theorem withReal_leaves (make : Float → Unary) (parameter a : Argument α) :
    Builds 0 (withReal make parameter a) :=
  (realOf_leaves parameter).after fun x => unary_leaves (.unary (make x)) a

theorem withReal_gives (make : Float → Unary) (parameter a : Argument α) :
    GivesNode (withReal make parameter a) :=
  Gives.after fun x => unary_gives (.unary (make x)) a

theorem single_leaves (name : String) (a : Argument α) : Leaves 0 0 (single name a) := by
  unfold single
  split
  · exact .of_pure _
  · exact .of_pure _
  · exact .of_throw _
  · exact .of_throw _
  · exact .of_pure _

theorem constantLike_leaves (like : Node α) (shape : Shape) (init : Initializer α)
    (type : ElementType) : Leaves 0 1 (constantLike like shape init type) :=
  Session.constant_leaves like.graph shape init (.ok (some type)) none

/-! ### Functions of one operator -/

theorem neg_leaves (a : Argument α) : Builds 0 (neg a) := unary_leaves (.unary .neg) a

theorem activation_leaves (name : String) (op : Operator α) (a : Argument α) :
    Builds 0 (activation name op a) :=
  (single_leaves name a).after fun item => unary_leaves op item

theorem tanh_leaves (arguments : List (Argument α)) : Builds 0 (tanh arguments) := by
  unfold tanh
  dsimp only
  split
  · exact .of_throw _
  next first rest _ => exact (nodeOf_leaves first).after fun n => applyOn_leaves n (.joint .tanh) _

theorem highway_leaves (y x t : Argument α) : Builds 0 (highway y x t) :=
  (nodeOf_leaves x).after fun n => applyOn_leaves n (.joint .highway) [y, x, t]

theorem debug_leaves (a message : Argument α) : Builds 0 (debug a message) := by
  refine (nodeOf_leaves a).after fun n => (Leaves.of_lift _).after fun said => ?_
  exact applyOn_leaves n _ [a]

theorem checkpoint_leaves (a : Argument α) : Leaves 0 0 (checkpoint a) :=
  (nodeOf_leaves a).after fun n => (Session.checkpoint_leaves n.graph n).map Argument.node

theorem cast_leaves (a type : Argument α) : Builds 0 (cast a type) := by
  have unlessNamed (held : String) : Builds 0 (cast.unlessNamed a type held) := by
    refine (Leaves.of_lift _).after fun named => ?_
    split
    · exact .of_pure a
    · exact (Leaves.of_lift _).after fun _ => .of_throw _
  unfold cast
  split
  · refine (Leaves.of_lift _).after fun named => ?_
    split
    · exact .of_pure _
    · exact (Leaves.of_lift _).after fun t => unary_leaves (.cast t) _
  · exact unlessNamed _
  · exact unlessNamed _
  · exact .of_throw _

theorem transpose_leaves (a axes : Argument α) : Builds 0 (transpose a axes) := by
  unfold transpose
  split
  · refine (nodeOf_leaves a).after fun n => ?_
    split
    · exact (Leaves.of_throw _).after fun _ => unary_leaves _ a
    · exact unary_leaves _ a
  · exact (Leaves.of_lift _).after fun places => unary_leaves (.transpose places) a

theorem swapAxes_leaves (a axis1 axis2 : Argument α) : Builds 0 (swapAxes a axis1 axis2) := by
  refine (nodeOf_leaves a).after fun n => (Leaves.of_lift _).after fun i => ?_
  refine (Leaves.of_lift _).after fun j => ?_
  split
  · exact .of_pure a
  · exact unary_leaves _ a

theorem concatenate_leaves (nodes axis : Argument α) : Builds 0 (concatenate nodes axis) := by
  refine (itemsOf_leaves nodes).after fun items => ?_
  split
  · exact .of_throw _
  · exact .of_pure _
  next first rest _ => exact (nodeOf_leaves first).after fun n => applyOn_leaves n _ _

theorem reshape_leaves (a shape : Argument α) : Builds 0 (reshape a shape) :=
  (Leaves.of_lift _).after fun extents => unary_leaves (.reshape extents) a

theorem atLeast_leaves (a dims : Argument α) : Builds 0 (atLeast a dims) := by
  refine (nodeOf_leaves a).after fun n => ?_
  have widened (s : Scalar) : Leaves 0 1 (do
      let missing ← lift (missingAxes s n.shape.rank)
      if missing = 0 then pure a
      else unary (.reshape (List.replicate missing 1 ++ n.shape.extents.map Int.ofNat)) a) := by
    refine (Leaves.of_lift _).after fun missing => ?_
    split
    · exact .of_pure a
    · exact unary_leaves _ a
  dsimp only
  split
  · exact (Leaves.of_pure _).after widened
  · split
    · exact (Leaves.of_pure _).after widened
    · exact (Leaves.of_throw _).after widened
  · exact (Leaves.of_throw _).after widened

theorem flatten_leaves (a : Argument α) : Builds 0 (flatten a) :=
  (nodeOf_leaves a).after fun _ => unary_leaves _ a

theorem flattenRows_leaves (a : Argument α) : Builds 0 (flattenRows a) :=
  (nodeOf_leaves a).after fun _ => unary_leaves _ a

theorem slice_leaves (a axis index : Argument α) : Builds 0 (slice a axis index) :=
  unary_leaves _ a

theorem reduce_leaves (r : Reduction) (a axis : Argument α) : Builds 0 (reduce r a axis) :=
  unary_leaves _ a

theorem layerNorm_leaves (x gamma beta eps : Argument α) :
    Builds 0 (layerNorm x gamma beta eps) :=
  (nodeOf_leaves x).after fun n => (realOf_leaves eps).after fun _ => applyOn_leaves n _ _

theorem applyRule_leaves (inputs shape type forward backward name : Argument α) :
    Builds 0 (applyRule inputs shape type forward backward name) := by
  refine (itemsOf_leaves inputs).after fun items => ?_
  split
  · exact .of_throw _
  next first rest =>
    refine (Leaves.of_lift _).after fun op => ?_
    exact (nodeOf_leaves first).after fun n => applyOn_leaves n op _

/-! ### Picks in order of size -/

/-- Entries can be picked with their places wherever they can be picked. -/
theorem infer_topK {k : Int} {axis : Axis} {descending : Bool} {signatures : List Signature}
    {t : Signature} (picked : (Operator.topK k axis descending false : Operator α).infer
      signatures = .ok t) :
    (Operator.topK k axis descending true : Operator α).infer signatures =
      .ok ⟨t.shape, .index⟩ := by
  obtain ⟨a, only, picked⟩ := bind_eq_ok.mp picked
  refine bind_eq_ok.mpr ⟨a, only, ?_⟩
  obtain ⟨i, resolved, picked⟩ := bind_eq_ok.mp picked
  refine bind_eq_ok.mpr ⟨i, resolved, ?_⟩
  dsimp only at picked ⊢
  split at picked
  · cases picked
  next within =>
    rw [if_neg within]
    obtain ⟨shape, set, same⟩ := bind_eq_ok.mp picked
    cases same
    exact bind_eq_ok.mpr ⟨shape, set, rfl⟩

/-- What is picked has been recorded when the places are, and these are not refused then. -/
theorem topK_leaves (a k axis descending : Argument α) :
    Leaves 0 2 (topK a k axis descending) := by
  refine (nodeOf_leaves a).after fun n => (Leaves.of_lift _).after fun count => ?_
  refine (Leaves.of_lift _).after fun descending => ?_
  have values := applyOn_leaves n (.topK count axis.toAxis descending false) [a]
  have places := applyOn_leaves n (.topK count axis.toAxis descending true) [a]
  refine ⟨fun s f s' raised => ?_,
    (values.bind fun v => places.map fun p => Argument.tuple [v, p]).answer⟩
  rcases raise_bind.mp raised with here | ⟨b, s₁, ran, raised⟩
  · exact values.raise s f s' here
  obtain ⟨m, s₂, added, answered⟩ := answer_bind.mp ran
  obtain ⟨_, rfl⟩ := answer_pure.mp answered
  obtain ⟨p, s₃, again⟩ := Session.add_again (fun _ t picked => ⟨_, infer_topK picked⟩) added
  rw [raise_bind] at raised
  rcases raised with here | ⟨_, _, _, impossible⟩
  · rcases raise_bind.mp here with here | ⟨_, _, _, impossible⟩
    · cases here.symm.trans again
    · exact absurd impossible not_raise_pure
  · exact absurd impossible not_raise_pure

/-! ### What signs leave -/

/-- How many nodes a refused sign can leave: a constant beside a node, unless a number is folded
into an operator, or the node with the other sign. -/
def signResidue (sign : String) (a b : Argument α) : Nat :=
  (lone a b && !b.isNumber && !(a.isNumber && (sign == "+" || sign == "*"))).toNat

theorem signResidue_le (sign : String) (a b : Argument α) : signResidue sign a b ≤ 1 :=
  Bool.toNat_le _

/-- The same where an array can stand on the left of a node. -/
def calculateResidue (sign : String) (a b : Argument α) : Nat :=
  match a, b.node? with
  | .array _ values, some _ => values.toList.length * 2
  | a, _ => signResidue sign a b

theorem signResidue_unstored (sign : String) (a b : Argument α) :
    signResidue sign (unstored a) b = signResidue sign a b := by
  have node : (unstored a).node? = a.node? := by cases a with
    | scalar s => cases s <;> rfl
    | _ => rfl
  have number : (unstored a).isNumber = a.isNumber := by cases a with
    | scalar s => cases s <;> rfl
    | _ => rfl
  rw [signResidue, lone, node, number, signResidue, lone]

/-! ### Promotion -/

variable [Element α]

theorem promote_leaves (a : Argument α) (like : Node α) : Leaves 0 1 (promote a like) := by
  refine (Leaves.of_lift _).after fun content => (Leaves.of_lift _).after fun shape => ?_
  exact constantLike_leaves ..

theorem binary_leaves (op : Operator α) (a b : Argument α) :
    Builds (lone a b).toNat (binary op a b) := by
  unfold binary lone
  cases a.node? with
  | some n =>
    cases b.node? with
    | some m => exact applyOn_leaves ..
    | none =>
      exact (promote_leaves b n).bind fun c => applyOn_leaves n op [a, .node c]
  | none =>
    cases b.node? with
    | some m => exact (promote_leaves a m).bind fun c => applyOn_leaves m op [.node c, b]
    | none => exact .of_throw _

theorem binary_gives (op : Operator α) (a b : Argument α) :
    GivesNode (binary op a b) := by
  unfold binary
  split
  · exact applyOn_gives _ op [a, b]
  · exact Gives.after fun c => applyOn_gives _ op [a, .node c]
  · exact Gives.after fun c => applyOn_gives _ op [.node c, b]
  · exact fun _ _ _ ran => absurd ran not_answer_throw

/-- Literal indices become a constant. -/
theorem indexNode_leaves (indices a : Argument α) :
    Leaves 0 indices.node?.isNone.toNat (indexNode indices a) := by
  unfold indexNode
  split
  · exact .of_pure _
  next literal =>
    have none : indices.node? = none := by
      cases indices <;> first | rfl | exact absurd rfl (literal _)
    simp only [none, Option.isNone_none, Bool.toNat_true]
    refine (Leaves.of_lift _).after fun content => (nodeOf_leaves a).after fun like => ?_
    refine (Leaves.of_lift _).after fun shape => ?_
    exact (constantLike_leaves ..).map Argument.node

/-! ### Arithmetic -/

theorem folding_leaves (make : Float → Unary) (join : Joint) (a b : Argument α) :
    Builds (promoted a b).toNat (folding make join a b) := by
  have joined := binary_leaves (.joint join) a b
  unfold folding
  cases left : a.node? with
  | some n =>
    have other := Argument.isNumber_of_node left
    cases number : b.isNumber with
    | true => simpa [promoted, other, number] using withReal_leaves make b a
    | false => simpa [promoted, other, number] using joined
  | none =>
    cases right : b.node? with
    | some n =>
      have other := Argument.isNumber_of_node right
      cases number : a.isNumber with
      | true => simpa [promoted, other, number] using withReal_leaves make a b
      | false => simpa [promoted, other, number] using joined
    | none => simpa [promoted, lone, left, right] using joined

theorem folding_gives (make : Float → Unary) (join : Joint) (a b : Argument α) :
    GivesNode (folding make join a b) := by
  unfold folding
  split
  · split
    · exact withReal_gives make b a
    · exact binary_gives (.joint join) a b
  · split
    · exact withReal_gives make a b
    · exact binary_gives (.joint join) a b
  · exact binary_gives (.joint join) a b

theorem add_leaves (a b : Argument α) :
    Builds (promoted a b).toNat (add a b) :=
  folding_leaves .addScalar .plus a b

theorem mul_leaves (a b : Argument α) :
    Builds (promoted a b).toNat (mul a b) :=
  folding_leaves .mulScalar .mult a b

theorem add_nodes (m n : Node α) : Builds 0 (add (.node m) (.node n)) := by
  simpa [promoted, lone, Argument.node?] using add_leaves (.node m) (.node n)

theorem mul_nodes (m n : Node α) : Builds 0 (mul (.node m) (.node n)) := by
  simpa [promoted, lone, Argument.node?] using mul_leaves (.node m) (.node n)

/-- Nothing is promoted beside a number. -/
theorem mul_number {b : Argument α} (number : b.isNumber = true) (a : Argument α) :
    Builds 0 (mul a b) := by
  simpa [promoted, number] using mul_leaves a b

/-- A number minus a node is the number added to a new node with the other sign. -/
theorem sub_leaves (a b : Argument α) :
    Builds (lone a b && !b.isNumber).toNat (sub a b) := by
  have joined := binary_leaves (.joint .minus) a b
  unfold sub
  cases left : a.node? with
  | some n =>
    cases number : b.isNumber with
    | true => simpa using withReal_leaves .addScalar b.negated a
    | false => simpa using joined
  | none =>
    cases right : b.node? with
    | some n =>
      have other := Argument.isNumber_of_node right
      cases number : a.isNumber with
      | true =>
        simp only [lone, left, right, other]
        refine (realOf_leaves a).after fun x => ?_
        exact (neg_leaves b).bind fun c => unary_leaves (.unary (.addScalar x)) c
      | false => simpa [other] using joined
    | none => simpa [lone, left, right] using joined

theorem div_leaves (a b : Argument α) :
    Builds (lone a b && !b.isNumber).toNat (div a b) := by
  have joined := binary_leaves (.joint .div) a b
  unfold div
  cases number : b.isNumber with
  | false => simpa using joined
  | true =>
    have right : b.node? = none := by
      cases right : b.node? with
      | none => rfl
      | some n => simp [Argument.isNumber_of_node right] at number
    cases left : a.node? with
    | some n =>
      simp only [Option.isSome_some, Bool.and_self, if_true, Bool.not_true, Bool.and_false]
      exact (Leaves.of_lift _).after fun x => unary_leaves (.unary (.mulScalar x)) a
    | none => simpa [lone, left, right] using joined

theorem signed_leaves (sign : String) (a b : Argument α) :
    Builds (signResidue sign a b) (signed sign a b) := by
  unfold signed signResidue
  split
  · simpa [promoted, Bool.and_right_comm] using add_leaves a b
  · simpa using sub_leaves a b
  · simpa [promoted, Bool.and_right_comm] using mul_leaves a b
  · simpa using div_leaves a b
  · exact .of_throw _

theorem calculate_leaves (sign : String) (a b : Argument α) :
    Builds (calculateResidue sign a b) (calculate sign a b) := by
  unfold calculate
  split
  · exact .of_lift _
  next n left =>
    have residue : calculateResidue sign a b = signResidue sign a b := by
      cases a <;> first | rfl | cases left
    rw [residue]
    exact signed_leaves sign a b
  next n left right =>
    split
    next t values =>
      have residue : calculateResidue sign (.array t values) b = values.toList.length * 2 := by
        simp [calculateResidue, right]
      rw [residue]
      have each (s : Scalar) : Leaves 2 2 (signed sign (unstored (.scalar s)) b) :=
        (signed_leaves sign (unstored (.scalar s)) b).mono
          (Nat.le_succ_of_le (signResidue_le ..)) (Nat.succ_le_succ (signResidue_le ..))
      refine ((Leaves.mapM each values.toList).before fun results => ?_).mono (Nat.le_refl _)
        (Nat.le_succ _)
      split <;> exact .of_pure _
    next other =>
      have residue : calculateResidue sign a b = signResidue sign a b := by
        cases a <;> first | rfl | exact absurd rfl (other _ _)
      rw [residue, ← signResidue_unstored]
      exact signed_leaves sign (unstored a) b

theorem constantLikeNode_leaves (a init : Argument α) : Builds 0 (constantLikeNode a init) := by
  refine (nodeOf_leaves a).after fun n => (Leaves.of_lift _).after fun init => ?_
  exact (constantLike_leaves n n.shape init n.type).map Argument.node

/-- A stored truth value is less than one or equal to it, so it is never a factor. -/
theorem repeated_leaves (a repeats axis : Argument α) : Builds 0 (repeated a repeats axis) := by
  unfold repeated
  split
  · split
    next s _ =>
      split
      · exact .of_throw _
      split
      · exact .of_pure a
      next above other =>
        refine mul_number ?_ a
        cases s with
        | bool b => cases b <;> simp_all +decide
        | _ => rfl
    · exact .of_throw _
  · split
    · exact .of_throw _
    · refine (Leaves.of_lift _).after fun count => ?_
      split
      · exact .of_pure a
      · exact concatenate_leaves _ axis

/-! ### Literal indices -/

/-- An operator applied to an argument and its indices. -/
theorem indexed_leaves (op : Operator α) (a indices : Argument α) :
    Builds indices.node?.isNone.toNat (do
      let n ← nodeOf a
      applyOn n op [a, ← indexNode indices a]) := by
  refine (nodeOf_leaves a).after fun n => ?_
  exact ((indexNode_leaves indices a).bind fun i => applyOn_leaves n op [a, i]).mono
    (by simp) (Nat.le_refl _)

theorem gather_leaves (a axis indices : Argument α) :
    Builds indices.node?.isNone.toNat (gather a axis indices) :=
  indexed_leaves (.gather axis.toAxis) a indices

theorem indexSelect_leaves (a axis indices : Argument α) :
    Builds indices.node?.isNone.toNat (indexSelect a axis indices) :=
  indexed_leaves (.indexSelect axis.toAxis) a indices

theorem crossEntropy_leaves (logits labels smoothing : Argument α) :
    Builds labels.node?.isNone.toNat (crossEntropy logits labels smoothing) := by
  have applied (i : Argument α) : Leaves 0 1 (do
      let n ← nodeOf logits
      applyOn n (.crossEntropy (← realOf smoothing)) [logits, i]) :=
    (nodeOf_leaves logits).after fun n => (realOf_leaves smoothing).after fun e =>
      applyOn_leaves n (.crossEntropy e) [logits, i]
  exact ((indexNode_leaves labels logits).bind applied).mono (by simp) (Nat.le_refl _)

/-! ### Functions of several operators -/

theorem product_leaves (batched : Bool) (a b transA transB scalar : Argument α) :
    Builds (lone a b).toNat (product batched a b transA transB scalar) := by
  refine (Leaves.of_lift _).after fun _ => (Leaves.of_lift _).after fun _ => ?_
  exact (realOf_leaves scalar).after fun _ => binary_leaves _ a b

theorem product_gives (batched : Bool) (a b transA transB scalar : Argument α) :
    GivesNode (product batched a b transA transB scalar) :=
  Gives.after fun _ => Gives.after fun _ => Gives.after fun _ => binary_gives _ a b

/-- The product is left behind where the bias does not fit, and so is the bias if it is
promoted. -/
theorem affine_leaves (a b bias transA transB scalar : Argument α) :
    Leaves ((lone a b).toNat + 1 + bias.loose.toNat) ((lone a b).toNat + 1 + (bias.loose.toNat + 1))
      (affine a b bias transA transB scalar) := by
  have biased (c : Argument α) (made : ∃ n, c = .node n) :
      Leaves bias.loose.toNat (bias.loose.toNat + 1) (add c bias) := by
    obtain ⟨n, rfl⟩ := made
    rw [← Argument.promoted_node n bias]
    exact add_leaves (.node n) bias
  exact ((product_leaves false a b transA transB scalar).bind_of
    (product_gives false a b transA transB scalar) biased).mono (by omega) (Nat.le_refl _)

/-- The weighted sum and the sum of the weights are left behind where they cannot be divided. -/
theorem weightedAverage_leaves (a weights axis : Argument α) :
    Leaves ((lone a weights).toNat + 2) ((lone a weights).toNat + 3)
      (weightedAverage a weights axis) := by
  have divided (total sum : Argument α) (left : ∃ n, total = .node n) (right : ∃ n, sum = .node n) :
      Builds 0 (div total sum) := by
    obtain ⟨m, rfl⟩ := left
    obtain ⟨n, rfl⟩ := right
    simpa [lone, Argument.node?] using div_leaves (.node m) (.node n)
  refine ((binary_leaves _ a weights).bind_of (binary_gives _ a weights) fun total left =>
    (reduce_leaves .sum weights axis).bind_of (unary_gives _ weights) fun sum right =>
      divided total sum left right).mono ?_ ?_
  · omega
  · omega

/-- The mask is turned round, scaled and added: three operators, and a number minus a node is
one more. -/
theorem masked_leaves (scores mask : Argument α) : Leaves 3 4 (masked scores mask) := by
  refine (nodeOf_leaves scores).after_of (nodeOf_gives scores) fun n is => ?_
  split
  · exact .of_throw _
  next lowest _ =>
    have turned : Leaves 1 2 (sub (.real 1.0) mask) :=
      (sub_leaves _ mask).mono (Bool.toNat_le _) (Nat.succ_le_succ (Bool.toNat_le _))
    have scaled (c : Argument α) : Builds 0 (mul c (.real (lowest / 2.0))) := mul_number rfl c
    have added (c : Argument α) (made : ∃ n, c = .node n) : Builds 0 (add scores c) := by
      obtain ⟨m, rfl⟩ := made
      obtain rfl : scores = .node n := by
        cases scores <;> cases is
        rfl
      exact add_nodes n m
    exact turned.bind fun c => (scaled c).bind_of (folding_gives _ _ c _) added

theorem softmax_leaves (a axis mask : Argument α) : Leaves 4 5 (softmax a axis mask) := by
  unfold softmax
  split
  · exact ((Leaves.of_pure a).after fun c => unary_leaves _ c).mono (Nat.zero_le _) (by decide)
  · exact (masked_leaves a mask).bind fun c => unary_leaves _ c

/-- Without a mask nothing is left behind. -/
theorem softmax_unmasked (a axis : Argument α) : Builds 0 (softmax a axis .none) :=
  (Leaves.of_pure a).after fun c => unary_leaves _ c

/-- The bound that is calculated is left behind where it is no place. -/
theorem narrow_leaves (a axis start length : Argument α) :
    Leaves (calculateResidue "+" start length + 1) (calculateResidue "+" start length + 2)
      (narrow a axis start length) :=
  ((calculate_leaves "+" start length).bind fun stop => unary_leaves _ a).mono
    (by omega) (Nat.le_refl _)

theorem narrow_literal {start length : Argument α} (first : start.node? = none)
    (second : length.node? = none) (a axis : Argument α) :
    Builds 0 (narrow a axis start length) := by
  have calculated : Leaves 0 0 (calculate "+" start length) := by
    unfold calculate
    rw [first, second]
    exact .of_lift _
  exact calculated.after fun stop => unary_leaves _ a

theorem dropoutMask_leaves (serial : Nat) (probability shape : Argument α)
    (type : Deferred (Option ElementType)) :
    Leaves 0 1 (dropoutMask serial probability shape type) :=
  (Leaves.of_lift _).after fun init => (Leaves.of_lift _).after fun shape =>
    Session.constant_leaves serial shape init type none

/-- How many nodes a refused dropout can leave: a mask that does not fit, unless it is given. -/
def dropoutResidue (a probability : Argument α) : Nat :=
  if probability.node?.isSome then (promoted a probability).toNat else 1

theorem dropout_leaves (a probability shape : Argument α) :
    Builds (dropoutResidue a probability) (dropout a probability shape) := by
  unfold dropout
  split
  next m => exact mul_leaves a (.node m)
  next other =>
    have residue : dropoutResidue a probability = 1 := by
      cases probability <;> first | rfl | exact absurd rfl (other _)
    rw [residue]
    refine (Leaves.of_lift _).after fun zero => ?_
    split
    · exact .of_pure a
    refine (nodeOf_leaves a).after_of (nodeOf_gives a) fun n is => ?_
    obtain rfl : a = .node n := by
      cases a <;> cases is
      rfl
    exact (dropoutMask_leaves ..).bind fun m => mul_nodes n m

end Expression

end ReverseMode
