import ReverseMode.Proofs.Builders
import ReverseMode.Proofs.Exact

/-!
Refused calls of the expression language.

A call that is refused leaves what its builder had added before. `residue` bounds the number of
nodes for every function; it is zero for all of one operator whose arguments are nodes. Whatever
is called, by name, as a method or by a sign, nothing else changes that passes start from.
-/

namespace ReverseMode

namespace Expression

open Argument (lone promoted)
open Session (Leaves Grows)
open Definition (of1 of2 of3 of4)

variable {α : Type}

/-! ### What is left behind -/

/-- The most nodes that a refused function leaves behind. -/
def residue (name : String) (arguments : List (Argument α)) : Nat :=
  match name, arguments with
  | "add", [a, b] | "mul", [a, b] => (promoted a b).toNat
  | "sub", [a, b] | "div", [a, b] => (lone a b && !b.isNumber).toNat
  | "logaddexp", [a, b] | "maximum", [a, b] | "minimum", [a, b] => (lone a b).toNat
  | "lt", [a, b] | "le", [a, b] | "gt", [a, b] => (lone a b).toNat
  | "ge", [a, b] | "eq", [a, b] | "ne", [a, b] => (lone a b).toNat
  | "dot", a :: b :: _ | "bdot", a :: b :: _ | "scalar_product", a :: b :: _ => (lone a b).toNat
  | "affine", a :: b :: bias :: _ => (lone a b).toNat + 1 + bias.loose.toNat
  | "weighted_average", a :: weights :: _ => (lone a weights).toNat + 2
  | "softmax", [_, _, .none] => 0
  | "softmax", _ => 4
  | "gather", [_, _, indices] | "index_select", [_, _, indices] => indices.node?.isNone.toNat
  | "rows", [_, indices] | "cols", [_, indices] => indices.node?.isNone.toNat
  | "cross_entropy", _ :: labels :: _ => labels.node?.isNone.toNat
  | "narrow", [_, _, start, length] =>
    if start.node?.isNone && length.node?.isNone then 0 else calculateResidue "+" start length + 1
  | "dropout", a :: probability :: _ => dropoutResidue a probability
  | _, _ => 0

/-- The most nodes that a refused sign leaves behind. -/
def operateResidue (sign : String) (a b : Argument α) : Nat :=
  if sign == "@" then (a.node?.isSome && b.node?.isNone).toNat else calculateResidue sign a b

/-- Where a definition is refused it leaves no more than its residue. -/
def Bounded (d : Definition α) : Prop :=
  ∀ arguments, ∃ m, Leaves (residue d.name arguments) m (d.build arguments)

section Forms

variable {name : String} {p q r t : Formal α}

theorem of1_bounded {f : Argument α → SessionM α (Argument α)} {m : Argument α → Nat}
    (each : ∀ a, Leaves (residue name [a]) (m a) (f a)) : Bounded (of1 name p f) := by
  intro arguments
  unfold of1
  dsimp only
  split
  · exact ⟨_, each _⟩
  · exact ⟨0, .of_throw _⟩

theorem of2_bounded {f : Argument α → Argument α → SessionM α (Argument α)}
    {m : Argument α → Argument α → Nat}
    (each : ∀ a b, Leaves (residue name [a, b]) (m a b) (f a b)) : Bounded (of2 name p q f) := by
  intro arguments
  unfold of2
  dsimp only
  split
  · exact ⟨_, each _ _⟩
  · exact ⟨0, .of_throw _⟩

theorem of3_bounded {f : Argument α → Argument α → Argument α → SessionM α (Argument α)}
    {m : Argument α → Argument α → Argument α → Nat}
    (each : ∀ a b c, Leaves (residue name [a, b, c]) (m a b c) (f a b c)) :
    Bounded (of3 name p q r f) := by
  intro arguments
  unfold of3
  dsimp only
  split
  · exact ⟨_, each _ _ _⟩
  · exact ⟨0, .of_throw _⟩

theorem of4_bounded
    {f : Argument α → Argument α → Argument α → Argument α → SessionM α (Argument α)}
    {m : Argument α → Argument α → Argument α → Argument α → Nat}
    (each : ∀ a b c d, Leaves (residue name [a, b, c, d]) (m a b c d) (f a b c d)) :
    Bounded (of4 name p q r t f) := by
  intro arguments
  unfold of4
  dsimp only
  split
  · exact ⟨_, each _ _ _ _⟩
  · exact ⟨0, .of_throw _⟩

end Forms

/-! ### The functions -/

theorem special_bounded : ∀ d ∈ (special : List (Definition α)), Bounded d := by
  simp only [special, List.forall_mem_cons]
  refine ⟨of2_bounded debug_leaves, of1_bounded checkpoint_leaves, fun arguments => ?_, by simp⟩
  dsimp only
  split
  · exact ⟨1, applyRule_leaves ..⟩
  · exact ⟨0, .of_throw _⟩

theorem activations_bounded : ∀ d ∈ (activations : List (Definition α)), Bounded d := by
  simp only [activations, List.forall_mem_cons]
  exact ⟨of1_bounded (single_leaves "plus"), of1_bounded (activation_leaves "sigmoid" _),
    of2_bounded fun a beta => (realOf_leaves beta).after fun _ => activation_leaves "swish" _ a,
    of1_bounded (activation_leaves "gelu" _), fun arguments => ⟨1, tanh_leaves arguments⟩,
    of1_bounded (activation_leaves "relu" _), of1_bounded (activation_leaves "leakyrelu" _),
    of2_bounded fun a alpha => (realOf_leaves alpha).after fun _ => activation_leaves "prelu" _ a,
    by simp⟩

theorem rankings_bounded : ∀ d ∈ (rankings : List (Definition α)), Bounded d := by
  simp only [rankings, List.forall_mem_cons]
  exact ⟨of4_bounded topK_leaves, of2_bounded fun a axis => topK_leaves a _ axis _,
    of2_bounded fun a axis => topK_leaves a _ axis _, by simp⟩

theorem reductions_bounded : ∀ d ∈ (reductions : List (Definition α)), Bounded d := by
  simp only [reductions, List.forall_mem_cons]
  exact ⟨of2_bounded (reduce_leaves _), of2_bounded (reduce_leaves _),
    of2_bounded (reduce_leaves _), of2_bounded (reduce_leaves _), of2_bounded (reduce_leaves _),
    of2_bounded (reduce_leaves _), of2_bounded (reduce_leaves _), of2_bounded (reduce_leaves _),
    by simp⟩

variable [Element α]

theorem joining_bounded {name : String} {join : Joint}
    (residue_eq : ∀ a b : Argument α, residue name [a, b] = (lone a b).toNat) :
    Bounded (joining name join : Definition α) :=
  of2_bounded fun a b => residue_eq a b ▸ binary_leaves (.joint join) a b

theorem arithmetic_bounded : ∀ d ∈ (arithmetic : List (Definition α)), Bounded d := by
  simp only [arithmetic, List.forall_mem_append, List.forall_mem_cons, List.forall_mem_map]
  refine ⟨⟨of1_bounded (unary_leaves _), of1_bounded (unary_leaves _),
    of1_bounded (unary_leaves _), of1_bounded (unary_leaves _), of1_bounded (unary_leaves _),
    of1_bounded (unary_leaves _), of1_bounded (unary_leaves _), of1_bounded (unary_leaves _),
    of2_bounded fun a eps => withReal_leaves .sqrt eps a, of2_bounded add_leaves,
    of2_bounded sub_leaves, of2_bounded mul_leaves, of2_bounded div_leaves,
    joining_bounded fun _ _ => rfl, joining_bounded fun _ _ => rfl, joining_bounded fun _ _ => rfl,
    by simp⟩, fun r _ => joining_bounded fun _ _ => ?_⟩
  cases r <;> rfl

theorem multiplying_bounded {name : String} {batched : Bool}
    (residue_eq : ∀ (a b : Argument α) rest, residue name (a :: b :: rest) = (lone a b).toNat) :
    Bounded (multiplying name batched : Definition α) := by
  intro arguments
  unfold multiplying
  dsimp only
  split
  · exact ⟨_, residue_eq _ _ _ ▸ product_leaves batched ..⟩
  · exact ⟨0, .of_throw _⟩

theorem products_bounded : ∀ d ∈ (products : List (Definition α)), Bounded d := by
  simp only [products, List.forall_mem_cons]
  refine ⟨multiplying_bounded fun _ _ _ => rfl, multiplying_bounded fun _ _ _ => rfl,
    fun arguments => ?_, by simp⟩
  dsimp only
  split
  · exact ⟨_, affine_leaves ..⟩
  · exact ⟨0, .of_throw _⟩

theorem layouts_bounded : ∀ d ∈ (layouts : List (Definition α)), Bounded d := by
  simp only [layouts, List.forall_mem_cons]
  exact ⟨of2_bounded transpose_leaves, of3_bounded swapAxes_leaves, of2_bounded cast_leaves,
    of2_bounded concatenate_leaves, of3_bounded repeated_leaves, of2_bounded reshape_leaves,
    of2_bounded fun a c => withReal_leaves .clip c a,
    of2_bounded fun a c => (realOf_leaves c).after fun _ => unary_leaves _ a,
    of1_bounded fun a => atLeast_leaves a _, of1_bounded fun a => atLeast_leaves a _,
    of1_bounded fun a => atLeast_leaves a _, of1_bounded fun a => atLeast_leaves a _,
    of2_bounded atLeast_leaves, of2_bounded constantLikeNode_leaves, of1_bounded flatten_leaves,
    of1_bounded flattenRows_leaves, of1_bounded (unary_leaves .stopGradient), by simp⟩

/-- The bound of a range is calculated at once where no node takes part. -/
theorem narrow_residue (a axis start length : Argument α) :
    Builds (residue "narrow" [a, axis, start, length]) (narrow a axis start length) := by
  have residue_eq : residue "narrow" [a, axis, start, length] =
      if start.node?.isNone && length.node?.isNone then 0
      else calculateResidue "+" start length + 1 := rfl
  rw [residue_eq]
  split
  next literal =>
    obtain ⟨first, second⟩ := Bool.and_eq_true_iff.mp literal
    exact narrow_literal (Option.isNone_iff_eq_none.mp first) (Option.isNone_iff_eq_none.mp second)
      a axis
  · exact narrow_leaves a axis start length

theorem selections_bounded : ∀ d ∈ (selections : List (Definition α)), Bounded d := by
  simp only [selections, List.forall_mem_cons]
  exact ⟨of3_bounded gather_leaves, of3_bounded indexSelect_leaves,
    of2_bounded fun a indices => indexSelect_leaves a _ indices,
    of2_bounded fun a indices => indexSelect_leaves a _ indices, of3_bounded slice_leaves,
    of4_bounded narrow_residue, by simp⟩

theorem softmax_residue (a axis mask : Argument α) :
    Builds (residue "softmax" [a, axis, mask]) (softmax a axis mask) := by
  cases mask with
  | none => exact softmax_unmasked a axis
  | _ => exact softmax_leaves a axis _

theorem compositions_bounded : ∀ d ∈ (compositions : List (Definition α)), Bounded d := by
  simp only [compositions, List.forall_mem_cons]
  exact ⟨of3_bounded softmax_residue, of2_bounded fun a axis => unary_leaves _ a,
    of3_bounded crossEntropy_leaves, of3_bounded fun a b axis => binary_leaves _ a b,
    of3_bounded weightedAverage_leaves, of4_bounded layerNorm_leaves, of3_bounded highway_leaves,
    of3_bounded dropout_leaves, by simp⟩

theorem definitions_bounded : ∀ d ∈ (definitions : List (Definition α)), Bounded d := by
  simp only [definitions, List.forall_mem_append]
  exact ⟨⟨⟨⟨⟨⟨⟨⟨special_bounded, activations_bounded⟩, arithmetic_bounded⟩, rankings_bounded⟩,
    products_bounded⟩, layouts_bounded⟩, selections_bounded⟩, reductions_bounded⟩,
    compositions_bounded⟩

/-! ### Calls, methods and signs -/

/-- The most nodes that a refused call leaves behind. Arguments that do not fit the parameters are
refused before anything is built. -/
def boundResidue (d : Definition α) (c : Call α) : Nat :=
  match d.bound c with
  | .ok arguments => residue d.name arguments
  | .error _ => 0

omit [Element α] in
theorem Bounded.call {d : Definition α} (bounded : Bounded d) (c : Call α) :
    ∃ m, Leaves (boundResidue d c) m (d.call c) := by
  unfold Definition.call boundResidue
  cases d.bound c with
  | ok arguments => exact bounded arguments
  | error f => exact ⟨0, .of_throw f⟩

/-- The same for the function of a name. -/
def callResidue (name : String) (c : Call α) : Nat :=
  match definitions.find? fun d : Definition α => d.name == name with
  | some d => boundResidue d c
  | none => 0

theorem call_leaves (name : String) (c : Call α) :
    ∃ m, Leaves (callResidue name c) m (call name c) := by
  unfold callResidue call
  cases found : definitions.find? fun d : Definition α => d.name == name with
  | some d => exact (definitions_bounded d (List.mem_of_find?_eq_some found)).call c
  | none => exact ⟨0, .of_throw _⟩

theorem methods_leave (self : Argument α) :
    ∀ d ∈ methods self, ∀ arguments, Leaves 0 1 (d.build arguments) := by
  have along {name : String} {p : Formal α} {f : Argument α → SessionM α (Argument α)}
      (each : ∀ a, Leaves 0 1 (f a)) (arguments : List (Argument α)) :
      Leaves 0 1 ((of1 name p f).build arguments) := by
    unfold of1
    dsimp only
    split
    · exact each _
    · exact .of_throw _
  simp only [methods, List.forall_mem_cons]
  exact ⟨fun _ => unary_leaves _ self, fun _ => unary_leaves _ self, fun _ => tanh_leaves [self],
    fun _ => unary_leaves _ self, fun _ => unary_leaves _ self, fun _ => neg_leaves self,
    fun _ => (checkpoint_leaves self).mono (Nat.le_refl 0) (Nat.zero_le 1),
    along (reduce_leaves .sum self), along (reduce_leaves .mean self),
    along (softmax_unmasked self), fun _ => reshape_leaves self _,
    fun _ => (Leaves.of_lift _).after (transpose_leaves self), by simp⟩

theorem callMethod_leaves (self : Argument α) (name : String) (c : Call α) :
    Leaves 0 1 (callMethod self name c) := by
  refine (nodeOf_leaves self).after fun _ => ?_
  split
  next d found =>
    exact (Leaves.of_lift _).after (methods_leave self d (List.mem_of_find?_eq_some found))
  · exact .of_throw _

/-- A matrix product takes a node on the left; what stands on the right is promoted. -/
theorem operate_leaves (sign : String) (a b : Argument α) :
    ∃ m, Leaves (operateResidue sign a b) m (operate sign a b) := by
  unfold operate operateResidue
  split
  · split
    next _ _ n =>
      have residue : ((Argument.node n).node?.isSome && b.node?.isNone) = lone (.node n) b := by
        rw [Argument.lone_node]
        rfl
      exact ⟨_, residue ▸ product_leaves false (.node n) b _ _ _⟩
    · exact ⟨0, .of_throw _⟩
    · exact ⟨0, .of_throw _⟩
    · exact ⟨0, .of_lift _⟩
  · exact ⟨_, calculate_leaves sign a b⟩

end Expression

/-! ### Refused calls -/

open Expression

/-- What can be said in the expression language: a function called by its name, a method of a
node, or a sign between two arguments. -/
inductive Utterance (α : Type) where
  | function (name : String) (c : Call α)
  | method (self : Argument α) (name : String) (c : Call α)
  | sign (sign : String) (a b : Argument α)

namespace Utterance

open ReverseMode.Graph (Grown rootList)
open Session (Leaves)

variable {α : Type} [Element α]

def run : Utterance α → SessionM α (Argument α)
  | function name c => call name c
  | method self name c => callMethod self name c
  | sign s a b => operate s a b

/-- The most nodes that are left behind where an utterance is refused. -/
def residue : Utterance α → Nat
  | function name c => callResidue name c
  | method _ _ _ => 0
  | sign s a b => operateResidue s a b

theorem run_leaves (u : Utterance α) : ∃ m, Leaves u.residue m u.run := by
  cases u with
  | function name c => exact call_leaves name c
  | method self name c => exact ⟨1, callMethod_leaves self name c⟩
  | sign s a b => exact operate_leaves s a b

/-- A refused utterance has added at most its residue to a graph. Where that is nothing, tape and
index are as before, and so are the node that a backward pass starts from by itself and the nodes
that a forward pass still has to compute. -/
theorem refused (u : Utterance α) {s s' : Session α} {f : Fault} (raised : u.run s = .error f s')
    (serial : Nat) :
    Grown u.residue (s.graphAt serial) (s'.graphAt serial) ∧
      (u.residue = 0 → (s'.graphAt serial).tape = (s.graphAt serial).tape ∧
        (s'.graphAt serial).index = (s.graphAt serial).index ∧
        (s'.graphAt serial).rootList .last = (s.graphAt serial).rootList .last ∧
        (s'.graphAt serial).uncomputed = (s.graphAt serial).uncomputed) := by
  obtain ⟨m, leaves⟩ := u.run_leaves
  have grown := leaves.raise s f s' raised serial
  refine ⟨grown, fun none => ?_⟩
  rw [none] at grown
  obtain ⟨tape, index, uncomputed⟩ := grown.same
  exact ⟨tape, index, by rw [rootList, rootList, tape], uncomputed⟩

end Utterance

namespace Sample

open Session (onGraph)

/-- An integer leaf that has been computed. -/
def pair : Node Int :=
  .leaf ⟨0, 0, .vector 2 Nat.two_pos, .int32, some 0, .ofBool false, none⟩ (.constant 3)

def paired : Session Int :=
  after ((do
    let serial ← Session.addGraph { type := .int32 }
    let _ ← onGraph serial (Graph.constant pair.shape (.constant 3) (.ok none) none)
    onGraph serial Graph.forward : SessionM Int Unit) {})

/-- A fraction added to integers is refused and leaves nothing. -/
theorem fraction_refused : ∃ f s', (Utterance.sign "+" (.node pair) (.real 1.5)).run paired =
    .error f s' ∧ (s'.graphAt 0).tape = (paired.graphAt 0).tape ∧
    (s'.graphAt 0).index = (paired.graphAt 0).index := by
  have refused : answers ((Utterance.sign "+" (.node pair) (.real 1.5)).run paired) = false := by
    decide +kernel
  obtain ⟨f, raised⟩ := raise_of_answers refused
  obtain ⟨_, same⟩ := Utterance.refused _ raised 0
  obtain ⟨tape, index, _⟩ := same rfl
  exact ⟨f, _, raised, tape, index⟩

/-- The session in which a fraction minus integers has been refused. -/
def stranded : Session Int := after ((Utterance.sign "-" (.real 1.5) (.node pair)).run paired)

/-- The integers with the other sign have been recorded by then: the last node is another one, and
it has to be computed before a backward pass. -/
theorem minus_strands :
    answers ((Utterance.sign "-" (.real 1.5) (.node pair)).run paired) = false ∧
    (paired.graphAt 0).tape.size = 1 ∧ (stranded.graphAt 0).tape.size = 2 ∧
    (paired.graphAt 0).index.toList.length = 0 ∧ (stranded.graphAt 0).index.toList.length = 1 ∧
    (paired.graphAt 0).uncomputed.length = 0 ∧ (stranded.graphAt 0).uncomputed.length = 1 := by
  decide +kernel

end Sample

end ReverseMode
