import ReverseMode.Proofs.Lockstep
import ReverseMode.Proofs.Values

/-!
Memory policy does not show.

A program decides on its next call from what it has seen so far: what its calls have answered,
and the values and gradients of the leaves that it has moved. A run of a program may keep and
checkpoint nodes in between, which the program does not see. Two runs of one program, on graphs
whose settings differ in the memory policy only, see the same and leave the same leaves,
gradients of leaves and random numbers.

Between a move and the next reading of values what was computed has to be forgotten; a world is
fresh where this has been done.
-/

namespace ReverseMode

variable {α : Type}

namespace Request

/-- Whether a call says which nodes are kept or dropped early. -/
def isPolicy : Request α → Bool
  | retain _ | checkpoint _ => true
  | _ => false

/-- Whether a call has an answer that does not depend on the memory policy. -/
def isCommon : Request α → Bool
  | retain _ | checkpoint _ | gradOf _ => false
  | _ => true

/-- Whether a call reads values. -/
def reads : Request α → Bool
  | forward | backward _ _ | value _ => true
  | _ => false

end Request

/-- What a program does in one step. -/
inductive Event (α : Type) where
  | call (r : Request α)
  /-- The elements of a leaf changed in place, as an optimizer does. -/
  | move (n : Node α) (f : Tensor α → Tensor α → Tensor α)

/-- What a program sees of one step. -/
inductive Seen (α : Type) where
  | answer (a : Answer α)
  /-- Value and gradient of a leaf before it is moved. -/
  | leaf (value grad : Option (Tensor α))

/-- The next step, from what has been seen; none where the program has ended. -/
abbrev Program (α : Type) := List (Seen α) → Option (Event α)

namespace World

open ReverseMode.Graph

/-- The world after a leaf has been moved. -/
def moved (w : World α) (n : Node α) (f : Tensor α → Tensor α → Tensor α) : World α :=
  ⟨w.graph.moved n f, w.known, False⟩

variable [Element α]

/-- One step of a program. -/
inductive Turn (program : Program α) : World α → List (Seen α) → World α → List (Seen α) → Prop
  | call {w : World α} {seen : List (Seen α)} {r : Request α} {a : Answer α} {g : Graph α}
      (asked : program seen = some (.call r)) (common : r.isCommon = true)
      (current : r.reads = true → w.fresh) (admissible : w.Admissible r)
      (answered : r.call w.graph = .ok a g) :
      Turn program w seen (w.next r a g) (seen ++ [.answer a])
  | move {w : World α} {seen : List (Seen α)} {n : Node α} {f : Tensor α → Tensor α → Tensor α}
      (asked : program seen = some (.move n f)) (mem : w.known n) (leaf : n.isLeaf = true) :
      Turn program w seen (w.moved n f)
        (seen ++ [.leaf (w.graph.held? n.id) (w.graph.grad? n.id)])

/-- The runs of a program, with what it has seen. No step raises. -/
inductive Run (program : Program α) (serial : Nat) (settings : Settings) :
    World α → List (Seen α) → Prop
  | start : Run program serial settings (start serial settings) []
  /-- A node is kept or checkpointed. -/
  | policy {w : World α} {seen : List (Seen α)} {r : Request α} {a : Answer α} {g : Graph α}
      (run : Run program serial settings w seen) (policy : r.isPolicy = true)
      (admissible : w.Admissible r) (answered : r.call w.graph = .ok a g) :
      Run program serial settings (w.next r a g) seen
  | turn {w w' : World α} {seen seen' : List (Seen α)}
      (run : Run program serial settings w seen) (turn : Turn program w seen w' seen') :
      Run program serial settings w' seen'

/-- Two worlds show the same. -/
structure Concur (w w' : World α) : Prop where
  known : w.known = w'.known
  alike : Alike w.known true w.graph w'.graph

variable {program : Program α} {serial : Nat} {settings settings' : Settings}
variable {w w' w₁ w₁' : World α} {seen seen' : List (Seen α)}

omit [Element α] in
theorem Concur.refl (w : World α) : Concur w w := ⟨rfl, .refl w.graph⟩

omit [Element α] in
theorem Concur.symm (concur : Concur w w') : Concur w' w :=
  ⟨concur.known.symm, concur.known ▸ concur.alike.symm⟩

omit [Element α] in
theorem Concur.trans (first : Concur w w₁) (second : Concur w₁ w') : Concur w w' :=
  ⟨first.known.trans second.known, first.alike.trans (first.known ▸ second.alike)⟩

/-! ### Steps -/

omit [Element α] in
/-- Keeping or checkpointing a node is not seen. -/
theorem policy_alike [Element α] (sound : Sound w.known w.graph) {r : Request α} {a : Answer α}
    {g : Graph α} (policy : r.isPolicy = true) (admissible : w.Admissible r)
    (answered : r.call w.graph = .ok a g) : Alike w.known true w.graph g := by
  cases r with
  | retain n =>
    obtain ⟨m, ran, rfl⟩ := answer_return.mp answered
    obtain ⟨rfl, used, rfl⟩ := retain_answer.mp ran
    have mem := admissible m (by simp [Request.nodes, Input.nodes]) (serial_of_checkNode used)
    exact flag_alike _ (sound.bound mem) (fun _ => rfl) (fun _ => rfl) fun _ => rfl
  | checkpoint n =>
    obtain ⟨m, ran, rfl⟩ := answer_return.mp answered
    obtain ⟨rfl, used, rfl⟩ := checkpoint_answer.mp ran
    have mem := admissible n (by simp [Request.nodes]) (serial_of_checkNode used)
    split
    · exact .refl w.graph
    · exact flag_alike _ (sound.bound mem) (fun _ => rfl) (fun _ => rfl) fun _ => rfl
  | _ => cases policy

theorem policy_concur (sound : Sound w.known w.graph) {r : Request α} {a : Answer α}
    {g : Graph α} (policy : r.isPolicy = true) (admissible : w.Admissible r)
    (answered : r.call w.graph = .ok a g) : Concur w (w.next r a g) := by
  have old : r.builds = false := by
    cases r with
    | add | constant | parameter => cases policy
    | _ => rfl
  exact ⟨(call_known admissible answered old).symm, policy_alike sound policy admissible answered⟩

/-- A call on graphs that are alike answers the same and leaves graphs that are alike. -/
theorem call_alike (invariant : Invariant w) {g₂ : Graph α} (sound : Sound w.known g₂)
    {r : Request α} (faithful : r.reads = true → Faithful w.known w.graph)
    (faithful' : r.reads = true → Faithful w.known g₂) (alike : Alike w.known true w.graph g₂)
    (common : r.isCommon = true) (admissible : w.Admissible r) {a a' : Answer α} {g g' : Graph α}
    (first : r.call w.graph = .ok a g) (second : r.call g₂ = .ok a' g') :
    a = a' ∧ Alike (knownAfter w.known a) true g g' := by
  have wf := invariant.sound.toWellFormed
  have wf' := sound.toWellFormed
  cases r with
  | retain | checkpoint | gradOf => cases common
  | add op inputs =>
    obtain ⟨n, ran, rfl⟩ := answer_return.mp first
    obtain ⟨m, ran', rfl⟩ := answer_return.mp second
    obtain ⟨rfl, together⟩ := add_together wf alike.abreast ran ran'
    exact ⟨rfl, together.alike wf alike⟩
  | constant shape init type name =>
    obtain ⟨n, ran, rfl⟩ := answer_return.mp first
    obtain ⟨m, ran', rfl⟩ := answer_return.mp second
    obtain ⟨rfl, together⟩ := constant_together alike.abreast ran ran'
    exact ⟨rfl, together.alike wf alike⟩
  | parameter name shape init type trainable =>
    obtain ⟨n, ran, rfl⟩ := answer_return.mp first
    obtain ⟨m, ran', rfl⟩ := answer_return.mp second
    obtain ⟨rfl, together⟩ := parameter_together alike.abreast ran ran'
    exact ⟨rfl, together.alike wf alike⟩
  | forward =>
    obtain ⟨_, ran, rfl⟩ := answer_return.mp first
    obtain ⟨_, ran', rfl⟩ := answer_return.mp second
    rw [knownAfter_of_none rfl]
    exact ⟨rfl, forward_alike (faithful rfl) (faithful' rfl) alike ran ran'⟩
  | backward roots seeds =>
    obtain ⟨_, ran, rfl⟩ := answer_return.mp first
    obtain ⟨_, ran', rfl⟩ := answer_return.mp second
    rw [knownAfter_of_none rfl]
    exact ⟨rfl, backward_alike (faithful rfl) (faithful' rfl) alike admissible ran ran'⟩
  | value n =>
    obtain ⟨t, ran, rfl⟩ := answer_return.mp first
    obtain ⟨u, ran', rfl⟩ := answer_return.mp second
    obtain ⟨rfl, alike'⟩ := value_alike (faithful rfl) (faithful' rfl) alike
      (known_of_input rfl admissible) ran ran'
    rw [knownAfter_of_none rfl]
    exact ⟨rfl, alike'⟩
  | reset keepParameters =>
    cases first
    cases second
    rw [knownAfter_of_none rfl]
    exact ⟨rfl, reset_alike wf wf' alike keepParameters⟩
  | invalidate n =>
    obtain ⟨_, ran, rfl⟩ := answer_return.mp first
    obtain ⟨_, ran', rfl⟩ := answer_return.mp second
    rw [knownAfter_of_none rfl]
    refine ⟨rfl, invalidate_alike wf wf' alike (fun m given home => ?_) ran ran'⟩
    exact admissible m (by simp [given, Request.nodes, Input.nodes]) home
  | zeroGrad n =>
    cases first
    cases second
    rw [knownAfter_of_none rfl]
    exact ⟨rfl, zeroGrad_alike wf wf' alike admissible⟩
  | zeroGrads =>
    cases first
    cases second
    rw [knownAfter_of_none rfl]
    exact ⟨rfl, zeroGrads_alike wf wf' alike⟩

/-- A step of a program keeps what holds of a world. -/
theorem Turn.invariant (turn : Turn program w seen w₁ seen') (invariant : Invariant w) :
    Invariant w₁ := by
  cases turn with
  | call asked common current admissible answered =>
    exact Step.invariant (.answer admissible answered) invariant
  | @move n f asked mem leaf =>
    exact ⟨invariant.sound.moved n f, invariant.stored.moved n f, False.elim⟩

omit [Element α] in
theorem Turn.length [Element α] (turn : Turn program w seen w₁ seen') :
    seen'.length = seen.length + 1 := by
  cases turn with
  | call => simp
  | move => simp

/-- Where two runs have seen the same, the program takes the same step in both, and sees the
same of it. -/
theorem Turn.concur {seen₁ seen₁' : List (Seen α)} (turn : Turn program w seen w₁ seen₁)
    (turn' : Turn program w' seen w₁' seen₁') (invariant : Invariant w)
    (invariant' : Invariant w') (concur : Concur w w') : seen₁ = seen₁' ∧ Concur w₁ w₁' := by
  obtain ⟨known, alike⟩ := concur
  cases turn with
  | call asked common current admissible answered =>
    cases turn' with
    | call asked' _ current' _ answered' =>
      cases asked.symm.trans asked'
      obtain ⟨rfl, alike'⟩ := call_alike invariant (known ▸ invariant'.sound)
        (fun reads => invariant.faithful (current reads))
        (fun reads => known ▸ invariant'.faithful (current' reads)) alike common admissible
        answered answered'
      exact ⟨rfl, by rw [next, next, known], alike'⟩
    | move asked' => cases asked.symm.trans asked'
  | move asked mem leaf =>
    cases turn' with
    | call asked' => cases asked.symm.trans asked'
    | move asked' mem' leaf' =>
      cases asked.symm.trans asked'
      refine ⟨?_, known, moved_alike invariant.stored (known ▸ invariant'.stored) alike mem leaf _⟩
      rw [alike.value _ mem leaf, alike.grad rfl _ mem leaf]

/-! ### Runs -/

theorem Run.invariant (run : Run program serial settings w seen) : Invariant w := by
  induction run with
  | start => exact Reachable.invariant (.start serial settings)
  | policy _ _ admissible answered ih => exact Step.invariant (.answer admissible answered) ih
  | turn _ turn ih => exact turn.invariant ih

/-- A run starts, or has taken a last step; what has been kept or checkpointed since is not
seen. -/
theorem Run.last (run : Run program serial settings w seen) :
    (seen = [] ∧ Concur (World.start serial settings) w) ∨
      ∃ w₀ seen₀ w₁, Run program serial settings w₀ seen₀ ∧ Turn program w₀ seen₀ w₁ seen ∧
        Concur w₁ w := by
  induction run with
  | start => exact .inl ⟨rfl, .refl _⟩
  | policy run policy admissible answered ih =>
    have concur := policy_concur run.invariant.sound policy admissible answered
    rcases ih with ⟨none, since⟩ | ⟨w₀, seen₀, w₁, before, turn, since⟩
    · exact .inl ⟨none, since.trans concur⟩
    · exact .inr ⟨w₀, seen₀, w₁, before, turn, since.trans concur⟩
  | turn run turn _ => exact .inr ⟨_, _, _, run, turn, .refl _⟩

omit [Element α] in
/-- Graphs start alike where their settings differ in the memory policy only. -/
theorem start_concur (serial : Nat) (same : settings.policyFree = settings'.policyFree) :
    Concur (World.start serial settings : World α) (World.start serial settings') := by
  have seed : settings.seed = settings'.seed := (congrArg Settings.seed same :)
  refine ⟨rfl, ?_, ?_, nofun, nofun, nofun⟩
  · simp [World.start, Graph.face, Graph.outline, Graph.create, same]
  · simp [World.start, Graph.create, seed]

/-- Runs of as many steps have seen the same. -/
theorem Run.concur (same : settings.policyFree = settings'.policyFree)
    (run : Run program serial settings w seen) (run' : Run program serial settings' w' seen')
    (steps : seen.length = seen'.length) : seen = seen' ∧ Concur w w' := by
  induction count : seen.length generalizing w w' seen seen' with
  | zero =>
    have empty := List.length_eq_zero_iff.mp count
    have empty' := List.length_eq_zero_iff.mp (steps.symm.trans count)
    rcases run.last with ⟨_, since⟩ | ⟨_, _, _, _, turn, _⟩
    · rcases run'.last with ⟨_, since'⟩ | ⟨_, _, _, _, turn, _⟩
      · exact ⟨empty.trans empty'.symm, since.symm.trans ((start_concur serial same).trans since')⟩
      · have := turn.length
        omega
    · have := turn.length
      omega
  | succ k ih =>
    rcases run.last with ⟨rfl, _⟩ | ⟨w₀, seen₀, w₁, before, turn, since⟩
    · cases count
    · rcases run'.last with ⟨rfl, _⟩ | ⟨w₀', seen₀', w₁', before', turn', since'⟩
      · cases steps.symm.trans count
      · have length := turn.length
        have length' := turn'.length
        obtain ⟨rfl, earlier⟩ := ih before before' (by omega) (by omega)
        obtain ⟨rfl, concur⟩ := turn.concur turn' before.invariant before'.invariant earlier
        exact ⟨rfl, since.symm.trans (concur.trans since')⟩

/-- The memory policy does not show. Two runs of as many steps of one program, on graphs whose
settings differ in the memory policy only, have had the same answers and leave the same random
numbers, nodes and parameters, and on every leaf the same value and gradient. This holds after
every step, since what a run has done so far is a run. -/
theorem policy_invisible (same : settings.policyFree = settings'.policyFree)
    (run : Run program serial settings w seen) (run' : Run program serial settings' w' seen')
    (steps : seen.length = seen'.length) :
    seen = seen' ∧ w.graph.random = w'.graph.random ∧ w.known = w'.known ∧
      w.graph.parameters = w'.graph.parameters ∧
      ∀ n, w.known n → n.isLeaf = true →
        w.graph.held? n.id = w'.graph.held? n.id ∧ w.graph.grad? n.id = w'.graph.grad? n.id := by
  obtain ⟨rfl, known, alike⟩ := run.concur same run' steps
  exact ⟨rfl, alike.random, known, alike.parameters,
    fun n mem leaf => ⟨alike.value n mem leaf, alike.grad rfl n mem leaf⟩⟩

end World

/-! ### An example -/

namespace Sample

open ReverseMode.Graph World

/-- Settings that release memory or not. -/
def releasing (release : Bool) : Settings := { type := .float64, releaseMemory := release }

/-- A parameter, its square, and the sum of both are built, computed and differentiated. -/
def script : List (Event Int) :=
  [.call (.parameter name x.shape (.ok (.constant 3)) (.ok none) (.ofBool true)),
    .call (.add (.joint .mult) [.node x, .node x]),
    .call (.add (.joint .plus) [.node square, .node x]),
    .call .forward,
    .call (.backward .last .ones)]

def scripted : Program Int := fun seen => script[seen.length]?

/-- What the construction calls have answered. -/
def nodes : List (Seen Int) := [.answer (.node x), .answer (.node square), .answer (.node sum)]

/-- The graph has been built. -/
def assembled (release : Bool) : World Int :=
  let w : World Int := start 0 (releasing release)
  let w := w.next (.parameter name x.shape (.ok (.constant 3)) (.ok none) (.ofBool true)) (.node x)
    (w.graph.registered x)
  let w := w.next (.add (.joint .mult) [.node x, .node x]) (.node square) (w.graph.recorded square)
  w.next (.add (.joint .plus) [.node square, .node x]) (.node sum) (w.graph.recorded sum)

theorem assembled_run (release : Bool) :
    Run scripted 0 (releasing release) (assembled release) nodes := by
  refine .turn (.turn (.turn .start (.call rfl rfl nofun ?_ rfl)) (.call rfl rfl nofun ?_ rfl))
    (.call rfl rfl nofun ?_ rfl)
  · intro n inside
    cases inside
  · intro n inside _
    simp [Request.nodes, Input.nodes] at inside
    exact .inr (congrArg some inside.symm)
  · intro n inside _
    simp [Request.nodes, Input.nodes] at inside
    rcases inside with rfl | rfl
    · exact .inr rfl
    · exact .inl (.inr rfl)

/-- The world after a call that answers nothing. -/
def following (w : World Int) (r : Request Int) : World Int :=
  w.next r .done (after (r.call w.graph))

/-- The square is checkpointed, and memory is released. -/
def frugal : World Int :=
  let w := (assembled true).next (.checkpoint square) (.node square)
    ((assembled true).graph.modifySlot square.id fun s => { s with checkpoint := true })
  following (following w .forward) (.backward .last .ones)

/-- Nothing is dropped. -/
def lavish : World Int :=
  following (following (assembled false) .forward) (.backward .last .ones)

/-- Whether a call ends. -/
def ends : EStateM.Result Fault (Graph Int) (Answer Int) → Bool
  | .ok .done _ => true
  | _ => false

theorem eq_of_ends {r : EStateM.Result Fault (Graph Int) (Answer Int)} (h : ends r = true) :
    r = .ok .done (after r) := by
  unfold ends at h
  split at h
  · rfl
  · cases h

/-- A call that ends, as a step of the script. -/
theorem following_run {release : Bool} {w : World Int} {seen : List (Seen Int)} {r : Request Int}
    (run : Run scripted 0 (releasing release) w seen) (asked : scripted seen = some (.call r))
    (common : r.isCommon = true) (fresh : w.fresh) (admissible : w.Admissible r)
    (ended : ends (r.call w.graph) = true) :
    Run scripted 0 (releasing release) (following w r) (seen ++ [.answer .done]) :=
  .turn run (.call asked common (fun _ => fresh) admissible (eq_of_ends ended))

theorem assembled_fresh (release : Bool) : (assembled release).fresh := .inl (.inl (.inl trivial))

theorem frugal_run : Run scripted 0 (releasing true) frugal
    (nodes ++ [.answer .done] ++ [.answer .done]) := by
  have flagged := (assembled_run true).policy (r := .checkpoint square) rfl
    (fun n inside _ => by
      simp [Request.nodes] at inside
      exact .inl (.inr (congrArg some inside.symm))) rfl
  have passed := following_run (r := .forward) flagged rfl rfl (.inl (assembled_fresh true))
    (List.forall_mem_nil _) (by decide +kernel)
  exact following_run passed rfl rfl (.inl (.inl (assembled_fresh true))) (List.forall_mem_nil _)
    (by decide +kernel)

theorem lavish_run : Run scripted 0 (releasing false) lavish
    (nodes ++ [.answer .done] ++ [.answer .done]) := by
  have passed := following_run (r := .forward) (assembled_run false) rfl rfl (assembled_fresh false)
    (List.forall_mem_nil _) (by decide +kernel)
  exact following_run passed rfl rfl (.inl (assembled_fresh false)) (List.forall_mem_nil _)
    (by decide +kernel)

/-- One run has dropped the square that the other one still holds. -/
theorem lavish_frugal : (frugal.graph.held? square.id).isNone = true ∧
    (lavish.graph.held? square.id).isSome = true ∧
    frugal.graph.grad? x.id = lavish.graph.grad? x.id := by
  refine ⟨by decide +kernel, by decide +kernel, ?_⟩
  obtain ⟨_, _, _, _, leaves⟩ := policy_invisible (by rfl) frugal_run lavish_run rfl
  refine (leaves x ?_ rfl).2
  exact .inl (.inl (.inl (.inl (.inl (.inr rfl)))))

end Sample

end ReverseMode
