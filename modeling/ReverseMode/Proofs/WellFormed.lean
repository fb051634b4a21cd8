import Mathlib.Data.List.Pairwise
import ReverseMode.Proofs.Slot

/-!
Well-formed graphs.

`WellFormed` says how the nodes that a graph has handed out stand to each other and to the
tape. It reads the outline of the graph only, so no pass can break it.
-/

namespace ReverseMode

variable {α : Type}

/-- What the index holds for a node: an application that is to be found again, under its key. -/
def Node.entry? : Node α → Option (ApplicationKey × Node α)
  | n@(.apply _ op inputs) => if op.memoize then some (Node.key op inputs, n) else none
  | .leaf _ _ => none

theorem Index.toList_enter (x : Index α) (n : Node α) :
    (x.enter n).toList = x.toList ++ n.entry?.toList := by
  cases n with
  | leaf => simp [enter, Node.entry?]
  | apply s op inputs => cases memoize : op.memoize <;> simp [enter, Node.entry?, memoize, toList]

namespace Graph

/-- The nodes that a graph has handed out, its tape and its index. -/
structure WellFormed (known : Node α → Prop) (g : Graph α) : Prop where
  home : ∀ {n}, known n → n.graph = g.serial
  bound : ∀ {n}, known n → n.id < g.slots.size
  unique : ∀ {m n}, known m → known n → m.id = n.id → m = n
  /-- Inputs are known and older. -/
  inputs : ∀ {n}, known n → ∀ {m}, m ∈ n.inputs → known m ∧ m.id < n.id
  tape : ∀ {n}, n ∈ g.tape.toList ↔ known n ∧ n.episode = some g.episode
  sorted : g.tape.toList.Pairwise fun m n => m.id < n.id
  index : g.index.toList = g.tape.toList.filterMap Node.entry?
  /-- A key is entered only if it is under none that was entered before. -/
  keys : g.index.toList.Pairwise fun old new => new.1.same old.1 = false
  past : ∀ {n}, known n → ∀ {e}, n.episode = some e → e ≤ g.episode
  parameter : ∀ {n}, known n → n.episode = none → n.isLeaf = true
  sameEpisode : ∀ {n}, known n → ∀ {m}, m ∈ n.inputs → m.episode = none ∨ m.episode = n.episode
  parameters : ∀ {n}, n ∈ g.parameters.toList → known n ∧ n.episode = none
  trainable : ∀ {s op inputs}, known (.apply s op inputs) →
    s.trainable = .ofBool (carriesGradient op s.type inputs)
  inferred : ∀ {s op inputs}, known (.apply s op inputs) →
    op.infer (inputs.map Node.signature) = .ok ⟨s.shape, s.type⟩

namespace WellFormed

variable {known : Node α → Prop} {g g' : Graph α}

theorem of_outline (wf : WellFormed known g) (same : g'.outline = g.outline) :
    WellFormed known g' where
  home h := (wf.home h).trans (serial_of_outline same).symm
  bound h := by
    rw [size_of_outline same]
    exact wf.bound h
  unique := wf.unique
  inputs := wf.inputs
  tape := by
    rw [tape_of_outline same, episode_of_outline same]
    exact wf.tape
  sorted := by
    rw [tape_of_outline same]
    exact wf.sorted
  index := by
    rw [index_of_outline same, tape_of_outline same]
    exact wf.index
  keys := by
    rw [index_of_outline same]
    exact wf.keys
  past h := by
    rw [episode_of_outline same]
    exact wf.past h
  parameter := wf.parameter
  sameEpisode := wf.sameEpisode
  parameters := by
    rw [parameters_of_outline same]
    exact wf.parameters
  trainable := wf.trainable
  inferred := wf.inferred

variable (wf : WellFormed known g)

include wf

theorem known_of_tape {n : Node α} (mem : n ∈ g.tape.toList) : known n := (wf.tape.mp mem).1

theorem known_inputs {n : Node α} (mem : known n) {m : Node α} (input : m ∈ n.inputs) : known m :=
  (wf.inputs mem input).1

/-- The inputs of a node on the tape are on the tape, or leaves. -/
theorem tape_inputs {n : Node α} (mem : n ∈ g.tape.toList) {m : Node α} (input : m ∈ n.inputs) :
    m ∈ g.tape.toList ∨ m.episode = none ∧ m.isLeaf = true := by
  obtain ⟨mem, current⟩ := wf.tape.mp mem
  have inner := wf.known_inputs mem input
  rcases wf.sameEpisode mem input with free | same
  · exact .inr ⟨free, wf.parameter inner free⟩
  · exact .inl (wf.tape.mpr ⟨inner, same.trans current⟩)

/-- A node that may be used now is on the tape, or a leaf. -/
theorem usable {n : Node α} (mem : known n) (used : g.checkNode n = .ok ()) :
    n ∈ g.tape.toList ∨ n.episode = none ∧ n.isLeaf = true := by
  unfold checkNode at used
  split at used
  · cases used
  · split at used
    next free => exact .inr ⟨free, wf.parameter mem free⟩
    next e dated =>
      split at used
      next now => exact .inl (wf.tape.mpr ⟨mem, by rw [dated, now]⟩)
      · cases used

/-- An application that may be used now is on the tape. -/
theorem usable_apply {n : Node α} (mem : known n) (used : g.checkNode n = .ok ())
    (inner : n.isLeaf = false) : n ∈ g.tape.toList := by
  rcases wf.usable mem used with on | ⟨_, leaf⟩
  · exact on
  · simp [inner] at leaf

theorem ne_of_id {m n : Node α} (mem : known m) (mem' : known n) (ne : m ≠ n) : m.id ≠ n.id :=
  fun same => ne (wf.unique mem mem' same)

end WellFormed

end Graph

end ReverseMode
