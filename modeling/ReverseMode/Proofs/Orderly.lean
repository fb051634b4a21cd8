import ReverseMode.Proofs.Deduplication

/-!
Order on the tape.

Forward and backward passes take the order of the tape for an order of evaluation and never
look whether it is one. `Orderly` says that it is, and that the index holds the applications
of the tape, each under a key of its own. Every reachable graph is orderly: a node that is
built comes last and takes nodes that stand before it, and it is built only if nothing is
found under its key.
-/

namespace ReverseMode

variable {α : Type}

/-! ### Keys -/

theorem Zeros.beq_symm {x y : Float} (same : (x == y) = true) : (y == x) = true := by
  rcases Zeros.eq_or_opposite same with rfl | ⟨rfl, rfl⟩ | ⟨rfl, rfl⟩
  · exact same
  · rfl
  · rfl

namespace Parameter

theorem same_symm {p q : Parameter} (same : p.same q = true) : q.same p = true := by
  rcases same_cases same with rfl | ⟨x, y, rfl, rfl, _⟩
  · exact same
  · exact Zeros.beq_symm same

theorem allSame_symm {ps qs : List Parameter} (same : allSame ps qs = true) :
    allSame qs ps = true := by
  induction ps generalizing qs with
  | nil => cases qs with
    | nil => rfl
    | cons q qs => cases same
  | cons p ps ih => cases qs with
    | nil => cases same
    | cons q qs =>
      rw [allSame, Bool.and_eq_true] at same ⊢
      exact ⟨same_symm same.1, ih same.2⟩

end Parameter

theorem ApplicationKey.same_symm {a b : ApplicationKey} (same : a.same b = true) :
    b.same a = true := by
  simp only [ApplicationKey.same, Bool.and_eq_true, beq_iff_eq] at same ⊢
  obtain ⟨⟨inputs, kind⟩, parameters⟩ := same
  exact ⟨⟨inputs.symm, kind.symm⟩, Parameter.allSame_symm parameters⟩

namespace Graph

variable {known : Node α → Prop} {g : Graph α}

/-! ### Places -/

section Places

variable (wf : WellFormed known g)

include wf

theorem WellFormed.increasing {i j : Nat} {m n : Node α} (less : i < j)
    (first : g.tape.nodes[i]? = some m) (second : g.tape.nodes[j]? = some n) : m.id < n.id := by
  obtain ⟨bound, rfl⟩ := Array.getElem?_eq_some_iff.mp first
  obtain ⟨bound', rfl⟩ := Array.getElem?_eq_some_iff.mp second
  exact List.pairwise_iff_getElem.mp wf.sorted i j bound bound' less

/-- A node stands before another one of the tape if its id is smaller. -/
theorem WellFormed.before {i j : Nat} {m n : Node α} (first : g.tape.nodes[i]? = some m)
    (second : g.tape.nodes[j]? = some n) (less : m.id < n.id) : i < j := by
  rcases Nat.lt_trichotomy i j with before | same | behind
  · exact before
  · subst same
    cases first.symm.trans second
    exact absurd less (Nat.lt_irrefl _)
  · exact absurd (wf.increasing behind second first) (Nat.not_lt_of_gt less)

theorem WellFormed.position {k : Nat} {n : Node α} (stands : g.tape.nodes[k]? = some n) :
    g.tape.position? n.id = some k := by
  obtain ⟨bound, rfl⟩ := Array.getElem?_eq_some_iff.mp stands
  rw [Tape.position?, Array.findIdx?_eq_some_iff_getElem]
  refine ⟨bound, by simp, fun j before => ?_⟩
  have less := wf.increasing before (Array.getElem?_eq_getElem (Nat.lt_trans before bound)) stands
  simp [Nat.ne_of_lt less]

/-- An input stands before the node that takes it, or it is a parameter. -/
theorem WellFormed.input {k : Nat} {n m : Node α} (stands : g.tape.nodes[k]? = some n)
    (input : m ∈ n.inputs) : m.id < n.id ∧
      ((∃ j < k, g.tape.nodes[j]? = some m) ∨ known m ∧ m.episode = none ∧ m.isLeaf = true) := by
  have on : n ∈ g.tape.toList := Array.mem_def.mp (Array.mem_of_getElem? stands)
  obtain ⟨mem, less⟩ := wf.inputs (wf.known_of_tape on) input
  refine ⟨less, ?_⟩
  rcases wf.tape_inputs on input with on | free
  · obtain ⟨j, place⟩ := Array.mem_iff_getElem?.mp (Array.mem_def.mpr on)
    exact .inl ⟨j, wf.before place stands less, place⟩
  · exact .inr ⟨mem, free⟩

/-- Applications of the tape that memoize are one application if their keys are the same. -/
theorem WellFormed.apart {s s' : Stamp} {op op' : Operator α} {inputs inputs' : List (Node α)}
    (on : .apply s op inputs ∈ g.tape.toList) (on' : .apply s' op' inputs' ∈ g.tape.toList)
    (memoize : op.memoize = true) (memoize' : op'.memoize = true)
    (same : (Node.key op inputs).same (Node.key op' inputs') = true) :
    Node.apply s op inputs = .apply s' op' inputs' := by
  have entered : ∀ {s : Stamp} {op : Operator α} {inputs : List (Node α)},
      .apply s op inputs ∈ g.tape.toList → op.memoize = true →
      (Node.key op inputs, .apply s op inputs) ∈ g.index.toList := by
    intro s op inputs on memoize
    rw [wf.index]
    exact List.mem_filterMap.mpr ⟨_, on, if_pos memoize⟩
  obtain ⟨i, bound, first⟩ := List.getElem_of_mem (entered on memoize)
  obtain ⟨j, bound', second⟩ := List.getElem_of_mem (entered on' memoize')
  rcases Nat.lt_trichotomy i j with before | equal | behind
  · have differ := List.pairwise_iff_getElem.mp wf.keys i j bound bound' before
    rw [first, second, ApplicationKey.same_symm same] at differ
    cases differ
  · subst equal
    exact congrArg Prod.snd (first.symm.trans second)
  · have differ := List.pairwise_iff_getElem.mp wf.keys j i bound' bound behind
    rw [first, second, same] at differ
    cases differ

end Places

/-! ### Construction -/

/-- What a call that applies an operator to some nodes adds: nothing if an application is found
under the key, else a node and, if the operator memoizes, an entry. -/
inductive Adds (op : Operator α) (nodes : List (Node α)) (g : Graph α) (n : Node α) :
    Graph α → Prop
  | found {key : ApplicationKey} (memoize : op.memoize = true) (entry : (key, n) ∈ g.index.toList)
      (same : (Node.key op nodes).same key = true) : Adds op nodes g n g
  | new {g' : Graph α} {s : Stamp} (application : n = .apply s op nodes)
      (unfound : op.memoize = true →
        ∀ entry ∈ g.index.toList, (Node.key op nodes).same entry.1 = false)
      (tape : g'.tape.toList = g.tape.toList ++ [n])
      (index : g'.index.toList =
        g.index.toList ++ if op.memoize then [(Node.key op nodes, n)] else [])
      (parameters : g'.parameters = g.parameters) : Adds op nodes g n g'

/-- What `add` leaves: the graph as it was if it refuses, else what it adds. -/
theorem add_adds (op : Operator α) (inputs : List (Input α)) (g : Graph α) :
    match add op inputs g with
    | .error _ g' => g' = g
    | .ok n g' => ∃ nodes, inputs = nodes.map .node ∧ Adds op nodes g n g' := by
  cases run : add op inputs g with
  | error f g' => exact add_raise run
  | ok n g' =>
    obtain ⟨nodes, s, checked, _, given⟩ := add_answer.mp run
    refine ⟨nodes, inputs_of_checked checked, ?_⟩
    rcases given with ⟨found, rfl⟩ | ⟨unfound, rfl, rfl⟩
    · obtain ⟨memoize, found⟩ := Option.ite_none_right_eq_some.mp found
      obtain ⟨entry, first, rfl⟩ := Option.map_eq_some_iff.mp found
      have same := Array.find?_some first
      exact .found memoize (Array.mem_def.mp (Array.mem_of_find?_eq_some first)) same
    · refine .new rfl (fun memoize => ?_) (toList_push _ _) ?_ rfl
      · rw [found?, if_pos memoize] at unfound
        exact find_eq_none.mp unfound
      · change (g.index.enter (g.application op nodes s)).toList = _
        rw [Index.toList_enter]
        cases memoize : op.memoize <;> simp [application, Node.entry?, memoize]

end Graph

namespace World

open ReverseMode.Graph

/-- The tape is in an order of evaluation, and the index holds its applications. -/
structure Orderly (w : World α) : Prop where
  increasing : ∀ {i j : Nat} {m n : Node α}, i < j → w.graph.tape.nodes[i]? = some m →
    w.graph.tape.nodes[j]? = some n → m.id < n.id
  position : ∀ {k : Nat} {n : Node α}, w.graph.tape.nodes[k]? = some n →
    w.graph.tape.position? n.id = some k
  /-- An input is older. It stands before on the tape, or it is a parameter of the graph. -/
  inputs : ∀ {k : Nat} {n m : Node α}, w.graph.tape.nodes[k]? = some n → m ∈ n.inputs →
    m.id < n.id ∧
      ((∃ j < k, w.graph.tape.nodes[j]? = some m) ∨
        w.known m ∧ m.graph = w.graph.serial ∧ m.episode = none ∧ m.isLeaf = true)
  current : ∀ {n : Node α}, n ∈ w.graph.tape.toList →
    n.graph = w.graph.serial ∧ n.episode = some w.graph.episode ∧
      ∀ m ∈ n.inputs, m.graph = w.graph.serial ∧
        (m.episode = none ∨ m.episode = some w.graph.episode)
  /-- There is one entry for each application that memoizes, in the order of the tape. -/
  entries : w.graph.index.toList = w.graph.tape.toList.filterMap Node.entry?
  apart : ∀ {s s' op op'} {inputs inputs' : List (Node α)},
    .apply s op inputs ∈ w.graph.tape.toList → .apply s' op' inputs' ∈ w.graph.tape.toList →
    op.memoize = true → op'.memoize = true →
    (Node.key op inputs).same (Node.key op' inputs') = true →
    Node.apply s op inputs = .apply s' op' inputs'

variable [Element α]

/-- Every reachable graph is orderly, and a call that applies an operator changes nothing, or
adds one node and at most one entry. -/
theorem reachable_orderly {w : World α} (reachable : w.Reachable) :
    w.Orderly ∧ ∀ (op : Operator α) (inputs : List (Input α)),
      match add op inputs w.graph with
      | .error _ g => g = w.graph
      | .ok n g => ∃ nodes, inputs = nodes.map .node ∧ Adds op nodes w.graph n g := by
  have wf := reachable.invariant.sound.toWellFormed
  refine ⟨⟨wf.increasing, wf.position, fun stands input => ?_, fun on => ?_, wf.index, wf.apart⟩,
    fun op inputs => add_adds op inputs w.graph⟩
  · obtain ⟨less, before | ⟨mem, free⟩⟩ := wf.input stands input
    · exact ⟨less, .inl before⟩
    · exact ⟨less, .inr ⟨mem, wf.home mem, free⟩⟩
  · obtain ⟨mem, now⟩ := wf.tape.mp on
    refine ⟨wf.home mem, now, fun m input => ⟨wf.home (wf.known_inputs mem input), ?_⟩⟩
    rw [← now]
    exact wf.sameEpisode mem input

end World

namespace Sample

open ReverseMode.Graph World

/-- The square is found again under its key; the sum stands behind it and takes it. -/
theorem built_orderly : built.graph.tape.toList = [square, sum] ∧
    built.graph.tape.position? sum.id = some 1 ∧ built.Orderly ∧
    Adds (.joint .mult) [x, x] built.graph square built.graph := by
  obtain ⟨orderly, adds⟩ := reachable_orderly built_reachable
  obtain ⟨nodes, same, added⟩ := adds (.joint .mult) [.node x, .node x]
  have inputs : nodes = [x, x] := by
    rcases nodes with _ | ⟨m, _ | ⟨n, _ | _⟩⟩ <;> cases same
    rfl
  exact ⟨rfl, orderly.position (k := 1) rfl, orderly, inputs ▸ added⟩

end Sample

end ReverseMode
