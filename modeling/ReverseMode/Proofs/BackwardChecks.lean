import ReverseMode.Argument.Seeds
import ReverseMode.Proofs.PassHistory
import ReverseMode.Proofs.Values

/-!
The calls of `backward` that are refused.

`Graph.Defect` lists what makes a call invalid, each with the place of its check among all the
checks: the state of the graph first, then the number of the seeds, then root after root with
its seed. Of the defects a call has the first is raised, and the graph stays as it is. A call
without a defect starts its walk from the roots with their seeds. Besides the flags of the nodes
only the history of the graph counts, not what it notes about its own passes.

Seeds follow the form of the roots. Beside a list of roots a list of seeds is read item by item,
and an empty one counts as none for any number of roots. Beside one root, or none, a list of any
length is one array, which has to have the extents of the root as a whole.
-/

namespace ReverseMode

section Lists

variable {β γ : Type} {f : β → Except Fault γ}

/-- A pass over a list raises what the first call raises that does. -/
theorem mapM_raises {xs : List β} {i : Nat} {x : β} {e : Fault} (here : xs[i]? = some x)
    (raises : f x = .error e)
    (before : ∀ j < i, ∀ y, xs[j]? = some y → ∃ c, f y = .ok c) : xs.mapM f = .error e := by
  induction xs generalizing i with
  | nil => cases here
  | cons y ys ih =>
    rw [List.mapM_cons]
    cases i with
    | zero =>
      cases Option.some.inj here
      rw [raises]
      rfl
    | succ i =>
      obtain ⟨c, first⟩ := before 0 (Nat.succ_pos i) y rfl
      have later : ys.mapM f = .error e :=
        ih here fun j less y' at' => before (j + 1) (Nat.succ_lt_succ less) y' at'
      rw [first, later]
      rfl

/-- What a pass over a list answers, place by place. -/
theorem mapM_eq_ok_getElem? {xs : List β} {ys : List γ} (mapped : xs.mapM f = .ok ys) (i : Nat) :
    (xs[i]?).map f = (ys[i]?).map .ok := by
  induction xs generalizing ys i with
  | nil =>
    cases mapped
    rfl
  | cons x xs ih =>
    rw [List.mapM_cons, bind_eq_ok] at mapped
    obtain ⟨y, first, mapped⟩ := mapped
    obtain ⟨rest, others, mapped⟩ := bind_eq_ok.mp mapped
    rw [← pure_eq_ok.mp mapped]
    cases i with
    | zero => exact congrArg some first
    | succ i => exact ih others i

end Lists

variable {α : Type}

open ReverseMode.Graph

/-! ### The arguments -/

theorem Tape.last?_eq_none {t : Tape α} : t.last? = none ↔ t.toList = [] := by
  rw [last?, toList, Array.back?_eq_none_iff, Array.toList_eq_nil_iff]

/-- The roots of a call; where none are given, the last node of the tape if there is one. -/
def Roots.inputs (g : Graph α) : Roots α → List (Input α)
  | .last => (g.tape.last?.map Input.node).toList
  | .one root => [root]
  | .many roots => roots

/-- Without a list of roots there is one root, where there is one at all. -/
theorem Roots.length_inputs {g : Graph α} {roots : Roots α} (one : roots.isMany = false)
    (any : roots = .last → g.tape.toList ≠ []) : (roots.inputs g).length = 1 := by
  cases roots with
  | many => cases one
  | one root => rfl
  | last =>
    rw [inputs]
    cases last : g.tape.last? with
    | some n => rfl
    | none => exact absurd (Tape.last?_eq_none.mp last) (any rfl)

namespace Seeds

/-- How many seeds are given for a list of roots; an empty list counts as none given. -/
def number? : Seeds → Option Nat
  | .ones => none
  | .one _ => some 1
  | .many given => if given.items.isEmpty then none else some given.items.length

/-- The seed given for the root at this place. The items of a list are for the roots of a list;
one root has the whole list for its seed. -/
def at? (many : Bool) (i : Nat) : Seeds → Option Seed
  | .ones => none
  | .one seed => [seed][i]?
  | .many given => if many then given.items[i]?.join else [given.whole][i]?

theorem at?_eq_listed (seeds : Seeds) (many : Bool) (i : Nat) :
    seeds.at? many i = (seeds.listed many)[i]?.join := by
  cases seeds with
  | ones => rfl
  | one seed => cases i <;> rfl
  | many given =>
    cases many with
    | true => rfl
    | false => cases i <;> rfl

theorem length_seedList (listed : List (Option Seed)) (count : Nat) :
    (seedList listed count).length = if listed.isEmpty then count else listed.length := by
  rw [seedList]
  split
  · exact List.length_replicate
  · rfl

/-- Beside a list of roots there are as many seeds as are given. -/
theorem length_many (seeds : Seeds) (count : Nat) :
    (seedList (seeds.listed true) count).length = seeds.number?.getD count := by
  rw [length_seedList]
  cases seeds with
  | ones | one => rfl
  | many given =>
    rw [listed, if_pos rfl, number?]
    split <;> rfl

/-- One root has one seed, whatever is given. -/
theorem length_one (seeds : Seeds) : (seedList (seeds.listed false) 1).length = 1 := by
  cases seeds <;> rfl

/-- Every root has the seed that is given for it. -/
theorem seedList_getElem? {seeds : Seeds} {many : Bool} {count i : Nat}
    (fits : (seedList (seeds.listed many) count).length = count) (less : i < count) :
    (seedList (seeds.listed many) count)[i]? = some (seeds.at? many i) := by
  rw [seedList] at fits ⊢
  rw [at?_eq_listed]
  split
  next none =>
    rw [List.isEmpty_iff.mp none]
    simp [less]
  next some =>
    rw [if_neg some] at fits
    rw [List.getElem?_eq_getElem (fits.symm ▸ less)]
    rfl

end Seeds

namespace Graph

/-! ### Defects -/

/-- Why an input may not be used now. -/
inductive Unusable (g : Graph α) : Input α → Fault → Prop
  | other (typeName : String) : Unusable g (.other typeName) (.notExpression typeName)
  | foreign {n : Node α} (elsewhere : n.graph ≠ g.serial) :
      Unusable g (.node n) (.foreign n.label)
  | expired {n : Node α} {e : Nat} (home : n.graph = g.serial) (dated : n.episode = some e)
      (past : e ≠ g.episode) : Unusable g (.node n) (.expired n.label e g.episode)

/-- Why a seed does not fit a root: it cannot be read, or it has other extents. -/
inductive Misfit (n : Node α) : Seed → Fault → Prop
  | unreadable (f : Fault) : Misfit n (.error f) f
  | shape {l : Literal} (other : l.shape ≠ n.shape.extents) :
      Misfit n (.ok l) (.seedShape l.shape n.label n.shape.extents)

/-- What makes a call invalid, with the place of the check that finds it. Whether a forward pass
has ended is told by `passed`. -/
inductive Defect (g : Graph α) (passed : Bool) (roots : Roots α) (seeds : Seeds) :
    Nat → Fault → Prop
  | inference (inference : g.settings.inference = true) :
      Defect g passed roots seeds 0 .inferenceOnly
  | notForwarded (never : passed = false) : Defect g passed roots seeds 1 .notForwarded
  | extended {n : Node α} (on : n ∈ g.tape.toList) (fresh : (g.slot n.id).computed = false) :
      Defect g passed roots seeds 2 .extended
  | empty (last : roots = .last) (none : g.tape.toList = []) :
      Defect g passed roots seeds 3 .emptyGraph
  | count {inputs : List (Input α)} {k : Nat} (many : roots = .many inputs)
      (given : seeds.number? = some k) (other : k ≠ inputs.length) :
      Defect g passed roots seeds 4 (.seedCount k inputs.length)
  | root {i : Nat} {input : Input α} {f : Fault} (here : (roots.inputs g)[i]? = some input)
      (unusable : g.Unusable input f) : Defect g passed roots seeds (2 * i + 5) f
  | seed {i : Nat} {n : Node α} {given : Seed} {f : Fault}
      (here : (roots.inputs g)[i]? = some (.node n))
      (has : seeds.at? roots.isMany i = some given)
      (misfit : Misfit n given f) : Defect g passed roots seeds (2 * i + 6) f

variable {g : Graph α} {passed : Bool} {roots : Roots α} {seeds : Seeds}

/-- What a caller can handle: the state of the graph, a wrong number of seeds, a seed of other
extents, and what is no expression or no array at all. -/
theorem Defect.kind {rank : Nat} {f : Fault} (defect : g.Defect passed roots seeds rank f) :
    rank < 4 ∧ f.kind = .graphState ∨ rank = 4 ∧ f.kind = .value ∨
      ∃ i, rank = 2 * i + 5 ∧ (f.kind = .graphState ∨ f.kind = .type) ∨
        rank = 2 * i + 6 ∧ (f.kind = .shape ∨ seeds.at? roots.isMany i = some (.error f)) := by
  cases defect with
  | inference | notForwarded | extended | empty => exact .inl ⟨by decide, rfl⟩
  | count => exact .inr (.inl ⟨rfl, rfl⟩)
  | @root i _ _ _ unusable =>
    refine .inr (.inr ⟨i, .inl ⟨rfl, ?_⟩⟩)
    cases unusable with
    | other => exact .inr rfl
    | foreign | expired => exact .inl rfl
  | @seed i _ _ _ _ has misfit =>
    refine .inr (.inr ⟨i, .inr ⟨rfl, ?_⟩⟩)
    cases misfit with
    | unreadable => exact .inr has
    | shape => exact .inl rfl

/-- A list read as one array has a row for each item. So it does not fit a root with another
number of rows, nor one whose extents an item has by itself. -/
theorem Misfit.of_list {n : Node α} {given : SeedList}
    (unlike : n.shape.extents.head? ≠ some given.items.length ∨
      ∃ l, some (.ok l) ∈ given.items ∧ l.type ≠ .object ∧ l.shape = n.shape.extents) :
    ∃ f, Misfit n given.whole f := by
  cases read : given.whole with
  | error f => exact ⟨f, .unreadable f⟩
  | ok whole =>
    obtain ⟨first, rows⟩ := given.rows whole read
    refine ⟨_, .shape fun extents => ?_⟩
    rcases unlike with other | ⟨l, among, plain, same⟩
    · exact other (extents ▸ first)
    · have tail : whole.shape.tail = whole.shape := by
        rw [rows l among plain, same, extents]
      cases shape : whole.shape with
      | nil => simp [shape] at first
      | cons e rest => simp [shape] at tail

theorem Unusable.raises {input : Input α} {f : Fault} (unusable : g.Unusable input f) :
    g.checkInput input = .error f := by
  cases unusable with
  | other => rfl
  | foreign elsewhere => simp [checkInput, checkNode, elsewhere, bind, Except.bind]
  | expired home dated past => simp [checkInput, checkNode, home, dated, past, bind, Except.bind]

/-- An input that cannot be refused is a node, and is accepted. -/
theorem checkInput_accepts {input : Input α} (usable : ∀ f, ¬ g.Unusable input f) :
    ∃ n, input = .node n ∧ g.checkInput input = .ok n := by
  cases input with
  | other typeName => exact absurd (.other typeName) (usable _)
  | node n =>
    refine ⟨n, rfl, checkInput_eq_ok.mpr ⟨rfl, ?_⟩⟩
    have home : n.graph = g.serial := by
      by_contra elsewhere
      exact usable _ (.foreign elsewhere)
    rw [checkNode, if_neg (not_not.mpr home)]
    cases dated : n.episode with
    | none => rfl
    | some e =>
      have now : e = g.episode := by
        by_contra past
        exact usable _ (.expired home dated past)
      exact if_pos now

theorem checkRoot_unusable {input : Input α} {f : Fault} (unusable : g.Unusable input f)
    (seed : Option Seed) : g.checkRoot input seed = .error f := by
  rw [checkRoot, unusable.raises]
  rfl

theorem checkRoot_misfit {n : Node α} {given : Seed} {f : Fault}
    (used : g.checkInput (.node n) = .ok n) (misfit : Misfit n given f) :
    g.checkRoot (.node n) (some given) = .error f := by
  rw [checkRoot, used]
  cases misfit with
  | unreadable => rfl
  | shape other => simp [other, bind, Except.bind, throw, throwThe, MonadExceptOf.throw]

/-- A root that may be used is accepted with a seed that fits. -/
theorem checkRoot_accepts {n : Node α} {seed : Option Seed}
    (used : g.checkInput (.node n) = .ok n)
    (fits : ∀ given, seed = some given → ∀ f, ¬ Misfit n given f) :
    ∃ literal, g.checkRoot (.node n) seed = .ok (n, literal) ∧ seed = literal.map .ok := by
  cases seed with
  | none =>
    refine ⟨none, ?_, rfl⟩
    rw [checkRoot, used]
    rfl
  | some given =>
    cases given with
    | error f => exact absurd (.unreadable f) (fits _ rfl f)
    | ok l =>
      have same : l.shape = n.shape.extents := by
        by_contra other
        exact fits _ rfl _ (.shape other)
      refine ⟨some l, ?_, rfl⟩
      rw [checkRoot, used]
      simp [same, bind, Except.bind, pure, Except.pure]

/-! ### The checks in their order -/

/-- The number of the seeds is checked, then root after root with its seed. -/
def checkRoots (g : Graph α) (inputs : List (Input α)) (listed : List (Option Seed)) :
    Except Fault (List (Node α × Option Literal)) :=
  if (seedList listed inputs.length).length ≠ inputs.length then
    .error (.seedCount (seedList listed inputs.length).length inputs.length)
  else (inputs.zip (seedList listed inputs.length)).mapM fun p => g.checkRoot p.1 p.2

/-- No check before this place finds a defect. -/
def Clear (g : Graph α) (passed : Bool) (roots : Roots α) (seeds : Seeds) (place : Nat) : Prop :=
  ∀ rank f, g.Defect passed roots seeds rank f → place ≤ rank

/-- Of the defects of a call there is a first one. -/
theorem Defect.exists_first {rank : Nat} {f : Fault} (defect : g.Defect passed roots seeds rank f) :
    ∃ rank f, g.Defect passed roots seeds rank f ∧ g.Clear passed roots seeds rank := by
  induction rank using Nat.strongRecOn generalizing f with
  | ind rank ih =>
    by_cases earlier : ∃ rank' f', rank' < rank ∧ g.Defect passed roots seeds rank' f'
    · obtain ⟨rank', f', less, defect'⟩ := earlier
      exact ih rank' less defect'
    · refine ⟨rank, f, defect, fun rank' f' defect' => ?_⟩
      by_contra less
      exact earlier ⟨rank', f', Nat.lt_of_not_le less, defect'⟩

namespace Clear

variable {place : Nat}

theorem mono {place' : Nat} (clear : g.Clear passed roots seeds place) (le : place' ≤ place) :
    g.Clear passed roots seeds place' :=
  fun rank f defect => Nat.le_trans le (clear rank f defect)

theorem inference (clear : g.Clear passed roots seeds 1) : g.settings.inference = false := by
  rw [← Bool.not_eq_true]
  intro inference
  exact absurd (clear _ _ (.inference inference)) (by decide)

theorem ended (clear : g.Clear passed roots seeds 2) : passed = true := by
  rw [← Bool.not_eq_false]
  intro never
  exact absurd (clear _ _ (.notForwarded never)) (by decide)

theorem computed (clear : g.Clear passed roots seeds 3) : g.uncomputed = [] := by
  refine List.eq_nil_iff_forall_not_mem.mpr fun n pending => ?_
  obtain ⟨on, fresh⟩ := mem_uncomputed.mp pending
  exact absurd (clear _ _ (.extended on fresh)) (by decide)

theorem nonempty (clear : g.Clear passed roots seeds 4) (last : roots = .last) :
    g.tape.toList ≠ [] :=
  fun empty => absurd (clear _ _ (.empty last empty)) (by decide)

theorem listed (clear : g.Clear passed roots seeds 4) :
    g.rootList roots = .ok (roots.inputs g) := by
  cases roots with
  | one | many => rfl
  | last =>
    rw [rootList, Roots.inputs]
    cases last : g.tape.last? with
    | some => rfl
    | none => exact absurd (Tape.last?_eq_none.mp last) (clear.nonempty rfl)

theorem counted (clear : g.Clear passed roots seeds 5) :
    (seedList (seeds.listed roots.isMany) (roots.inputs g).length).length =
      (roots.inputs g).length := by
  cases form : roots.isMany with
  | false =>
    rw [Roots.length_inputs form (clear.mono (by decide)).nonempty]
    exact seeds.length_one
  | true =>
    obtain ⟨inputs, rfl⟩ : ∃ inputs, roots = .many inputs := by
      cases roots with
      | many inputs => exact ⟨inputs, rfl⟩
      | last | one => cases form
    rw [Seeds.length_many]
    cases given : seeds.number? with
    | none => rfl
    | some k =>
      by_contra other
      exact absurd (clear _ _ (.count rfl given other)) (by decide)

/-- Where the state of the graph admits a pass, the arguments decide. -/
theorem checks (clear : g.Clear passed roots seeds 3) (flag : g.forwarded = passed) :
    g.checkBackward roots seeds =
      g.rootList roots >>= fun inputs => g.checkRoots inputs (seeds.listed roots.isMany) := by
  have never : (!g.forwarded) = false := by
    rw [flag, (clear.mono (by decide)).ended]
    rfl
  rw [checkBackward, (clear.mono (by decide)).inference, never, clear.computed]
  refine bind_congr fun inputs => ?_
  rw [checkRoots]
  by_cases fits : (seedList (seeds.listed roots.isMany) inputs.length).length = inputs.length
  · simp only [fits, ne_eq, not_true_eq_false, if_false]
  · simp only [fits, ne_eq, not_false_eq_true, if_true]
    rfl

/-- The pass over the roots and their seeds sees at each place the root with its seed. -/
theorem pairs (clear : g.Clear passed roots seeds 5) (i : Nat) :
    ((roots.inputs g).zip (seedList (seeds.listed roots.isMany) (roots.inputs g).length))[i]? =
      ((roots.inputs g)[i]?).map fun input => (input, seeds.at? roots.isMany i) := by
  rw [List.zip, List.getElem?_zipWith]
  cases here : (roots.inputs g)[i]? with
  | none => rfl
  | some input =>
    obtain ⟨less, _⟩ := List.getElem?_eq_some_iff.mp here
    rw [Seeds.seedList_getElem? clear.counted less]
    rfl

/-- A root before the first defect is accepted with its seed. -/
theorem accepts {i : Nat} (clear : g.Clear passed roots seeds (2 * i + 7)) {input : Input α}
    (here : (roots.inputs g)[i]? = some input) :
    ∃ n literal, g.checkRoot input (seeds.at? roots.isMany i) = .ok (n, literal) ∧
      input = .node n ∧ seeds.at? roots.isMany i = literal.map .ok := by
  have usable : ∀ f, ¬ g.Unusable input f := by
    intro f unusable
    exact absurd (clear _ _ (.root here unusable)) (by omega)
  obtain ⟨n, rfl, used⟩ := checkInput_accepts usable
  obtain ⟨literal, accepted, same⟩ := checkRoot_accepts used fun given has f misfit =>
    absurd (clear _ _ (.seed here has misfit)) (by omega)
  exact ⟨n, literal, accepted, rfl, same⟩

/-- The checks of the roots come to the first one that is refused. -/
theorem refuses {i : Nat} (clear : g.Clear passed roots seeds (2 * i + 5)) {input : Input α}
    (here : (roots.inputs g)[i]? = some input) {f : Fault}
    (refused : g.checkRoot input (seeds.at? roots.isMany i) = .error f) :
    g.checkRoots (roots.inputs g) (seeds.listed roots.isMany) = .error f := by
  have early := clear.mono (by omega : 5 ≤ 2 * i + 5)
  rw [checkRoots, if_neg (not_not.mpr early.counted)]
  refine mapM_raises (x := (input, seeds.at? roots.isMany i)) (by rw [early.pairs, here]; rfl)
    refused ?_
  intro j less p at'
  rw [early.pairs] at at'
  obtain ⟨input', here', rfl⟩ := Option.map_eq_some_iff.mp at'
  obtain ⟨n, literal, accepted, _⟩ := (clear.mono (by omega : 2 * j + 7 ≤ _)).accepts here'
  exact ⟨_, accepted⟩

end Clear

/-- The first defect of a call is raised. -/
theorem Defect.raises {rank : Nat} {f : Fault} (defect : g.Defect passed roots seeds rank f)
    (clear : g.Clear passed roots seeds rank) (flag : g.forwarded = passed) :
    g.checkBackward roots seeds = .error f := by
  cases defect with
  | inference inference =>
    rw [checkBackward, inference]
    rfl
  | notForwarded never =>
    rw [checkBackward, clear.inference, flag, never]
    rfl
  | extended on fresh =>
    have pending : g.uncomputed.isEmpty = false := by
      rw [List.isEmpty_eq_false_iff]
      exact List.ne_nil_of_mem (mem_uncomputed.mpr ⟨on, fresh⟩)
    rw [checkBackward, (clear.mono (by decide)).inference, flag, clear.ended, pending]
    rfl
  | empty last none =>
    rw [clear.checks flag, last, rootList, Tape.last?_eq_none.mpr none]
    rfl
  | @count inputs k many given other =>
    subst many
    have length := seeds.length_many inputs.length
    rw [given, Option.getD_some] at length
    rw [(clear.mono (by decide)).checks flag, clear.listed]
    change g.checkRoots inputs (seeds.listed true) = _
    rw [checkRoots, length, if_pos other]
  | root here unusable =>
    rw [(clear.mono (by omega)).checks flag, (clear.mono (by omega)).listed]
    exact clear.refuses here (checkRoot_unusable unusable _)
  | @seed i n given f here has misfit =>
    have before := clear.mono (Nat.le_succ (2 * i + 5))
    rw [(clear.mono (by omega)).checks flag, (clear.mono (by omega)).listed]
    refine before.refuses here ?_
    have usable : ∀ f, ¬ g.Unusable (.node n) f := by
      intro f unusable
      exact absurd (clear _ _ (.root here unusable)) (by omega)
    obtain ⟨m, same, used⟩ := checkInput_accepts usable
    cases same
    rw [has]
    exact checkRoot_misfit used misfit

/-- What a walk starts from: the roots, each with its seed. -/
structure Starts (g : Graph α) (roots : Roots α) (seeds : Seeds)
    (started : List (Node α × Option Literal)) : Prop where
  inputs : started.map (fun p => Input.node p.1) = roots.inputs g
  seeds : ∀ i p, started[i]? = some p → seeds.at? roots.isMany i = p.2.map .ok

/-- A call without a defect is accepted. -/
theorem checkBackward_accepts (none : ∀ rank f, ¬ g.Defect passed roots seeds rank f)
    (flag : g.forwarded = passed) :
    ∃ started, g.checkBackward roots seeds = .ok started ∧ g.Starts roots seeds started := by
  have clear : ∀ place, g.Clear passed roots seeds place :=
    fun _ rank f defect => absurd defect (none rank f)
  have each : ∀ p ∈ (roots.inputs g).zip
      (seedList (seeds.listed roots.isMany) (roots.inputs g).length),
      ∃ y, g.checkRoot p.1 p.2 = .ok y ∧ True := by
    intro p inside
    obtain ⟨i, at'⟩ := List.mem_iff_getElem?.mp inside
    rw [(clear 5).pairs] at at'
    obtain ⟨input, here, rfl⟩ := Option.map_eq_some_iff.mp at'
    obtain ⟨n, literal, accepted, _⟩ := (clear (2 * i + 7)).accepts here
    exact ⟨(n, literal), accepted, trivial⟩
  obtain ⟨started, mapped, _⟩ := mapM_total each
  have placed : ∀ i, (started[i]?).map (fun p => Input.node p.1) = (roots.inputs g)[i]? ∧
      ∀ p, started[i]? = some p → seeds.at? roots.isMany i = p.2.map .ok := by
    intro i
    have made := mapM_eq_ok_getElem? mapped i
    rw [(clear 5).pairs] at made
    cases here : (roots.inputs g)[i]? with
    | none =>
      rw [here] at made
      have beyond : started[i]? = .none := Option.map_eq_none_iff.mp made.symm
      simp [beyond]
    | some input =>
      obtain ⟨n, literal, accepted, rfl, same⟩ := (clear (2 * i + 7)).accepts here
      rw [here] at made
      obtain ⟨p, at', accepted'⟩ := Option.map_eq_some_iff.mp made.symm
      cases accepted'.trans accepted
      simp [at', same]
  refine ⟨started, ?_, ?_, fun i => (placed i).2⟩
  · rw [(clear 3).checks flag, (clear 4).listed]
    change g.checkRoots (roots.inputs g) (seeds.listed roots.isMany) = _
    rwa [checkRoots, if_neg (not_not.mpr (clear 5).counted)]
  · refine List.ext_getElem? fun i => ?_
    rw [List.getElem?_map]
    exact (placed i).1

end Graph

/-! ### Calls -/

section Calls

variable [Element α] {roots : Roots α} {seeds : Seeds}

namespace Graph

/-- The rest of a call that is accepted. -/
def walk (started : List (Node α × Option Literal)) : GraphM α Unit := do
  modify dropGrads
  let nodes := (← get).tape.toList
  started.forM seedRoot
  backwardFrom nodes.reverse (Pending.start (← get).slots.size nodes)
  logBackward (started.map Prod.fst)

/-- A call that is refused changes nothing; one that is accepted starts its walk. -/
theorem backward_eq (roots : Roots α) (seeds : Seeds) (g : Graph α) :
    backward roots seeds g = match g.checkBackward roots seeds with
      | .error f => .error f g
      | .ok started => walk started g := by
  have got : (get : GraphM α (Graph α)) g = .ok g g := rfl
  rw [backward, run_bind got]
  cases checked : g.checkBackward roots seeds with
  | error f => exact raise_bind.mpr (.inl (raise_lift.mpr ⟨rfl, rfl⟩))
  | ok started => exact run_bind (answer_lift.mpr ⟨rfl, rfl⟩)

end Graph

namespace World

variable {w : World α} {passed : Bool}

/-- A call with a defect raises the first one and leaves the graph as it is; every other call
starts its walk, from the roots with their seeds. -/
theorem backward_refuses (history : History passed w) (roots seeds : Argument α) :
    (∀ rank f, w.graph.Defect passed roots.toRoots seeds.toSeeds rank f →
      w.graph.Clear passed roots.toRoots seeds.toSeeds rank →
      backward roots.toRoots seeds.toSeeds w.graph = .error f w.graph) ∧
    ((∀ rank f, ¬ w.graph.Defect passed roots.toRoots seeds.toSeeds rank f) →
      ∃ started, w.graph.Starts roots.toRoots seeds.toSeeds started ∧
        backward roots.toRoots seeds.toSeeds w.graph = walk started w.graph) ∧
    ∀ rank f, w.graph.Defect passed roots.toRoots seeds.toSeeds rank f →
      rank < 4 ∧ f.kind = .graphState ∨ rank = 4 ∧ f.kind = .value ∨
        ∃ i, rank = 2 * i + 5 ∧ (f.kind = .graphState ∨ f.kind = .type) ∨
          rank = 2 * i + 6 ∧ (f.kind = .shape ∨
            seeds.toSeeds.at? roots.toRoots.isMany i = some (.error f)) := by
  refine ⟨?_, ?_, fun _ _ defect => defect.kind⟩
  · intro rank f defect clear
    rw [backward_eq, defect.raises clear history.flag]
  · intro none
    obtain ⟨started, accepted, starts⟩ := checkBackward_accepts none history.flag
    refine ⟨started, starts, ?_⟩
    rw [backward_eq, accepted]

/-- A list of seeds beside a single root is refused if it holds a seed for the root, and if its
length is not the number of rows of the root. -/
theorem list_refused (history : History passed w) {n : Node α} {items : List (Argument α)}
    (unlike : n.shape.extents.head? ≠ some items.length ∨
      ∃ l, some (.ok l) ∈ items.map Argument.toSeed? ∧ l.type ≠ .object ∧
        l.shape = n.shape.extents) :
    ∃ f, backward (Argument.node n).toRoots (Argument.list items).toSeeds w.graph =
      .error f w.graph := by
  obtain ⟨f, misfit⟩ : ∃ f, Misfit n (Argument.toSeedList items).whole f :=
    Misfit.of_list (by simpa [Argument.toSeedList] using unlike)
  have defect : w.graph.Defect passed (Argument.node n).toRoots (Argument.list items).toSeeds 6 f :=
    .seed (i := 0) rfl rfl misfit
  obtain ⟨rank, f, first, clear⟩ := defect.exists_first
  exact ⟨f, by rw [backward_eq, first.raises clear history.flag]⟩

end World

end Calls

namespace Sample

open ReverseMode.Graph World

theorem passed_history : History true passed := by
  obtain ⟨ended, history⟩ := passed_reachable.history
  have flag : passed.graph.forwarded = true := by decide +kernel
  rwa [← history.flag, flag] at history

/-- The root of two elements. -/
def root : Argument Int := .node sum

/-- Beside the root itself an empty list of seeds is an array without elements, which does not
fit it. -/
theorem empty_refused : History true passed ∧
    backward root.toRoots (Argument.list [] : Argument Int).toSeeds passed.graph =
      .error (.seedShape [0] sum.label [2]) passed.graph := by
  refine ⟨passed_history, ?_⟩
  obtain ⟨refuses, _, _⟩ := backward_refuses passed_history root (.list [])
  refine refuses 6 _ (.seed (i := 0) rfl rfl (.shape (by decide))) fun rank f defect => ?_
  cases defect with
  | inference inference => exact absurd inference (by decide +kernel)
  | notForwarded never => cases never
  | @extended n on fresh =>
    have done : ∀ m ∈ [square, sum], (passed.graph.slot m.id).computed = true := by
      decide +kernel
    rw [passed_tape] at on
    cases fresh.symm.trans (done n on)
  | empty last => cases last
  | count many => cases many
  | @root i _ _ here unusable =>
    rcases i with _ | i
    · cases here
      cases unusable with
      | foreign elsewhere => exact absurd (by decide +kernel) elsewhere
      | expired _ dated past =>
        cases dated
        exact absurd (by decide +kernel) past
    · cases here
  | seed => omega

/-- In a list by itself the root is seeded with ones beside an empty list of seeds, although the
numbers differ. -/
theorem unseeded_accepted : History true passed ∧
    ([] : List (Argument Int)).length ≠ [root].length ∧
    ∃ g, backward (Argument.list [root]).toRoots (Argument.list [] : Argument Int).toSeeds
      passed.graph = .ok () g := by
  refine ⟨passed_history, by decide, ?_⟩
  obtain ⟨_, ran⟩ := answer_of_answers
    (r := backward (Argument.list [root]).toRoots (Argument.list [] : Argument Int).toSeeds
      passed.graph) (by decide +kernel)
  exact ⟨_, ran⟩

end Sample

end ReverseMode
