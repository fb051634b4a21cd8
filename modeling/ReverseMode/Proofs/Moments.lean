import ReverseMode.Proofs.Invariant
import ReverseMode.Proofs.Visiting

/-!
Moments of a backward pass.

A backward pass prepares its roots and then walks over the tape from its end. `Moment` is a state
that the walk is in between two visits. `Visited` says what the visits between two moments leave
of the slots where memory is released: each node has been left for good when the walk has passed
it, because everything that later visits touch is older.
-/

namespace ReverseMode

namespace Graph

variable {α : Type} [Element α] {known : Node α → Prop} {g g' : Graph α}

/-! ### Runs of visits -/

/-- What visiting some nodes, from the last one to the first, leaves where memory is released. -/
structure Visited (known : Node α → Prop) (ns : List (Node α)) (g g' : Graph α) : Prop where
  outline : g'.outline = g.outline
  retained : ∀ id, (g'.slot id).retained = (g.slot id).retained
  value : ∀ {m}, known m → g.releasable m = false → ∀ {held},
    (g.slot m.id).value = some held → (g'.slot m.id).value = some held
  opened : ∀ {m}, known m → g.releasable m = false →
    (g.slot m.id).grad.isSome → (g'.slot m.id).grad.isSome
  /-- Nothing comes back for a node that is newer than the visited ones. -/
  newer : ∀ {id}, (∀ n ∈ ns, n.id < id) →
    ((g.slot id).value = none → (g'.slot id).value = none) ∧ (g'.slot id).grad = (g.slot id).grad
  /-- The gradient with which the walk comes to a node stays, unless it is dropped. -/
  grad : ∀ {m}, known m → g.releasable m = false → (∀ n ∈ ns, n.id ≤ m.id) →
    (g'.slot m.id).grad = (g.slot m.id).grad
  left : ∀ n ∈ ns, g.releasable n = true →
    (g'.slot n.id).value = none ∧ (g'.slot n.id).grad = none
  held : ∀ n ∈ ns, n.isLeaf = false → n.trainable = true → (g.slot n.id).retained = true →
    (g.slot n.id).grad.isSome → (g'.slot n.id).value.isSome

namespace Visited

omit [Element α] in
theorem refl (g : Graph α) : Visited known [] g g where
  outline := rfl
  retained _ := rfl
  value _ _ _ := id
  opened _ _ := id
  newer _ := ⟨id, rfl⟩
  grad _ _ _ := rfl
  left n inside := by cases inside
  held n inside := by cases inside

omit [Element α] in
theorem releasable {ns : List (Node α)} (visited : Visited known ns g g') (n : Node α) :
    g'.releasable n = g.releasable n :=
  releasable_congr (visited.retained n.id)

omit [Element α] in
/-- The nodes visited later are older. -/
theorem append {ns ms : List (Node α)} {g₁ g₂ g₃ : Graph α} (mem : ∀ n ∈ ns, known n)
    (mem' : ∀ m ∈ ms, known m) (older : ∀ n ∈ ns, ∀ m ∈ ms, m.id < n.id)
    (first : Visited known ns g₁ g₂) (second : Visited known ms g₂ g₃) :
    Visited known (ns ++ ms) g₁ g₃ where
  outline := second.outline.trans first.outline
  retained id := (second.retained id).trans (first.retained id)
  value mem stays _ held :=
    second.value mem ((first.releasable _).trans stays) (first.value mem stays held)
  opened mem stays found :=
    second.opened mem ((first.releasable _).trans stays) (first.opened mem stays found)
  newer above := by
    obtain ⟨value, grad⟩ := first.newer fun n inside => above n (List.mem_append_left _ inside)
    obtain ⟨value', grad'⟩ := second.newer fun n inside => above n (List.mem_append_right _ inside)
    exact ⟨fun absent => value' (value absent), grad'.trans grad⟩
  grad mem stays above :=
    (second.grad mem ((first.releasable _).trans stays) fun n inside =>
      above n (List.mem_append_right _ inside)).trans
      (first.grad mem stays fun n inside => above n (List.mem_append_left _ inside))
  left n inside may := by
    rcases List.mem_append.mp inside with inside | inside
    · obtain ⟨value, grad⟩ := first.left n inside may
      obtain ⟨value', grad'⟩ := second.newer (older n inside)
      exact ⟨value' value, grad'.trans grad⟩
    · exact second.left n inside ((first.releasable n).trans may)
  held n inside inner trainable retained found := by
    have stays : g₁.releasable n = false := by simp [Graph.releasable, retained]
    rcases List.mem_append.mp inside with inside | inside
    · have held := first.held n inside inner trainable retained found
      obtain ⟨h, value⟩ := Option.isSome_iff_exists.mp held
      rw [second.value (mem n inside) ((first.releasable n).trans stays) value]
      rfl
    · exact second.held n inside inner trainable ((first.retained n.id).trans retained)
        (first.opened (mem' n inside) stays found)

end Visited

/-- The step of one node with what follows it. -/
theorem visit_visited {n : Node α} {p : Pending} (wf : WellFormed known g) (mem : known n)
    (fits : p.counts.size = g.slots.size) (releases : g.settings.releaseMemory = true)
    (answered : visit n g = .ok () g') :
    Visited known [n] g (afterBackward n p g').2 ∧
      (afterBackward n p g').1.counts.size = p.counts.size := by
  have serves := visit_serves wf mem
  rw [answered, after_ok] at serves
  have settings := settings_of_outline serves.outline
  have size := size_of_outline serves.outline
  obtain ⟨outline, size', _, self, others⟩ := afterBackward_slot (p := p)
    (wf.of_outline serves.outline) mem (by rw [fits, size]) (by rw [settings, releases])
  refine ⟨?_, size'⟩
  generalize (afterBackward n p g').2 = g'' at outline self others
  have may : ∀ m : Node α, g'.releasable m = g.releasable m :=
    fun m => releasable_congr (serves.retained m.id)
  simp only [may] at self
  have dropped : ∀ i ∈ n.inputs, g'.leaves i = true →
      known i ∧ i.id < n.id ∧ g.releasable i = true := fun i input free =>
    ⟨(wf.inputs mem input).1, (wf.inputs mem input).2, may i ▸ releasable_of_leaves free⟩
  have slots : ∀ {m : Node α}, known m → g.releasable m = false → g''.slot m.id = g'.slot m.id := by
    intro m mem' stays
    by_cases same : m.id = n.id
    · obtain rfl := wf.unique mem' mem same
      rw [self, stays]
      rfl
    · rcases others m.id same with kept | ⟨i, input, here, _, free, _⟩
      · exact kept
      · obtain ⟨memI, _, free⟩ := dropped i input free
        obtain rfl := wf.unique memI mem' here
        cases stays.symm.trans free
  constructor
  · exact outline.trans serves.outline
  · intro id
    rw [← serves.retained]
    by_cases same : id = n.id
    · rw [same, self]
      split <;> rfl
    · rcases others id same with kept | ⟨_, _, _, _, _, slot⟩
      · rw [kept]
      · rw [slot]
  · intro m mem' stays held value
    rw [slots mem' stays]
    exact serves.value value
  · intro m mem' stays found
    rw [slots mem' stays]
    exact serves.opened found
  · intro id above
    have newer := above n (by simp)
    rcases others id (Nat.ne_of_gt newer) with kept | ⟨i, input, rfl, _, free, _⟩
    · rw [kept, serves.filled newer, serves.grad (Nat.le_of_lt newer)]
      exact ⟨fun absent => absent, rfl⟩
    · have := (dropped i input free).2.1
      omega
  · intro m mem' stays above
    rw [slots mem' stays]
    exact serves.grad (above n (by simp))
  · intro m inside free
    obtain rfl := List.mem_singleton.mp inside
    rw [self, if_pos free]
    exact ⟨rfl, rfl⟩
  · intro m inside inner trainable retained found
    obtain rfl := List.mem_singleton.mp inside
    rw [self, if_neg (by simp [releasable, retained])]
    exact visit_held wf mem inner trainable found answered

/-- Visit these nodes in order; the counts that are left. -/
def visits : List (Node α) → Pending → GraphM α Pending
  | [], p => pure p
  | n :: rest, p => do
    visit n
    visits rest (← modifyGet (afterBackward n p))

theorem visits_cons_answer {n : Node α} {rest : List (Node α)} {p p' : Pending} :
    visits (n :: rest) p g = .ok p' g' ↔ ∃ g₁, visit n g = .ok () g₁ ∧
      visits rest (afterBackward n p g₁).1 (afterBackward n p g₁).2 = .ok p' g' := by
  simp only [visits, answer_bind, answer_modifyGet]
  constructor
  · rintro ⟨_, g₁, visited, p₁, g₂, left, walked⟩
    refine ⟨g₁, visited, ?_⟩
    rwa [left]
  · rintro ⟨g₁, visited, walked⟩
    exact ⟨(), g₁, visited, _, _, rfl, walked⟩

theorem visits_append {as bs : List (Node α)} {p p' : Pending} :
    visits (as ++ bs) p g = .ok p' g' ↔
      ∃ p₁ g₁, visits as p g = .ok p₁ g₁ ∧ visits bs p₁ g₁ = .ok p' g' := by
  induction as generalizing g p with
  | nil =>
    simp only [List.nil_append, visits, answer_pure]
    constructor
    · exact fun walked => ⟨p, g, ⟨rfl, rfl⟩, walked⟩
    · rintro ⟨_, _, ⟨rfl, rfl⟩, walked⟩
      exact walked
  | cons n rest ih =>
    rw [List.cons_append, visits_cons_answer]
    simp only [visits_cons_answer, ih]
    constructor
    · rintro ⟨g₁, visited, p₂, g₂, walked, walked'⟩
      exact ⟨p₂, g₂, ⟨g₁, visited, walked⟩, walked'⟩
    · rintro ⟨p₂, g₂, ⟨g₁, visited, walked⟩, walked'⟩
      exact ⟨g₁, visited, p₂, g₂, walked, walked'⟩

theorem backwardFrom_visits {ns : List (Node α)} {p : Pending} :
    backwardFrom ns p g = .ok () g' ↔ ∃ p', visits ns p g = .ok p' g' := by
  induction ns generalizing g p with
  | nil => simp [backwardFrom, visits, answer_pure]
  | cons n rest ih =>
    simp only [backwardFrom, visits_cons_answer, answer_bind, answer_modifyGet]
    constructor
    · rintro ⟨_, g₁, visited, p₁, g₂, left, walked⟩
      obtain ⟨p', walked⟩ := ih.mp walked
      refine ⟨p', g₁, visited, ?_⟩
      rwa [left]
    · rintro ⟨p', g₁, visited, walked⟩
      exact ⟨(), g₁, visited, _, _, rfl, ih.mpr ⟨p', walked⟩⟩

/-- A walk over some nodes from the last one to the first, with counts for the slots, where memory
is released. -/
structure Walkable (known : Node α → Prop) (ns : List (Node α)) (p : Pending) (g : Graph α) :
    Prop where
  wf : WellFormed known g
  mem : ∀ n ∈ ns, known n
  sorted : ns.Pairwise fun m n => n.id < m.id
  fits : p.counts.size = g.slots.size
  releases : g.settings.releaseMemory = true

namespace Walkable

variable {ns as bs : List (Node α)} {p p' : Pending}

omit [Element α] in
theorem left (walkable : Walkable known (as ++ bs) p g) : Walkable known as p g :=
  ⟨walkable.wf, fun n inside => walkable.mem n (List.mem_append_left _ inside),
    (List.pairwise_append.mp walkable.sorted).1, walkable.fits, walkable.releases⟩

omit [Element α] in
theorem right (walkable : Walkable known (as ++ bs) p g) (outline : g'.outline = g.outline)
    (size : p'.counts.size = p.counts.size) : Walkable known bs p' g' := by
  constructor
  · exact walkable.wf.of_outline outline
  · exact fun n inside => walkable.mem n (List.mem_append_right _ inside)
  · exact (List.pairwise_append.mp walkable.sorted).2.1
  · rw [size, walkable.fits, size_of_outline outline]
  · rw [settings_of_outline outline, walkable.releases]

/-- A walk visits its nodes, and the counts still fit. -/
theorem visited (walkable : Walkable known ns p g) (walked : visits ns p g = .ok p' g') :
    Visited known ns g g' ∧ p'.counts.size = p.counts.size := by
  induction ns generalizing g p with
  | nil =>
    obtain ⟨rfl, rfl⟩ := answer_pure.mp walked
    exact ⟨.refl g, rfl⟩
  | cons n rest ih =>
    obtain ⟨g₁, visited, walked⟩ := visits_cons_answer.mp walked
    have here := walkable.mem n (by simp)
    obtain ⟨first, size⟩ :=
      visit_visited walkable.wf here walkable.fits walkable.releases visited
    have others : Walkable known rest (afterBackward n p g₁).1 (afterBackward n p g₁).2 :=
      (show Walkable known ([n] ++ rest) p g from walkable).right first.outline size
    obtain ⟨later, size'⟩ := ih others walked
    have single : ∀ m ∈ [n], known m := by simpa using here
    have older : ∀ m ∈ [n], ∀ m' ∈ rest, m'.id < m.id := by
      simpa using (List.pairwise_cons.mp walkable.sorted).1
    exact ⟨Visited.append single others.mem older first later, size'.trans size⟩

/-- Both parts of a walk. -/
theorem split (walkable : Walkable known (as ++ bs) p g) {p₁ : Pending} {g₁ : Graph α}
    (walked : visits as p g = .ok p₁ g₁) : Visited known as g g₁ ∧ Walkable known bs p₁ g₁ := by
  obtain ⟨first, size⟩ := walkable.left.visited walked
  exact ⟨first, walkable.right first.outline size⟩

/-- The counts along a walk are those of the consumers among the nodes still to be visited. -/
theorem counted (walkable : Walkable known (as ++ bs) p g) (matched : p.Matches (as ++ bs))
    (walked : visits as p g = .ok p' g') : p'.Matches bs := by
  induction as generalizing g p with
  | nil =>
    obtain ⟨rfl, rfl⟩ := answer_pure.mp walked
    exact matched
  | cons n rest ih =>
    obtain ⟨g₁, visited, walked⟩ := visits_cons_answer.mp walked
    have here := walkable.mem n (by simp)
    have serves := visit_serves walkable.wf here
    rw [visited, after_ok] at serves
    have size := size_of_outline serves.outline
    have settings := settings_of_outline serves.outline
    obtain ⟨outline, size', counts, _⟩ := afterBackward_slot (p := p)
      (walkable.wf.of_outline serves.outline) here (by rw [walkable.fits, size])
      (by rw [settings, walkable.releases])
    have others : Walkable known (rest ++ bs) (afterBackward n p g₁).1 (afterBackward n p g₁).2 :=
      (show Walkable known ([n] ++ (rest ++ bs)) p g from walkable).right
        (outline.trans serves.outline) size'
    exact ih others (counts (rest ++ bs) matched) walked

/-- A retained node that has a gradient at some moment of a walk ends with its value and a
gradient, and with the one that it has when the walk comes to it. -/
theorem received (walkable : Walkable known (as ++ bs) p g) {p₁ : Pending} {g₁ : Graph α}
    (walked : visits as p g = .ok p₁ g₁) (walked' : visits bs p₁ g₁ = .ok p' g') {n : Node α}
    (inside : n ∈ as ++ bs) (inner : n.isLeaf = false) (trainable : n.trainable = true)
    (retained : (g.slot n.id).retained = true) (found : (g₁.slot n.id).grad.isSome) :
    (g'.slot n.id).value.isSome ∧ (g'.slot n.id).grad.isSome ∧
      ((∀ m ∈ bs, m.id ≤ n.id) → (g'.slot n.id).grad = (g₁.slot n.id).grad) := by
  have mem := walkable.mem n inside
  obtain ⟨first, walkable'⟩ := walkable.split walked
  obtain ⟨later, _⟩ := walkable'.visited walked'
  have retained₁ := (first.retained n.id).trans retained
  have stays : g₁.releasable n = false := by simp [releasable, retained₁]
  refine ⟨?_, later.opened mem stays found, later.grad mem stays⟩
  rcases List.mem_append.mp inside with before | after
  · -- the walk has come to the node before, with this gradient
    obtain ⟨cs, ds, rfl⟩ := List.append_of_mem before
    obtain ⟨p₂, g₂, walked₂, walked₃⟩ := visits_append.mp walked
    obtain ⟨earlier, walkable₂⟩ := walkable.left.split walked₂
    obtain ⟨here, _⟩ := walkable₂.visited walked₃
    have retained₂ := (earlier.retained n.id).trans retained
    have stays₂ : g₂.releasable n = false := by simp [releasable, retained₂]
    have last : ∀ m ∈ n :: ds, m.id ≤ n.id := by
      intro m inside
      rcases List.mem_cons.mp inside with rfl | inside
      · exact Nat.le_refl _
      · exact Nat.le_of_lt ((List.pairwise_cons.mp walkable₂.sorted).1 m inside)
    rw [here.grad mem stays₂ last] at found
    have held := here.held n (by simp) inner trainable retained₂ found
    obtain ⟨h, value⟩ := Option.isSome_iff_exists.mp held
    rw [later.value mem stays value]
    rfl
  · exact later.held n after inner trainable retained₁ found

end Walkable

/-! ### Before the walk -/

omit [Element α] in
/-- What comes before the walk of a backward pass: values are made available and flags are set. -/
structure Prepares (g g' : Graph α) : Prop where
  outline : g'.outline = g.outline
  retained : ∀ {id}, (g.slot id).retained = true → (g'.slot id).retained = true
  value : ∀ {id held}, (g.slot id).value = some held → (g'.slot id).value = some held
  computed : ∀ id, (g'.slot id).computed = (g.slot id).computed ∨ (g'.slot id).value.isSome

namespace Prepares

omit [Element α] in
theorem refl (g : Graph α) : Prepares g g := ⟨rfl, id, id, fun _ => .inl rfl⟩

omit [Element α] in
theorem held (prepares : Prepares g g') {id : Nat} (held : (g.slot id).value.isSome) :
    (g'.slot id).value.isSome := by
  obtain ⟨h, value⟩ := Option.isSome_iff_exists.mp held
  rw [prepares.value value]
  rfl

omit [Element α] in
theorem trans {g₁ g₂ g₃ : Graph α} (first : Prepares g₁ g₂) (second : Prepares g₂ g₃) :
    Prepares g₁ g₃ :=
  ⟨second.outline.trans first.outline, fun kept => second.retained (first.retained kept),
    fun held => second.value (first.value held), fun id => by
      rcases second.computed id with same | held
      · rw [same]
        exact (first.computed id).imp_right second.held
      · exact .inr held⟩

omit [Element α] in
theorem of_modifySlot (id : Nat) {f : Slot α → Slot α} (value : ∀ s, (f s).value = s.value)
    (computed : ∀ s, (f s).computed = s.computed)
    (retained : ∀ s, s.retained = true → (f s).retained = true) (g : Graph α) :
    Prepares g (g.modifySlot id f) := by
  constructor
  · exact outline_modifySlot g id f
  · intro j kept
    rcases slot_modifySlot_or g id f j with same | ⟨_, slot⟩
    · rwa [same]
    · rw [slot]
      exact retained _ kept
  · intro j held found
    rcases slot_modifySlot_or g id f j with same | ⟨_, slot⟩
    · rwa [same]
    · rwa [slot, value]
  · intro j
    left
    rcases slot_modifySlot_or g id f j with same | ⟨_, slot⟩
    · rw [same]
    · rw [slot, computed]

end Prepares

omit [Element α] in
theorem dropGrads_prepares (g : Graph α) : Prepares g g.dropGrads := by
  have each : ∀ (ns : List (Node α)) (g : Graph α), Prepares g
      (ns.foldl (fun g n => if n.isLeaf then g else g.releaseGrad n.id) g) := by
    intro ns
    induction ns with
    | nil => exact Prepares.refl
    | cons n rest ih =>
      intro g
      refine Prepares.trans ?_ (ih _)
      dsimp only
      split
      · exact .refl g
      · unfold releaseGrad
        split
        · exact .refl g
        next held _ =>
          have given : Prepares g (g.giveBack held.storage) := ⟨rfl, id, id, fun _ => .inl rfl⟩
          refine given.trans (.of_modifySlot n.id ?_ ?_ ?_ _)
          · exact fun _ => rfl
          · exact fun _ => rfl
          · exact fun _ kept => kept
  exact each g.tape.toList g

theorem seedRoot_prepares {n : Node α} (seed : Option Literal) (wf : WellFormed known g)
    (mem : known n) (answered : seedRoot (n, seed) g = .ok () g') :
    Prepares g g' ∧ (g'.slot n.id).retained = true := by
  rw [seedRoot_eq, answer_bind] at answered
  obtain ⟨_, g₁, flagged, answered⟩ := answered
  rw [answer_bind] at answered
  obtain ⟨_, g₂, ready, seeded⟩ := answered
  have flags : Prepares g g₁ := by
    rw [← answer_modify.mp flagged]
    refine .of_modifySlot n.id ?_ ?_ ?_ g
    · exact fun _ => rfl
    · exact fun _ => rfl
    · exact fun _ _ => rfl
  have retained : (g₁.slot n.id).retained = true := by
    rw [← answer_modify.mp flagged, slot_modifySlot (wf.bound mem), Function.update_self]
  have fills := ensure_fills_known mem (wf.of_outline flags.outline)
  rw [ready, after_ok] at fills
  have grades : Grades (fun _ => True) g₂ g' := by
    split at seeded
    · have := seedGrad_grades (R := fun _ => True) (n := n) trivial seed g₂
      rwa [seeded, after_ok] at this
    · rw [(answer_pure.mp seeded).2]
      exact .refl g'
  have filled : Prepares g₁ g' := by
    constructor
    · exact grades.outline.trans fills.outline
    · intro id kept
      rwa [grades.retained, fills.retained]
    · intro id held found
      rw [grades.value]
      exact fills.value found
    · intro id
      rw [grades.value, grades.computed]
      rcases fills.slots id with same | ⟨_, _, held, filled⟩
      · rw [same]
        exact .inl rfl
      · rw [filled]
        exact .inr rfl
  exact ⟨flags.trans filled, filled.retained retained⟩

theorem seedRoots_prepares {started : List (Node α × Option Literal)} (wf : WellFormed known g)
    (mem : ∀ root ∈ started, known root.1) (answered : started.forM seedRoot g = .ok () g') :
    Prepares g g' ∧ ∀ root ∈ started, (g'.slot root.1.id).retained = true := by
  induction started generalizing g with
  | nil =>
    rw [(answer_pure.mp answered).2]
    exact ⟨.refl g', by simp⟩
  | cons root rest ih =>
    obtain ⟨g₁, first, others⟩ := answer_forM_cons.mp answered
    obtain ⟨prepares, retained⟩ := seedRoot_prepares root.2 wf (mem root (by simp)) first
    obtain ⟨prepares', retained'⟩ := ih (wf.of_outline prepares.outline)
      (fun other inside => mem other (by simp [inside])) others
    refine ⟨prepares.trans prepares', fun other inside => ?_⟩
    rcases List.mem_cons.mp inside with rfl | inside
    · exact prepares'.retained retained
    · exact retained' other inside

/-! ### Moments -/

/-- A state between two visits of a backward pass: it has visited some nodes and has the rest of
the tape before it. -/
structure Moment (g : Graph α) (roots : Roots α) (seeds : Seeds) (visited rest : List (Node α))
    (p : Pending) (g' : Graph α) : Prop where
  tape : g.tape.toList.reverse = visited ++ rest
  walked : ∃ started g₁, g.checkBackward roots seeds = .ok started ∧
    started.forM seedRoot g.dropGrads = .ok () g₁ ∧
    visits visited (Pending.start g₁.slots.size g.tape.toList) g₁ = .ok p g'

/-- A backward pass that ends has walked over the tape after its roots were prepared. -/
theorem backward_visits {roots : Roots α} {seeds : Seeds}
    {started : List (Node α × Option Literal)} (accepted : g.checkBackward roots seeds = .ok started)
    (answered : backward roots seeds g = .ok () g') :
    ∃ g₁ p g₂, started.forM seedRoot g.dropGrads = .ok () g₁ ∧
      visits g.tape.toList.reverse (Pending.start g₁.slots.size g.tape.toList) g₁ = .ok p g₂ ∧
      Quiet g₂ g' := by
  obtain ⟨g₁, g₂, seeded, walked, logged⟩ := backward_answer accepted answered
  rw [tape_of_outline (dropGrads_prepares g).outline] at walked
  obtain ⟨p, walked⟩ := backwardFrom_visits.mp walked
  have quiet := logBackward_leads (started.map Prod.fst) g₂
  rw [logged, after_ok] at quiet
  exact ⟨g₁, p, g₂, seeded, walked, quiet⟩

/-- The walk of a backward pass that ends, where memory is released. -/
theorem backward_walkable {roots : Roots α} {seeds : Seeds}
    {started : List (Node α × Option Literal)} (sound : Sound known g)
    (known' : ∀ n ∈ roots.nodes, n.graph = g.serial → known n)
    (accepted : g.checkBackward roots seeds = .ok started) {g₁ : Graph α}
    (seeded : started.forM seedRoot g.dropGrads = .ok () g₁)
    (releases : g.settings.releaseMemory = true) :
    Prepares g g₁ ∧ (∀ root ∈ started, (g₁.slot root.1.id).retained = true) ∧
      Walkable known g.tape.toList.reverse
        (Pending.start g₁.slots.size g.tape.toList) g₁ := by
  have wf := sound.toWellFormed
  have drops := dropGrads_prepares g
  obtain ⟨prepares, retained⟩ := seedRoots_prepares (wf.of_outline drops.outline)
    (fun root inside => (known_started sound known' accepted root inside).1) seeded
  have prepares := drops.trans prepares
  refine ⟨prepares, retained, wf.of_outline prepares.outline, ?_, ?_, ?_, ?_⟩
  · exact fun n inside => wf.known_of_tape (List.mem_reverse.mp inside)
  · exact List.pairwise_reverse.mpr wf.sorted
  · exact ((wf.of_outline prepares.outline).start_matches fun _ => wf.known_of_tape).1
  · rw [settings_of_outline prepares.outline, releases]

end Graph

end ReverseMode
