import ReverseMode.Proofs.Ledger
import ReverseMode.Proofs.Values

/-!
Exact accounting.

As long as no call raises, the storages in use are those that the values and gradients of the
current nodes own: the nodes on the tape and the parameters. A step over known nodes settles the
books of these nodes and leaves all other slots alone, so that nodes of past episodes, which were
emptied when their episode ended, stay empty.
-/

namespace ReverseMode

variable {α : Type}

namespace Graph

variable {known : Node α → Prop} {g g' : Graph α}

/-- Counts and owners of the storages in use are right. -/
structure Books (known : Node α → Prop) (g : Graph α) : Prop extends WellFormed known g where
  balanced : g.allocator.Balanced
  ledger : Ledger known none g

/-- What a step over known nodes leaves. -/
structure Settled (known : Node α → Prop) (g g' : Graph α) : Prop extends Books known g' where
  episode : g'.episode = g.episode
  table : g'.parameters = g.parameters
  others : ∀ id, (∀ n, known n → n.id ≠ id) → g'.slot id = g.slot id

/-- A step keeps the books of the known nodes and leaves other slots alone. -/
def Settles (known : Node α → Prop) (g g' : Graph α) : Prop := Books known g → Settled known g g'

theorem Settles.refl (g : Graph α) : Settles known g g := fun books =>
  ⟨books, rfl, rfl, fun _ _ => rfl⟩

theorem Settles.trans {g₁ g₂ g₃ : Graph α} (first : Settles known g₁ g₂)
    (second : Settles known g₂ g₃) : Settles known g₁ g₃ := by
  intro books
  have settled := first books
  have settled' := second settled.toBooks
  exact ⟨settled'.toBooks, settled'.episode.trans settled.episode,
    settled'.table.trans settled.table, fun id other => (settled'.others id other).trans (settled.others id other)⟩

/-- The slot of one node has changed, and the ledger has been kept. -/
theorem Books.settled (books : Books known g) {n : Node α} (mem : known n) {s : Slot α}
    (slots : g'.slot = Function.update g.slot n.id s) (outline : g'.outline = g.outline)
    (tallies : Tallies g g') (ledger : Ledger known none g') : Settled known g g' where
  toWellFormed := books.toWellFormed.of_outline outline
  balanced := (tallies books.balanced).1
  ledger := ledger
  episode := episode_of_outline outline
  table := parameters_of_outline outline
  others id other := by
    rw [slots, Function.update_of_ne]
    exact fun same => other n mem same.symm

/-- Nothing has changed that the books are about. -/
theorem Books.settled_same (books : Books known g) (slots : g'.slot = g.slot)
    (wf : WellFormed known g') (episode : g'.episode = g.episode)
    (table : g'.parameters = g.parameters) (allocator : g'.allocator = g.allocator) : Settled known g g' where
  toWellFormed := wf
  balanced := allocator ▸ books.balanced
  ledger := books.ledger.of_same (fun _ _ => by rw [owned, owned, slots]) allocator
  episode := episode
  table := table
  others id _ := by rw [slots]

/-- A slot changes, but not what it owns. -/
theorem settles_modifySlot {n : Node α} (mem : known n) {f : Slot α → Slot α}
    (same : (f (g.slot n.id)).owned = (g.slot n.id).owned) :
    Settles known g (g.modifySlot n.id f) := by
  intro books
  have slots := slot_modifySlot (books.bound mem) f
  refine books.settled mem slots (outline_modifySlot g n.id f) (.of_same rfl rfl) ?_
  refine books.ledger.of_same (fun m _ => ?_) rfl
  rw [owned_of_update slots]
  split
  next here => rw [same, here]; rfl
  · rfl

theorem releaseValue_settles {n : Node α} (mem : known n) : Settles known g (g.releaseValue n.id) :=
  fun books => books.settled mem (slot_releaseValue (books.bound mem)) (outline_releaseValue g n.id)
    (releaseValue_tallies n.id g) (books.ledger.releaseValue mem (books.bound mem))

theorem releaseGrad_settles {n : Node α} (mem : known n) : Settles known g (g.releaseGrad n.id) :=
  fun books => books.settled mem (slot_releaseGrad (books.bound mem)) (outline_releaseGrad g n.id)
    (releaseGrad_tallies n.id g) (books.ledger.releaseGrad mem (books.bound mem))

theorem setGrad_settles {n : Node α} (mem : known n) (t : Tensor α) :
    Settles known g (g.setGrad n.id t) := by
  refine settles_modifySlot mem ?_
  funext p
  cases p with
  | value => rfl
  | grad => simp [Slot.owned, Option.map_map, Function.comp_def]

theorem setComputed_settles {n : Node α} (mem : known n) (computed : Bool) :
    Settles known g (g.setComputed computed n.id) :=
  settles_modifySlot mem (by funext p; cases p <;> rfl)

theorem Move.settles (move : Move known g g') : Settles known g g' := by
  cases move with
  | drop mem => exact releaseValue_settles mem
  | dropGrad mem => exact releaseGrad_settles mem
  | setGrad mem => exact setGrad_settles mem _
  | retain mem => exact settles_modifySlot mem (by funext p; cases p <;> rfl)
  | count n =>
    have outline := outline_countRecomputation g n
    exact fun books => books.settled_same (slot_countRecomputation g n)
      (books.toWellFormed.of_outline outline) (episode_of_outline outline)
      (parameters_of_outline outline) (by simp)
  | record =>
    exact fun books => books.settled_same rfl (books.toWellFormed.of_outline rfl) rfl rfl rfl
  | report r =>
    exact fun books => books.settled_same rfl (books.toWellFormed.of_outline rfl) rfl rfl rfl

section Passes

variable [Element α]

/-- A node that has been computed owns the storage taken for it, or shows another one's. -/
theorem compute_settles {n : Node α} (mem : known n) (answered : compute n g = .ok () g') :
    Settles known g g' := by
  intro books
  obtain ⟨held, g₁, placed, outline, slots, rfl⟩ := compute_places answered
  have wf : WellFormed known g₁ := books.toWellFormed.of_outline outline
  have owned : g₁.owned = g.owned := by
    funext id
    rw [Graph.owned, slots]
    rfl
  have filled : Ledger known none (g₁.setValue n.id held) := by
    rcases placed with ⟨own, storage, allocator⟩ | ⟨shown, allocator⟩
    · refine (books.ledger.allocate books.balanced _ owned allocator).setValue wf mem ?_
      rw [own, storage]
      rfl
    · refine (books.ledger.of_same (fun m _ => by rw [owned]) allocator).setValue wf mem ?_
      rw [shown]
      rfl
  have bound := books.bound mem
  have bound₁ : n.id < g₁.slots.size := wf.bound mem
  have size : (g₁.setValue n.id held).slots.size = g₁.slots.size :=
    size_of_outline (outline_setValue g₁ n.id held)
  have tallies := compute_tallies n g
  rw [answered, after_ok] at tallies
  refine books.settled mem ((fill_slots bound₁ held).trans (by rw [slots])) ?_ tallies ?_
  · rw [outline_setComputed, outline_setValue, outline]
  · refine filled.of_same (fun m _ => ?_) rfl
    rw [owned_of_update (slot_setComputed (by rwa [size]) true)]
    split
    next here =>
      funext p
      rw [here]
      cases p <;> rfl
    · rfl

/-- A gradient on first use owns the storage taken for it. -/
theorem gradBuffer_settles {n : Node α} (mem : known n) {t : Tensor α}
    (answered : gradBuffer n g = .ok t g') : Settles known g g' := by
  intro books
  have bound := books.bound mem
  have tallies := gradBuffer_tallies n g
  rw [answered, after_ok] at tallies
  rw [gradBuffer, answer_bind] at answered
  obtain ⟨_, _, got, answered⟩ := answered
  obtain ⟨rfl, rfl⟩ := answer_get.mp got
  cases grad : g.grad? n.id with
  | some held =>
    simp only [grad] at answered
    obtain ⟨rfl, rfl⟩ := answer_pure.mp answered
    exact Settles.refl _ books
  | none =>
    simp only [grad, answer_bind, answer_allocate, answer_modify, answer_pure] at answered
    obtain ⟨_, _, ⟨_, rfl, rfl⟩, _, _, rfl, rfl, rfl⟩ := answered
    have absent : (g.slot n.id).grad = none := Option.map_eq_none_iff.mp grad
    have wf : WellFormed known (g.allocated n.signature) := books.toWellFormed.of_outline rfl
    have slots := slot_modifySlot (g := g.allocated n.signature) bound fun s =>
      { s with grad := some ⟨g.allocator.fresh, true, zeros n.signature⟩ }
    have owned := owned_of_update slots
    refine books.settled mem slots (outline_modifySlot _ _ _) tallies ?_
    have taken : Ledger known (some (g.allocator.fresh, bytes n.signature))
        (g.allocated n.signature) := books.ledger.allocate books.balanced _ rfl rfl
    refine taken.attach wf mem (p := .grad) ?_ ?_ (fun id q other => ?_) rfl
    · change (g.slot n.id).owned .grad = none
      simp [Slot.owned, absent]
    · rw [owned, if_pos rfl]
      rfl
    · rw [owned]
      split
      next here =>
        cases q with
        | grad => exact absurd ⟨here, rfl⟩ other
        | value => rw [here]; rfl
      · rfl

omit [Element α] in
theorem settles_steps (closed : ∀ {n m : Node α}, known n → m ∈ n.inputs → known m) :
    Steps known fun _ g x => ∀ b g', x g = .ok b g' → Settles known g g' where
  closed := closed
  bind first second := by
    intro c g' answered
    obtain ⟨b, g₁, ran, answered⟩ := answer_bind.mp answered
    exact (first b g₁ ran).trans (second b g₁ ran c g' answered)
  moves := by
    intro β g g' x b moves ran c g'' answered
    cases ran.symm.trans answered
    clear ran answered
    induction moves with
    | refl => exact .refl g
    | tail _ move ih => exact ih.trans move.settles

/-- Passes over known nodes settle the books if they end. -/
theorem settles_climb (closed : ∀ {n m : Node α}, known n → m ∈ n.inputs → known m) :
    Climb known fun _ g x => ∀ b g', x g = .ok b g' → Settles known g g' where
  toSteps := settles_steps closed
  compute _ mem _ _ answered := compute_settles mem answered

theorem settles_walk (closed : ∀ {n m : Node α}, known n → m ∈ n.inputs → known m) :
    Walk known fun _ g x => ∀ b g', x g = .ok b g' → Settles known g g' where
  toSteps := settles_steps closed
  refuse raised b g' answered := by cases raised.symm.trans answered
  ensure g mem := (settles_climb closed).ensure mem g
  buffer _ mem _ _ _ answered := gradBuffer_settles mem answered

end Passes

/-! ### Calls -/

theorem forget_settles {n : Node α} (mem : known n) : Settles known g (g.forget n.id) :=
  (releaseValue_settles mem).trans (setComputed_settles mem false)

theorem Settles.foldl {f : Graph α → Node α → Graph α} {ns : List (Node α)}
    (each : ∀ n ∈ ns, ∀ g, Settles known g (f g n)) (g : Graph α) :
    Settles known g (ns.foldl f g) := by
  induction ns generalizing g with
  | nil => exact .refl g
  | cons n ns ih =>
    exact (each n (by simp) g).trans (ih (fun m mem => each m (by simp [mem])) (f g n))

theorem forgotten_settles (tape : ∀ n ∈ g.tape.toList, known n) : Settles known g g.forgotten := by
  have forgets : Settles known g (g.forgetAll g.tape.toList) := by
    refine Settles.foldl (fun n on g => ?_) g
    unfold forgetInner
    split
    · exact .refl g
    · exact forget_settles (tape n on)
  refine forgets.trans fun books => books.settled_same rfl ?_ rfl rfl rfl
  exact ⟨books.home, books.bound, books.unique, books.inputs, books.tape, books.sorted, books.index,
    books.keys, books.past, books.parameter, books.sameEpisode, books.parameters, books.trainable,
    books.inferred⟩

theorem zeroGrad_settles [Element α] {n : Node α} (mem : known n) :
    Settles known g (g.zeroGrad n) := by
  unfold zeroGrad
  split
  · exact .refl g
  · exact setGrad_settles mem _

theorem Ledger.releaseAll {ns : List (Node α)} (ledger : Ledger known none g)
    (mem : ∀ n ∈ ns, known n ∧ n.id < g.slots.size) : Ledger known none (g.releaseAll ns) := by
  induction ns generalizing g with
  | nil => exact ledger
  | cons n ns ih =>
    obtain ⟨here, bound⟩ := mem n (by simp)
    have size := size_releaseValue g n.id
    have size' : (g.release n.id).slots.size = g.slots.size :=
      size_of_outline (outline_release g n.id)
    refine ih ((ledger.releaseValue here bound).releaseGrad here (by rwa [size])) fun m inside => ?_
    rw [size']
    exact mem m (by simp [inside])

theorem Ledger.reset (ledger : Ledger known none g) (wf : WellFormed known g)
    (keepParameters : Bool) : Ledger known none (g.reset keepParameters) := by
  have tape : ∀ n ∈ g.tape.toList, known n ∧ n.id < g.slots.size := fun n on =>
    ⟨wf.known_of_tape on, wf.bound (wf.known_of_tape on)⟩
  have cleared : Ledger known none g.cleared :=
    (ledger.releaseAll tape).of_same (fun _ _ => rfl) rfl
  cases keepParameters with
  | true =>
    rw [reset_keep]
    exact cleared.of_same (fun _ _ => rfl) rfl
  | false =>
    have outline := outline_cleared g
    have parameters : g.cleared.parameters = g.parameters := congrArg Outline.parameters outline
    have size : g.cleared.slots.size = g.slots.size := congrArg Outline.size outline
    have stripped : Ledger known none g.stripped := cleared.releaseAll fun n inside => by
      rw [parameters] at inside
      exact ⟨(wf.parameters inside).1, size ▸ wf.bound (wf.parameters inside).1⟩
    rw [reset_drop]
    exact stripped.of_same (fun _ _ => rfl) rfl

theorem owned_write (storage : Nat) (elements : Tensor α) (g : Graph α) :
    (g.write storage elements).owned = g.owned := by
  have same : ∀ held : Held α, (rewritten storage elements held).owned = held.owned := by
    intro held
    unfold rewritten
    split
    · split <;> rfl
    · rfl
  funext id p
  rw [owned, owned, slot_written]
  cases p with
  | value => cases value : (g.slot id).value <;> simp [Slot.owned, value, same,
      (rewritten_same storage elements _).1]
  | grad => cases grad : (g.slot id).grad <;> simp [Slot.owned, grad,
      (rewritten_same storage elements _).1]

/-- Some of the known nodes make up a well-formed graph if they hold the tape, the parameters in
use, and with each node its inputs. -/
theorem WellFormed.restrict {among : Node α → Prop} (wf : WellFormed known g)
    (inner : ∀ n, among n → known n) (closed : ∀ n, among n → ∀ m ∈ n.inputs, among m)
    (tape : ∀ n ∈ g.tape.toList, among n) (parameters : ∀ n ∈ g.parameters.toList, among n) :
    WellFormed among g where
  home mem := wf.home (inner _ mem)
  bound mem := wf.bound (inner _ mem)
  unique mem mem' := wf.unique (inner _ mem) (inner _ mem')
  inputs mem _ input := ⟨closed _ mem _ input, (wf.inputs (inner _ mem) input).2⟩
  tape := ⟨fun on => ⟨tape _ on, (wf.tape.mp on).2⟩,
    fun ⟨mem, now⟩ => wf.tape.mpr ⟨inner _ mem, now⟩⟩
  sorted := wf.sorted
  index := wf.index
  keys := wf.keys
  past mem := wf.past (inner _ mem)
  parameter mem := wf.parameter (inner _ mem)
  sameEpisode mem := wf.sameEpisode (inner _ mem)
  parameters inside := ⟨parameters _ inside, (wf.parameters inside).2⟩
  trainable mem := wf.trainable (inner _ mem)
  inferred mem := wf.inferred (inner _ mem)

/-- The nodes that may be used now make up a well-formed graph. -/
theorem WellFormed.current (wf : WellFormed known g) :
    WellFormed (fun n => known n ∧ (n.episode = none ∨ n.episode = some g.episode)) g := by
  refine wf.restrict (fun _ mem => mem.1) (fun n mem m input => ?_)
    (fun n on => ⟨wf.known_of_tape on, .inr (wf.tape.mp on).2⟩)
    fun n inside => ⟨(wf.parameters inside).1, .inl (wf.parameters inside).2⟩
  refine ⟨wf.known_inputs mem.1 input, ?_⟩
  rcases wf.sameEpisode mem.1 input with free | same
  · exact .inl free
  · rw [same]
    exact mem.2

end Graph

/-! ### Worlds -/

namespace World

open ReverseMode.Graph

/-- The nodes that may be used now: parameters, and the nodes on the tape. -/
def Current (w : World α) (n : Node α) : Prop :=
  w.known n ∧ (n.episode = none ∨ n.episode = some w.graph.episode)

/-- The current nodes own the storages in use, and nodes of past episodes hold nothing. -/
structure Accounts (w : World α) : Prop where
  ledger : Ledger w.Current none w.graph
  past : ∀ {n}, w.known n → ¬ w.Current n →
    (w.graph.slot n.id).value = none ∧ (w.graph.slot n.id).grad = none

variable {w : World α} {g : Graph α}

theorem current_of_checkNode (wf : WellFormed w.known w.graph) {n : Node α} (mem : w.known n)
    (used : w.graph.checkNode n = .ok ()) : w.Current n := by
  rcases wf.usable mem used with on | ⟨free, _⟩
  · exact ⟨mem, .inr (wf.tape.mp on).2⟩
  · exact ⟨mem, .inl free⟩

theorem Accounts.of_settled (accounts : Accounts w) (wf : WellFormed w.known w.graph)
    (settled : Settled w.Current w.graph g) {fresh : Prop} : Accounts ⟨g, w.known, fresh⟩ := by
  have current : (⟨g, w.known, fresh⟩ : World α).Current = w.Current := by
    funext n
    rw [Current, Current, settled.episode]
  refine ⟨current ▸ settled.ledger, fun {n} mem gone => ?_⟩
  rw [current] at gone
  change (g.slot n.id).value = none ∧ (g.slot n.id).grad = none
  rw [settled.others n.id fun m here same => gone (wf.unique here.1 mem same ▸ here)]
  exact accounts.past mem gone

/-- A new node that is current owns nothing. -/
theorem Accounts.with (accounts : Accounts w) {n : Node α}
    (admits : Admits w.known w.graph n) (slots : g.slot = w.graph.slot)
    (allocator : g.allocator = w.graph.allocator) (episode : g.episode = w.graph.episode)
    {fresh : Prop} : Accounts ⟨g, knownAfter w.known (.node n), fresh⟩ := by
  have empty : w.graph.slot n.id = {} := by
    rw [admits.id]
    exact slot_size w.graph
  rw [knownAfter_node]
  constructor
  · refine accounts.ledger.reassign (fun m mem => ?_) (fun m mem => .inl ?_) ?_ allocator
    · rcases mem with ⟨rfl | mem, now⟩
      · refine .inr fun p => ?_
        rw [owned, empty]
        cases p <;> rfl
      · exact .inl ⟨mem, episode ▸ now⟩
    · exact ⟨.inr mem.1, episode.symm ▸ mem.2⟩
    · funext id
      rw [owned, slots]
      rfl
  · intro m mem gone
    change (g.slot m.id).value = none ∧ (g.slot m.id).grad = none
    rw [slots]
    rcases mem with rfl | mem
    · rw [empty]
      exact ⟨rfl, rfl⟩
    · exact accounts.past mem fun here => gone ⟨.inr here.1, episode.symm ▸ here.2⟩

theorem Accounts.recorded (accounts : Accounts w) {n : Node α}
    (admits : Admits w.known w.graph n) {fresh : Prop} :
    Accounts ⟨w.graph.recorded n, knownAfter w.known (.node n), fresh⟩ :=
  accounts.with (g := w.graph.recorded n) admits (slot_widened w.graph) rfl rfl

theorem Accounts.registered (accounts : Accounts w) {n : Node α}
    (admits : Admits w.known w.graph n) {fresh : Prop} :
    Accounts ⟨w.graph.registered n, knownAfter w.known (.node n), fresh⟩ :=
  accounts.with (g := w.graph.registered n) admits (slot_widened w.graph) rfl rfl

theorem Accounts.same (accounts : Accounts w) {n : Node α} (mem : w.known n) {fresh : Prop} :
    Accounts ⟨w.graph, knownAfter w.known (.node n), fresh⟩ := by
  rw [knownAfter_of_known mem]
  exact ⟨accounts.ledger, accounts.past⟩

/-- When an episode ends its nodes are emptied and are current no more. -/
theorem Accounts.reset (accounts : Accounts w) (wf : WellFormed w.known w.graph)
    (keepParameters : Bool) {fresh : Prop} :
    Accounts ⟨w.graph.reset keepParameters, w.known, fresh⟩ := by
  have slots := slot_reset wf keepParameters
  have episode : (w.graph.reset keepParameters).episode = w.graph.episode + 1 :=
    congrArg Outline.episode (outline_reset keepParameters w.graph)
  have emptied : ∀ n ∈ w.graph.tape.toList, (w.graph.reset keepParameters).slot n.id =
      { w.graph.slot n.id with value := none, grad := none } := by
    intro n on
    rw [slots, if_pos]
    exact List.mem_map_of_mem (List.mem_append_left _ on)
  have ledger : Ledger w.Current none (w.graph.reset keepParameters) :=
    accounts.ledger.reset wf.current keepParameters
  constructor
  · refine ledger.reassign (fun n mem => ?_) (fun n mem => ?_) rfl rfl
    · refine .inl ⟨mem.1, mem.2.imp_right fun later => ?_⟩
      have := wf.past mem.1 (later.trans (congrArg some episode))
      omega
    · rcases mem.2 with free | now
      · exact .inl ⟨mem.1, .inl free⟩
      · refine .inr fun p => ?_
        rw [owned, emptied n (wf.tape.mpr ⟨mem.1, now⟩)]
        cases p <;> rfl
  · intro n mem gone
    change ((w.graph.reset keepParameters).slot n.id).value = none ∧
      ((w.graph.reset keepParameters).slot n.id).grad = none
    by_cases on : n ∈ w.graph.tape.toList
    · rw [emptied n on]
      exact ⟨rfl, rfl⟩
    · have before := accounts.past mem fun here => here.2.elim (fun free => gone ⟨mem, .inl free⟩)
        fun now => on (wf.tape.mpr ⟨mem, now⟩)
      rw [slots]
      split
      · exact ⟨rfl, rfl⟩
      · exact before

variable [Element α]

/-- Calls that build nothing and end no episode settle the books of some nodes, if they answer:
of any that hold the nodes that the call uses, among them the tape and the parameters. -/
theorem call_settles {among : Node α → Prop} (wf : WellFormed among w.graph) {r : Request α}
    {a : Answer α} (handed : ∀ n ∈ r.nodes, w.graph.checkNode n = .ok () → among n)
    (empty : ∀ n, r = .zeroGrad n → ¬ among n → (w.graph.slot n.id).grad = none)
    (answered : r.call w.graph = .ok a g)
    (old : r.builds = false) (lasting : ∀ keepParameters, r ≠ .reset keepParameters) :
    Settles among w.graph g := by
  have tape : ∀ n ∈ w.graph.tape.toList, among n := fun _ => wf.known_of_tape
  have closed : ∀ {n m : Node α}, among n → m ∈ n.inputs → among m :=
    fun mem input => wf.known_inputs mem input
  have climb := settles_climb closed
  have walk := settles_walk closed
  cases r with
  | add | constant | parameter => cases old
  | reset keepParameters => exact absurd rfl (lasting keepParameters)
  | retain n =>
    obtain ⟨m, ran, rfl⟩ := answer_return.mp answered
    obtain ⟨rfl, used, rfl⟩ := retain_answer.mp ran
    exact (Move.retain (handed m (by simp [Request.nodes, Input.nodes]) used)).settles
  | checkpoint n =>
    obtain ⟨m, ran, rfl⟩ := answer_return.mp answered
    obtain ⟨rfl, used, rfl⟩ := checkpoint_answer.mp ran
    split
    · exact .refl _
    · exact settles_modifySlot (handed n (by simp [Request.nodes]) used)
        (by funext p; cases p <;> rfl)
  | forward =>
    obtain ⟨_, ran, rfl⟩ := answer_return.mp answered
    refine walk.forward (climb.uncomputed tape) (fun g' _ _ marked books => ?_) () g ran
    rw [← answer_modify.mp marked]
    exact books.settled_same rfl books.toWellFormed.marked rfl rfl rfl
  | backward roots seeds =>
    obtain ⟨_, ran, rfl⟩ := answer_return.mp answered
    refine walk.backward tape (fun ps accepted p inside => ?_) () g ran
    exact (checked_started tape handed accepted p inside).1
  | value n =>
    obtain ⟨t, ran, rfl⟩ := answer_return.mp answered
    obtain ⟨m, rfl, used, _, ran⟩ := value_parts ran
    exact walk.ensured (handed m (by simp [Request.nodes, Input.nodes]) used) _ t g ran
  | gradOf n =>
    obtain ⟨_, ran, rfl⟩ := answer_return.mp answered
    rw [gradOf_unchanged ran]
    exact .refl _
  | invalidate n =>
    obtain ⟨_, ran, rfl⟩ := answer_return.mp answered
    rw [invalidate_eq, answer_bind] at ran
    obtain ⟨_, g₁, first, ran⟩ := ran
    rw [← answer_modify.mp ran]
    rcases forgetLeaf_answer first with rfl | ⟨m, rfl, used, rfl⟩
    · exact forgotten_settles tape
    · have mem := handed m (by simp [Request.nodes, Input.nodes]) used
      refine (forget_settles mem).trans (forgotten_settles ?_)
      rwa [tape_of_outline (outline_forget _ _)]
  | zeroGrad n =>
    cases answered
    by_cases inside : among n
    · exact zeroGrad_settles inside
    · -- there is no gradient to be set to zero
      rw [zeroGrad, grad?, empty n rfl inside]
      exact .refl _
  | zeroGrads =>
    cases answered
    change Settles among w.graph (w.graph.parameters.foldl (fun g p => g.zeroGrad p) w.graph)
    rw [← Array.foldl_toList]
    exact Settles.foldl (fun n inside _ => zeroGrad_settles (wf.parameters inside).1) _

theorem Accounts.next (accounts : Accounts w) (invariant : Invariant w)
    (balanced : w.graph.allocator.Balanced) {r : Request α} {a : Answer α}
    (admissible : w.Admissible r) (answered : r.call w.graph = .ok a g) :
    Accounts (w.next r a g) := by
  have wf := invariant.sound.toWellFormed
  have settled : r.builds = false → (∀ keepParameters, r ≠ .reset keepParameters) →
      Accounts (w.next r a g) := by
    intro old lasting
    unfold World.next
    rw [call_known admissible answered old]
    have handed : ∀ n ∈ r.nodes, w.graph.checkNode n = .ok () → w.Current n := by
      intro n inside used
      refine current_of_checkNode wf ?_ used
      cases r with
      | zeroGrad => exact List.mem_singleton.mp inside ▸ admissible
      | _ => exact admissible n inside (serial_of_checkNode used)
    have empty : ∀ n, r = .zeroGrad n → ¬ w.Current n → (w.graph.slot n.id).grad = none := by
      rintro n rfl gone
      exact (accounts.past admissible gone).2
    exact accounts.of_settled wf (call_settles wf.current handed empty answered old lasting
      ⟨wf.current, balanced, accounts.ledger⟩)
  unfold World.next at settled ⊢
  cases r with
  | add | constant | parameter =>
    cases built_of_answer wf admissible answered rfl with
    | same mem => exact accounts.same mem
    | recorded admits => exact accounts.recorded admits
    | registered admits => exact accounts.registered admits
  | reset keepParameters =>
    rw [call_known admissible answered rfl]
    cases answered
    exact accounts.reset wf keepParameters
  | retain | checkpoint | forward | backward | value | gradOf | invalidate | zeroGrad
  | zeroGrads => exact settled rfl (by simp)

omit [Element α] in
/-- The current nodes are those on the tape and the parameters. -/
theorem current_iff (wf : WellFormed w.known w.graph) {n : Node α} :
    w.Current n ↔ (n ∈ w.graph.tape.toList ∨ w.known n ∧ n.episode = none) := by
  rw [wf.tape]
  constructor
  · rintro ⟨mem, free | now⟩
    · exact .inr ⟨mem, free⟩
    · exact .inl ⟨mem, now⟩
  · rintro (⟨mem, now⟩ | ⟨mem, free⟩)
    · exact ⟨mem, .inr now⟩
    · exact ⟨mem, .inl free⟩

/-- As long as no call raises the current nodes own the storages in use. -/
theorem Managed.accounts {raised anew : Bool} (managed : Managed raised anew w)
    (faultless : raised = false) : Accounts w := by
  induction managed with
  | start serial settings =>
    refine ⟨⟨fun mem => mem.1.elim, fun held => ?_, fun mem => mem.1.elim, nofun⟩,
      fun mem => mem.elim⟩
    cases held
  | answer managed admissible answered ih =>
    exact (ih faultless).next managed.reachable.invariant managed.tally.1 admissible answered
  | raise => cases faultless
  | @write _ _ w _ storage elements ih =>
    have accounts := ih faultless
    have owned := owned_write storage elements w.graph
    refine ⟨accounts.ledger.of_same (fun n _ => by rw [owned]) rfl, fun {n} mem gone => ?_⟩
    obtain ⟨_, _, slot⟩ := slot_write (g := w.graph) storage elements n.id
    change ((w.graph.write storage elements).slot n.id).value = none ∧
      ((w.graph.write storage elements).slot n.id).grad = none
    rw [slot]
    simpa using accounts.past mem gone
  | take _ ih => exact ⟨(ih faultless).ledger.of_same (fun _ _ => rfl) rfl, (ih faultless).past⟩
  | recount _ ih =>
    have accounts := ih faultless
    exact ⟨⟨accounts.ledger.used, accounts.ledger.owner, accounts.ledger.apart, nofun⟩,
      accounts.past⟩

/-- As long as no call raises the storages in use are those owned by nodes on the tape and by
parameters, each with the bytes of its node. -/
theorem Managed.held_iff {anew : Bool} (managed : Managed false anew w) (storage b : Nat) :
    (storage, b) ∈ w.graph.allocator.held ↔ ∃ n p,
      (n ∈ w.graph.tape.toList ∨ w.known n ∧ n.episode = none) ∧
        w.graph.owned n.id p = some storage ∧ b = bytes n.signature := by
  have wf := managed.reachable.invariant.sound.toWellFormed
  obtain ⟨balanced, _⟩ := managed.tally
  obtain ⟨ledger, _⟩ := managed.accounts rfl
  constructor
  · intro held
    rcases ledger.owner held with impossible | ⟨n, mem, p, owns⟩
    · cases impossible
    · exact ⟨n, p, (current_iff wf).mp mem, owns,
        balanced.bytes_unique held (ledger.used mem owns)⟩
  · rintro ⟨n, p, here, owns, rfl⟩
    exact ledger.used ((current_iff wf).mpr here) owns

/-- Byte accounting is exact as long as no call raises: the storages in use are those owned by
the values and gradients of the nodes on the tape and of the parameters, each by one of them and
with the bytes of its node; the counts follow, nodes of past episodes hold nothing, and unless
the peak has been counted anew no entry of the history lies above it. -/
theorem accounting_exact {anew : Bool} (managed : Managed false anew w) :
    (∀ storage b, (storage, b) ∈ w.graph.allocator.held ↔ ∃ n p,
      (n ∈ w.graph.tape.toList ∨ w.known n ∧ n.episode = none) ∧
        w.graph.owned n.id p = some storage ∧ b = bytes n.signature) ∧
    (∀ m n, w.known m → w.known n → ∀ p q storage, w.graph.owned m.id p = some storage →
      w.graph.owned n.id q = some storage → m = n ∧ p = q) ∧
    (w.graph.allocator.held.map Prod.fst).Nodup ∧
    w.graph.allocator.live = (w.graph.allocator.held.map Prod.snd).sum ∧
    w.graph.allocator.allocations = w.graph.allocator.releases + w.graph.allocator.held.length ∧
    w.graph.allocator.live ≤ w.graph.allocator.peak ∧
    (anew = false → ∀ b ∈ w.graph.history, b ≤ w.graph.allocator.peak) ∧
    ∀ n, w.known n → n.episode ≠ none → n ∉ w.graph.tape.toList →
      (w.graph.slot n.id).value = none ∧ (w.graph.slot n.id).grad = none := by
  have wf := managed.reachable.invariant.sound.toWellFormed
  obtain ⟨balanced, noted⟩ := managed.tally
  obtain ⟨ledger, past⟩ := managed.accounts rfl
  have owners : ∀ n, w.known n → ∀ p storage, w.graph.owned n.id p = some storage →
      w.Current n := by
    intro n mem p storage owns
    by_contra gone
    obtain ⟨value, grad⟩ := past mem gone
    cases p <;> simp [owned, Slot.owned, value, grad] at owns
  refine ⟨managed.held_iff, fun m n mem mem' p q storage owns owns' => ?_,
    balanced.nodup, balanced.live, balanced.count, balanced.peak, noted,
    fun n mem dated off => past mem fun here => ?_⟩
  · obtain ⟨id, part⟩ := ledger.apart (owners m mem p storage owns) (owners n mem' q storage owns')
      owns owns'
    exact ⟨wf.unique mem mem' id, part⟩
  · rcases (current_iff wf).mp here with on | ⟨_, free⟩
    · exact off on
    · exact dated free

end World

/-! ### An example -/

namespace Sample

open ReverseMode.Graph World

/-- The parameter and its square, computed. -/
def squared : World Int :=
  let w : World Int := start 0 { type := .float64 }
  let w := w.next (.parameter name x.shape (.ok (.constant 3)) (.ok none) (.ofBool true)) (.node x)
    (w.graph.registered x)
  let w := w.next (.add (.joint .mult) [.node x, .node x]) (.node square) (w.graph.recorded square)
  w.next .forward .done (after ((forward : GraphM Int Unit) w.graph))

/-- A backward pass from the square has ended, and then its value has been forgotten. -/
def swept : World Int :=
  let w := squared.next (.backward .last .ones) .done
    (after ((backward .last .ones : GraphM Int Unit) squared.graph))
  w.next (.invalidate none) .done (after ((invalidate none : GraphM Int Unit) w.graph))

theorem swept_managed : Managed false false swept := by
  have passes : answers ((forward : GraphM Int Unit)
      ((start 0 { type := .float64 }).graph.registered x |>.recorded square)) = true := by
    decide +kernel
  have sweeps : answers ((backward .last .ones : GraphM Int Unit) squared.graph) = true := by
    decide +kernel
  obtain ⟨_, passed⟩ := answer_of_answers passes
  obtain ⟨_, swept⟩ := answer_of_answers sweeps
  refine .answer (.answer (.answer (.answer (.answer (.start 0 _) ?_ rfl) ?_ rfl) ?_
    (answer_return.mpr ⟨(), passed, rfl⟩)) ?_ (answer_return.mpr ⟨(), swept, rfl⟩)) ?_ rfl
  · intro n inside
    cases inside
  · intro n inside _
    simp [Request.nodes, Input.nodes] at inside
    exact .inr (inside ▸ rfl)
  · intro n inside
    cases inside
  · intro n inside
    cases inside
  · intro n inside
    cases inside

/-- The value of the parameter is left, and the gradients of both nodes. -/
theorem swept_accounted : swept.graph.allocator.live = 48 ∧
    swept.graph.allocator.allocations = swept.graph.allocator.releases + 3 ∧
    swept.graph.allocator.live ≤ swept.graph.allocator.peak ∧
    (∀ b ∈ swept.graph.history, b ≤ swept.graph.allocator.peak) ∧
    ∃ n p, (n ∈ swept.graph.tape.toList ∨ swept.known n ∧ n.episode = none) ∧
      swept.graph.owned n.id p = some 3 ∧ 16 = bytes n.signature := by
  obtain ⟨owners, _, _, _, count, peak, noted, _⟩ := accounting_exact swept_managed
  have held : swept.graph.allocator.held = [(3, 16), (2, 16), (0, 16)] := by decide +kernel
  refine ⟨by decide +kernel, ?_, peak, noted rfl, (owners 3 16).mp (by simp [held])⟩
  rw [count, held]
  rfl

end Sample

end ReverseMode
