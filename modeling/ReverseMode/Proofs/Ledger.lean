import ReverseMode.Proofs.Tally

/-!
Who owns the storages in use.

A storage is owned by the value or by the gradient of one node. `Ledger` says that the storages
in use are the owned ones, each with the bytes of its node, and that none has two owners. While
a node is computed there is one storage more, which nobody owns yet.

Only calls that answer keep the ledger: an operator that fails has taken a storage that is not
given back.
-/

namespace ReverseMode

variable {α : Type}

/-- What of a node may own a storage. -/
inductive Part where
  | value
  | grad
deriving DecidableEq

/-- The storage that a part of a slot owns; a view owns none. -/
def Slot.owned (s : Slot α) : Part → Option Nat
  | .value => s.value.bind fun held => if held.owned then some held.storage else none
  | .grad => s.grad.map Held.storage

namespace Graph

/-- The storage that a part of a node owns. -/
def owned (g : Graph α) (id : Nat) : Part → Option Nat := (g.slot id).owned

/-- The storages in use and their owners, but for a storage that nobody owns yet. -/
structure Ledger (known : Node α → Prop) (spare : Option (Nat × Nat)) (g : Graph α) : Prop where
  used : ∀ {n : Node α}, known n → ∀ {p : Part} {storage : Nat}, g.owned n.id p = some storage →
    (storage, bytes n.signature) ∈ g.allocator.held
  owner : ∀ {entry : Nat × Nat}, entry ∈ g.allocator.held → spare = some entry ∨
    ∃ n, known n ∧ ∃ p, g.owned n.id p = some entry.1
  apart : ∀ {m n : Node α}, known m → known n → ∀ {p q : Part} {storage : Nat},
    g.owned m.id p = some storage → g.owned n.id q = some storage → m.id = n.id ∧ p = q
  free : ∀ {entry : Nat × Nat}, spare = some entry → entry ∈ g.allocator.held ∧
    ∀ {n : Node α}, known n → ∀ p, g.owned n.id p ≠ some entry.1

variable {known : Node α → Prop} {spare : Option (Nat × Nat)} {g g' : Graph α}

theorem owned_of_update {id : Nat} {s : Slot α} (slots : g'.slot = Function.update g.slot id s)
    (j : Nat) : g'.owned j = if j = id then s.owned else g.owned j := by
  unfold owned
  rw [slots]
  by_cases same : j = id
  · rw [same, Function.update_self, if_pos rfl]
  · rw [Function.update_of_ne same, if_neg same]

namespace Ledger

/-- Only who owns what and the allocator matter. -/
theorem of_same (ledger : Ledger known spare g)
    (owned : ∀ n, known n → g'.owned n.id = g.owned n.id)
    (allocator : g'.allocator = g.allocator) : Ledger known spare g' where
  used mem p storage owns := by
    rw [owned _ mem] at owns
    rw [allocator]
    exact ledger.used mem owns
  owner held := by
    rw [allocator] at held
    refine (ledger.owner held).imp_right fun ⟨n, mem, p, owns⟩ => ⟨n, mem, p, ?_⟩
    rw [owned n mem]
    exact owns
  apart mem mem' p q storage owns owns' := by
    rw [owned _ mem] at owns
    rw [owned _ mem'] at owns'
    exact ledger.apart mem mem' owns owns'
  free given := by
    obtain ⟨held, alone⟩ := ledger.free given
    rw [allocator]
    refine ⟨held, fun mem p => ?_⟩
    rw [owned _ mem]
    exact alone mem p

/-- A new storage, which nobody owns yet. -/
theorem allocate (ledger : Ledger known none g) (balanced : g.allocator.Balanced) (b : Nat)
    (owned : g'.owned = g.owned) (allocator : g'.allocator = (g.allocator.allocate b).2) :
    Ledger known (some (g.allocator.fresh, b)) g' := by
  have held : ∀ {entry}, entry ∈ g'.allocator.held ↔
      entry = (g.allocator.fresh, b) ∨ entry ∈ g.allocator.held := by
    rw [allocator]
    exact List.mem_cons
  refine ⟨fun mem p storage owns => ?_, fun inside => ?_, fun mem mem' p q storage owns owns' => ?_,
    fun given => ?_⟩
  · rw [owned] at owns
    exact held.mpr (.inr (ledger.used mem owns))
  · rcases held.mp inside with rfl | inside
    · exact .inl rfl
    · rcases ledger.owner inside with impossible | owned'
      · cases impossible
      · rw [owned]
        exact .inr owned'
  · rw [owned] at owns owns'
    exact ledger.apart mem mem' owns owns'
  · cases given
    refine ⟨held.mpr (.inl rfl), fun mem p owns => ?_⟩
    rw [owned] at owns
    exact balanced.not_held (List.mem_map.mpr ⟨_, ledger.used mem owns, rfl⟩)

/-- A part of a node gives back what it owns. -/
theorem vacate (ledger : Ledger known spare g) {n : Node α} (memN : known n) {p : Part}
    (self : g'.owned n.id p = none)
    (others : ∀ id q, ¬(id = n.id ∧ q = p) → g'.owned id q = g.owned id q)
    (allocator : g'.allocator = match g.owned n.id p with
      | some storage => g.allocator.release storage
      | none => g.allocator) : Ledger known spare g' := by
  have before : ∀ {m q storage}, g'.owned m q = some storage →
      g.owned m q = some storage ∧ ¬(m = n.id ∧ q = p) := by
    intro m q storage owns
    by_cases this : m = n.id ∧ q = p
    · rw [this.1, this.2, self] at owns
      cases owns
    · exact ⟨others m q this ▸ owns, this⟩
  -- what is in use afterwards was in use before, and is not what the part owned
  have held : ∀ {entry}, entry ∈ g'.allocator.held ↔
      entry ∈ g.allocator.held ∧ g.owned n.id p ≠ some entry.1 := by
    intro entry
    rw [allocator]
    cases g.owned n.id p with
    | none => simp
    | some storage =>
      rw [Allocator.mem_release]
      simp [eq_comm]
  refine ⟨fun mem q storage owns => ?_, fun inside => ?_, fun mem mem' q r storage owns owns' => ?_,
    fun given => ?_⟩
  · obtain ⟨owns, other⟩ := before owns
    exact held.mpr ⟨ledger.used mem owns, fun gone => other (ledger.apart mem memN owns gone)⟩
  · obtain ⟨inside, other⟩ := held.mp inside
    refine (ledger.owner inside).imp_right fun ⟨m, mem, q, owns⟩ => ⟨m, mem, q, ?_⟩
    rw [others m.id q fun same => other (by rw [← same.1, ← same.2]; exact owns)]
    exact owns
  · exact ledger.apart mem mem' (before owns).1 (before owns').1
  · obtain ⟨inside, alone⟩ := ledger.free given
    exact ⟨held.mpr ⟨inside, alone memN p⟩, fun mem q owns => alone mem q (before owns).1⟩

/-- The storage that nobody owns yet becomes that of a part which owns none. -/
theorem attach (wf : WellFormed known g) {storage : Nat} {n : Node α} (memN : known n)
    (ledger : Ledger known (some (storage, bytes n.signature)) g) {p : Part}
    (absent : g.owned n.id p = none) (self : g'.owned n.id p = some storage)
    (others : ∀ id q, ¬(id = n.id ∧ q = p) → g'.owned id q = g.owned id q)
    (allocator : g'.allocator = g.allocator) : Ledger known none g' := by
  obtain ⟨inside, alone⟩ := ledger.free rfl
  have cases : ∀ {m q s}, known m → g'.owned m.id q = some s →
      m.id = n.id ∧ q = p ∧ s = storage ∨ g.owned m.id q = some s ∧ s ≠ storage := by
    intro m q s mem owns
    by_cases this : m.id = n.id ∧ q = p
    · rw [this.1, this.2, self] at owns
      exact .inl ⟨this.1, this.2, (Option.some.inj owns).symm⟩
    · rw [others m.id q this] at owns
      exact .inr ⟨owns, fun same => alone mem q (same ▸ owns)⟩
  refine ⟨fun {m} mem {q s} owns => ?_, fun {entry} held => ?_,
    fun {k m} mem mem' {q r s} owns owns' => ?_, nofun⟩
  · rw [allocator]
    rcases cases mem owns with ⟨same, _, rfl⟩ | ⟨owns, _⟩
    · rw [wf.unique mem memN same]
      exact inside
    · exact ledger.used mem owns
  · rw [allocator] at held
    rcases ledger.owner held with given | ⟨m, mem, q, owns⟩
    · cases given
      exact .inr ⟨n, memN, p, self⟩
    · refine .inr ⟨m, mem, q, ?_⟩
      rw [others m.id q ?_]
      · exact owns
      · rintro ⟨same, rfl⟩
        rw [same, absent] at owns
        cases owns
  · rcases cases mem owns with ⟨same, rfl, rfl⟩ | ⟨owns, other⟩
    · rcases cases mem' owns' with ⟨same', rfl, _⟩ | ⟨_, other⟩
      · exact ⟨same.trans same'.symm, rfl⟩
      · exact absurd rfl other
    · rcases cases mem' owns' with ⟨_, _, rfl⟩ | ⟨owns', _⟩
      · exact absurd rfl other
      · exact ledger.apart mem mem' owns owns'

/-- Nodes that own nothing may come and go. -/
theorem reassign {known' : Node α → Prop} (ledger : Ledger known none g)
    (back : ∀ n, known' n → known n ∨ ∀ p, g.owned n.id p = none)
    (forth : ∀ n, known n → known' n ∨ ∀ p, g.owned n.id p = none)
    (owned : g'.owned = g.owned) (allocator : g'.allocator = g.allocator) :
    Ledger known' none g' := by
  have old : ∀ {n p storage}, known' n → g'.owned n.id p = some storage →
      known n ∧ g.owned n.id p = some storage := by
    intro n p storage mem owns
    rw [owned] at owns
    rcases back n mem with mem | empty
    · exact ⟨mem, owns⟩
    · rw [empty] at owns
      cases owns
  refine ⟨fun mem p storage owns => ?_, fun {entry} held => .inr ?_,
    fun mem mem' p q storage owns owns' => ?_, nofun⟩
  · rw [allocator]
    exact ledger.used (old mem owns).1 (old mem owns).2
  · rw [allocator] at held
    rcases ledger.owner held with impossible | ⟨n, mem, p, owns⟩
    · cases impossible
    · rcases forth n mem with mem | empty
      · exact ⟨n, mem, p, owned ▸ owns⟩
      · rw [empty] at owns
        cases owns
  · exact ledger.apart (old mem owns).1 (old mem' owns').1 (old mem owns).2 (old mem' owns').2

end Ledger

/-! ### Values and gradients -/

theorem owned_releaseValue {id : Nat} (bound : id < g.slots.size) :
    (g.releaseValue id).owned id .value = none ∧
      ∀ j q, ¬(j = id ∧ q = .value) → (g.releaseValue id).owned j q = g.owned j q := by
  have owned := owned_of_update (slot_releaseValue bound)
  refine ⟨by rw [owned, if_pos rfl]; rfl, fun j q other => ?_⟩
  rw [owned]
  split
  next same =>
    cases q with
    | value => exact absurd ⟨same, rfl⟩ other
    | grad => rw [same]; rfl
  · rfl

theorem allocator_releaseValue (g : Graph α) (id : Nat) :
    (g.releaseValue id).allocator = match g.owned id .value with
      | some storage => g.allocator.release storage
      | none => g.allocator := by
  unfold releaseValue owned Slot.owned
  cases (g.slot id).value with
  | none => rfl
  | some held =>
    dsimp only [Option.bind_some]
    cases held.owned <;> rfl

theorem owned_releaseGrad {id : Nat} (bound : id < g.slots.size) :
    (g.releaseGrad id).owned id .grad = none ∧
      ∀ j q, ¬(j = id ∧ q = .grad) → (g.releaseGrad id).owned j q = g.owned j q := by
  have owned := owned_of_update (slot_releaseGrad bound)
  refine ⟨by rw [owned, if_pos rfl]; rfl, fun j q other => ?_⟩
  rw [owned]
  split
  next same =>
    cases q with
    | grad => exact absurd ⟨same, rfl⟩ other
    | value => rw [same]; rfl
  · rfl

theorem allocator_releaseGrad (g : Graph α) (id : Nat) :
    (g.releaseGrad id).allocator = match g.owned id .grad with
      | some storage => g.allocator.release storage
      | none => g.allocator := by
  unfold releaseGrad owned Slot.owned
  cases (g.slot id).grad with
  | none => rfl
  | some held => rfl

theorem Ledger.releaseValue (ledger : Ledger known spare g) {n : Node α} (mem : known n)
    (bound : n.id < g.slots.size) : Ledger known spare (g.releaseValue n.id) :=
  have owned := owned_releaseValue bound
  ledger.vacate mem owned.1 owned.2 (allocator_releaseValue g n.id)

theorem Ledger.releaseGrad (ledger : Ledger known spare g) {n : Node α} (mem : known n)
    (bound : n.id < g.slots.size) : Ledger known spare (g.releaseGrad n.id) :=
  have owned := owned_releaseGrad bound
  ledger.vacate mem owned.1 owned.2 (allocator_releaseGrad g n.id)

/-- A value set in place of another one: what that owned is given back, and the new one owns the
storage that nobody owned, unless it is a view. -/
theorem Ledger.setValue {n : Node α} {held : Held α} {spare : Option (Nat × Nat)}
    (ledger : Ledger known spare g) (wf : WellFormed known g) (mem : known n)
    (spare_eq : spare = if held.owned then some (held.storage, bytes n.signature) else none) :
    Ledger known none (g.setValue n.id held) := by
  have bound := wf.bound mem
  have wf' : WellFormed known (g.releaseValue n.id) := wf.of_outline (outline_releaseValue g n.id)
  have ledger' := ledger.releaseValue mem bound
  have bound' : n.id < (g.releaseValue n.id).slots.size := wf'.bound mem
  have slots : (g.setValue n.id held).slot = Function.update (g.releaseValue n.id).slot n.id
      { (g.releaseValue n.id).slot n.id with value := some held } := slot_modifySlot bound' _
  have owned := owned_of_update slots
  have absent := (owned_releaseValue bound).1
  cases own : held.owned with
  | true =>
    simp only [own, if_true] at spare_eq
    subst spare_eq
    refine ledger'.attach wf' mem (p := .value) absent ?_ (fun id q other => ?_) rfl
    · rw [owned, if_pos rfl]
      simp [Slot.owned, own]
    · rw [owned]
      split
      next same =>
        cases q with
        | value => exact absurd ⟨same, rfl⟩ other
        | grad => rw [same]; rfl
      · rfl
  | false =>
    simp only [own, Bool.false_eq_true, if_false] at spare_eq
    subst spare_eq
    refine ledger'.of_same (fun m _ => ?_) rfl
    rw [owned]
    split
    next same =>
      funext q
      rw [same]
      cases q with
      | value =>
        rw [absent]
        simp [Slot.owned, own]
      | grad => rfl
    · rfl

end Graph

end ReverseMode
