import Mathlib.Data.List.Basic
import ReverseMode.Proofs.Outcome
import ReverseMode.Graph.Backward

/-!
Denotations: what nodes stand for, given the values of the leaves.

`Node.denote` applies the operators of an expression to the values of its leaves. It does
not see what a graph has released or computed again. `Operator.attempt` is the part of the
computation of one application that can fail.
-/

namespace ReverseMode

/-- Induction over an expression from its inputs. -/
theorem Node.rec_inputs {α : Type} {motive : Node α → Prop}
    (step : ∀ n : Node α, (∀ m ∈ n.inputs, motive m) → motive n) (n : Node α) : motive n :=
  step n fun m _ => Node.rec_inputs step m
termination_by sizeOf n
decreasing_by exact Node.sizeOf_lt_of_mem_inputs (by assumption)

section Deferred

variable {β γ δ : Type}

/-- Some results, one by one. -/
def Yields (f : β → Option γ) (as : List β) (bs : List γ) : Prop := as.map f = bs.map some

theorem Yields.nil {f : β → Option γ} {bs : List γ} : Yields f [] bs ↔ bs = [] := by
  cases bs <;> simp [Yields]

theorem Yields.cons {f : β → Option γ} {a : β} {as : List β} {bs : List γ} :
    Yields f (a :: as) bs ↔ ∃ b rest, bs = b :: rest ∧ f a = some b ∧ Yields f as rest := by
  cases bs with
  | nil => simp [Yields]
  | cons b rest =>
    simp only [Yields, List.map_cons, List.cons.injEq]
    constructor
    · rintro ⟨found, others⟩
      exact ⟨b, rest, ⟨rfl, rfl⟩, found, others⟩
    · rintro ⟨_, _, ⟨rfl, rfl⟩, found, others⟩
      exact ⟨found, others⟩

theorem Yields.mem {f : β → Option γ} {as : List β} {bs : List γ} (h : Yields f as bs) {a : β}
    (mem : a ∈ as) : ∃ b, f a = some b := by
  have : f a ∈ bs.map some := h ▸ List.mem_map_of_mem mem
  obtain ⟨b, _, same⟩ := List.mem_map.mp this
  exact ⟨b, same.symm⟩

theorem Yields.of_mem {f : β → Option γ} {as : List β} (each : ∀ a ∈ as, ∃ b, f a = some b) :
    ∃ bs, Yields f as bs := by
  induction as with
  | nil => exact ⟨[], rfl⟩
  | cons a as ih =>
    obtain ⟨b, found⟩ := each a (by simp)
    obtain ⟨bs, rest⟩ := ih fun c mem => each c (by simp [mem])
    exact ⟨b :: bs, Yields.cons.mpr ⟨b, bs, rfl, found, rest⟩⟩

theorem Yields.congr {f g : β → Option γ} {as : List β} {bs : List γ} (h : Yields f as bs)
    (same : ∀ a ∈ as, ∀ b, f a = some b → g a = some b) : Yields g as bs := by
  induction as generalizing bs with
  | nil => exact h
  | cons a as ih =>
    obtain ⟨b, rest, rfl, found, yields⟩ := Yields.cons.mp h
    exact Yields.cons.mpr ⟨b, rest, rfl, same a (by simp) b found,
      ih yields fun c mem => same c (by simp [mem])⟩

theorem Yields.unique {f : β → Option γ} {as : List β} {bs cs : List γ} (h : Yields f as bs)
    (h' : Yields f as cs) : bs = cs :=
  Function.Injective.list_map (fun _ _ => Option.some.inj) (h.symm.trans h')

end Deferred

namespace Operator

variable {α : Type} [Element α]

/-- The value that an application makes of the values of its inputs. -/
def result (op : Operator α) (s : Stamp) (ts : List (Tensor α)) : Except Fault (Tensor α) :=
  if op.isView then op.viewOf ts else op.forward s.type.storage s.shape.extents ts

/-- What a debug node tells of the values of its inputs. -/
def told (settings : Settings) (op : Operator α) (ts : List (Tensor α)) : Report.Pieces :=
  match Graph.debugMessage? op, ts, settings.log? with
  | some message, seen :: _, some log =>
    Report.debugText "FORWARD" message.plain seen.shape (Report.valueText log.limit (some seen))
  | _, _, _ => []

/-- What an application needs beside the values of its inputs: a buffer, or for a view that what
it tells can be told. -/
def admitted (settings : Settings) (op : Operator α) (s : Stamp) (ts : List (Tensor α)) :
    Except Fault Unit :=
  if op.isView then
    match (Report.written (op.told settings ts)).2 with
    | some f => .error f
    | none => .ok ()
  else checkRank s.shape.rank *> Allocator.checkBytes (Graph.bytes ⟨s.shape, s.type⟩)

/-- The computation of an application. -/
def attempt (settings : Settings) (op : Operator α) (s : Stamp) (ts : List (Tensor α)) :
    Except Fault (Tensor α) := do
  op.admitted settings s ts
  op.result s ts

theorem attempt_eq_ok {settings : Settings} {op : Operator α} {s : Stamp} {ts : List (Tensor α)}
    {t : Tensor α} :
    op.attempt settings s ts = .ok t ↔
      op.admitted settings s ts = .ok () ∧ op.result s ts = .ok t := by
  rw [attempt, bind_eq_ok]
  exact ⟨fun ⟨_, first, second⟩ => ⟨first, second⟩, fun ⟨first, second⟩ => ⟨_, first, second⟩⟩

theorem attempt_eq_error {settings : Settings} {op : Operator α} {s : Stamp}
    {ts : List (Tensor α)} {f : Fault} :
    op.attempt settings s ts = .error f ↔
      op.admitted settings s ts = .error f ∨
        op.admitted settings s ts = .ok () ∧ op.result s ts = .error f := by
  unfold attempt
  cases op.admitted settings s ts with
  | error e => simp [bind, Except.bind]
  | ok => simp [bind, Except.bind]

end Operator

namespace Node

variable {α : Type} [Element α]

mutual

/-- The value of an expression, from the values of its leaves. -/
def denote (leaf : Nat → Option (Tensor α)) : Node α → Option (Tensor α)
  | .leaf s _ => leaf s.id
  | .apply s op inputs =>
    match denoteAll leaf inputs with
    | some ts => (op.result s ts).toOption
    | none => none

/-- The values of several expressions. -/
def denoteAll (leaf : Nat → Option (Tensor α)) : List (Node α) → Option (List (Tensor α))
  | [] => some []
  | n :: rest =>
    match denote leaf n, denoteAll leaf rest with
    | some t, some ts => some (t :: ts)
    | _, _ => none

end

variable {leaf leaf' : Nat → Option (Tensor α)}

theorem denoteAll_eq_some {ns : List (Node α)} {ts : List (Tensor α)} :
    denoteAll leaf ns = some ts ↔ Yields (denote leaf) ns ts := by
  induction ns generalizing ts with
  | nil => simp [denoteAll, Yields.nil, eq_comm]
  | cons n rest ih =>
    rw [denoteAll, Yields.cons]
    constructor
    · intro h
      split at h
      next t us first others =>
        cases h
        exact ⟨t, us, rfl, first, ih.mp others⟩
      next => cases h
    · rintro ⟨t, us, rfl, first, others⟩
      rw [first, ih.mpr others]

theorem denote_apply_eq_some {s : Stamp} {op : Operator α} {inputs : List (Node α)}
    {t : Tensor α} :
    denote leaf (.apply s op inputs) = some t ↔
      ∃ ts, Yields (denote leaf) inputs ts ∧ op.result s ts = .ok t := by
  rw [denote]
  constructor
  · intro h
    split at h
    next ts values =>
      refine ⟨ts, denoteAll_eq_some.mp values, ?_⟩
      cases result : op.result s ts with
      | error => simp [result, Except.toOption] at h
      | ok u =>
        simp only [result, Except.toOption, Option.some.injEq] at h
        rw [h]
    next => cases h
  · rintro ⟨ts, values, result⟩
    simp only [denoteAll_eq_some.mpr values, result, Except.toOption]

/-- A value that was there stays the same when more leaves have values. -/
theorem denote_mono {n : Node α}
    (known : Node α → Prop) (closed : ∀ n, known n → ∀ m ∈ n.inputs, known m)
    (more : ∀ s init, known (.leaf s init) → ∀ t, leaf s.id = some t → leaf' s.id = some t)
    (mem : known n) {t : Tensor α} (value : denote leaf n = some t) :
    denote leaf' n = some t := by
  induction n using Node.rec_inputs generalizing t with
  | step n ih =>
    cases n with
    | leaf s init =>
      rw [denote] at value ⊢
      exact more s init mem t value
    | apply s op inputs =>
      obtain ⟨ts, values, result⟩ := denote_apply_eq_some.mp value
      refine denote_apply_eq_some.mpr ⟨ts, values.congr fun m input u => ?_, result⟩
      exact ih m input (closed _ mem m input)

/-- Denotations depend on the values of the leaves only. -/
theorem denote_congr {n : Node α}
    (known : Node α → Prop) (closed : ∀ n, known n → ∀ m ∈ n.inputs, known m)
    (same : ∀ s init, known (.leaf s init) → leaf s.id = leaf' s.id) (mem : known n) :
    denote leaf n = denote leaf' n := by
  refine Option.ext fun t => ⟨fun value => ?_, fun value => ?_⟩
  · exact denote_mono known closed (fun s init h t ht => same s init h ▸ ht) mem value
  · exact denote_mono known closed (fun s init h t ht => (same s init h).symm ▸ ht) mem value

end Node

end ReverseMode
