import ReverseMode.Operator.Inference
import ReverseMode.Proofs.Broadcast

/-!
What the rules of operators say.

Where a rule gives a signature, the checks it makes have passed and the extents are the ones it
names. Each of these lemmas opens one rule, so that nothing else has to.
-/

namespace ReverseMode

namespace Operator

theorem throw_unless {β : Type} {p : Prop} [Decidable p] {f : Fault} {x : Except Fault β} {b : β} :
    (do if p then throw f
        x) = .ok b ↔ ¬p ∧ x = .ok b := by
  by_cases h : p
  · rw [if_pos h]
    exact ⟨nofun, fun passed => absurd h passed.1⟩
  · rw [if_neg h]
    exact ⟨fun passed => ⟨h, passed⟩, And.right⟩

/-- Where a loop that only checks comes to its end, every check has passed. -/
theorem forall_of_forIn {β : Type} {p : β → Prop} [DecidablePred p] {fault : β → Fault}
    {xs : List β}
    {u : Unit} (passed : (forIn xs PUnit.unit fun x _ => do
      if p x then throw (fault x)
      pure (.yield PUnit.unit) : Except Fault PUnit.{1}) = .ok u) : ∀ x ∈ xs, ¬p x := by
  induction xs with
  | nil => exact fun x mem => nomatch mem
  | cons x xs ih =>
    rw [List.forIn_cons] at passed
    obtain ⟨step, checked, passed⟩ := bind_eq_ok.mp passed
    obtain ⟨here, checked⟩ := throw_unless.mp checked
    cases pure_eq_ok.mp checked
    exact List.forall_mem_cons.mpr ⟨here, ih passed⟩

/-- What a matrix product requires of its inputs, and what it makes of them. -/
theorem productRule_eq_ok {transA transB batched : Bool} {a b s : Signature}
    (inferred : productRule transA transB batched a b = .ok s) :
    2 ≤ a.shape.rank ∧ 2 ≤ b.shape.rank ∧
      (if transA then a.shape.extentBack 1 else a.shape.extentBack 0) =
        (if transB then b.shape.extentBack 0 else b.shape.extentBack 1) ∧
      (∃ front, broadcast? [a.shape.extents.take (a.shape.rank - 2),
          b.shape.extents.take (b.shape.rank - 2)] = some front ∧
        s.shape.extents = front ++ [if transA then a.shape.extentBack 0 else a.shape.extentBack 1,
          if transB then b.shape.extentBack 1 else b.shape.extentBack 0]) ∧
      ElementType.common [a.type, b.type] = .ok s.type := by
  unfold productRule at inferred
  dsimp only at inferred
  rw [throw_unless] at inferred
  obtain ⟨ranks, inferred⟩ := inferred
  rw [throw_unless] at inferred
  obtain ⟨_, inferred⟩ := inferred
  rw [throw_unless] at inferred
  obtain ⟨inner, inferred⟩ := inferred
  obtain ⟨first, left, inferred⟩ := bind_eq_ok.mp inferred
  obtain ⟨second, right, inferred⟩ := bind_eq_ok.mp inferred
  obtain ⟨front, joined, inferred⟩ := bind_eq_ok.mp inferred
  obtain ⟨type, common, inferred⟩ := bind_eq_ok.mp inferred
  obtain ⟨shape, made, inferred⟩ := bind_eq_ok.mp inferred
  cases pure_eq_ok.mp inferred
  rw [Shape.ofNats_eq_ok] at left right made
  rw [Shape.broadcast_eq_ok, List.map_cons, List.map_cons, List.map_nil, ← left, ← right] at joined
  exact ⟨by omega, by omega, not_not.mp inner, ⟨front.extents, joined, made.symm⟩, common⟩

theorem only_eq_ok {signatures : List Signature} {a : Signature} (given : only signatures = .ok a) :
    signatures = [a] := by
  unfold only at given
  split at given
  · cases given
    rfl
  · cases given

theorem both_eq_ok {signatures : List Signature} {a b : Signature}
    (given : both signatures = .ok (a, b)) : signatures = [a, b] := by
  unfold both at given
  split at given
  · cases given
    rfl
  · cases given

theorem requireFloat_eq_ok {what : String} {a s : Signature}
    (required : requireFloat what a = .ok s) : a = s ∧ s.type.isFloat = true := by
  obtain ⟨type, float, required⟩ := bind_eq_ok.mp required
  cases pure_eq_ok.mp required
  refine ⟨rfl, ?_⟩
  unfold ElementType.requireFloat at float
  split at float
  · assumption
  · cases float

/-- A unary operator keeps the extents of its input. -/
theorem unaryRule_eq_ok {f : Unary} {a s : Signature} (inferred : unaryRule f a = .ok s) :
    s.shape = a.shape := by
  unfold unaryRule at inferred
  split at inferred
  case _ | _ | _ | _ | _ => cases inferred; rfl
  case _ | _ =>
    split at inferred
    · cases inferred
      rfl
    · cases inferred
  · rw [(requireFloat_eq_ok inferred).1]

/-- What the inputs of a joint operator combine to. -/
theorem broadcastRule_eq_ok {inputs : List Signature} {s : Signature}
    (inferred : broadcastRule inputs = .ok s) :
    broadcast? (inputs.map fun a => a.shape.extents) = some s.shape.extents ∧
      ElementType.common (inputs.map Signature.type) = .ok s.type := by
  obtain ⟨shape, made, inferred⟩ := bind_eq_ok.mp inferred
  obtain ⟨type, common, inferred⟩ := bind_eq_ok.mp inferred
  cases pure_eq_ok.mp inferred
  exact ⟨by simpa [Function.comp_def] using Shape.broadcast_eq_ok.mp made, common⟩

theorem broadcastRule_of_joint {f : Joint} {inputs : List Signature} {s : Signature}
    (inferred : jointRule f inputs = .ok s) : broadcastRule inputs = .ok s := by
  obtain ⟨t, joined, inferred⟩ := bind_eq_ok.mp inferred
  have same : t = s := by
    cases f with
    | div | logAddExp | tanh | highway => exact (requireFloat_eq_ok inferred).1
    | _ => exact pure_eq_ok.mp inferred
  exact same ▸ joined

/-- A joint operator has the extents that its inputs combine to. -/
theorem jointRule_eq_ok {f : Joint} {inputs : List Signature} {s : Signature}
    (inferred : jointRule f inputs = .ok s) :
    broadcast? (inputs.map fun a => a.shape.extents) = some s.shape.extents :=
  (broadcastRule_eq_ok (broadcastRule_of_joint inferred)).1

/-- A reduction leaves extent one of its axis. -/
theorem reduceRule_eq_ok {r : Reduction} {axis : Axis} {a s : Signature}
    (inferred : reduceRule r axis a = .ok s) :
    ∃ i, axis.resolve a.shape.rank = .ok i ∧ s.shape.extents = a.shape.extents.set i 1 := by
  have inferred : (do
      let i ← axis.resolve a.shape.rank
      pure ⟨← a.shape.set (.ofInt i) 1, a.type⟩) = Except.ok s := by
    cases r with
    | mean | std | var | logSumExp => exact (bind_eq_ok.mp inferred).choose_spec.2
    | _ => exact inferred
  obtain ⟨i, resolved, inferred⟩ := bind_eq_ok.mp inferred
  obtain ⟨shape, made, inferred⟩ := bind_eq_ok.mp inferred
  cases pure_eq_ok.mp inferred
  exact ⟨i, resolved, Shape.set_eq_ok (Axis.resolve_lt resolved) made⟩

/-- Labels have the extents of the fibres of the logits along the last axis. -/
theorem labelRule_eq_ok {logits labels s : Signature} (inferred : labelRule logits labels = .ok s) :
    (labels.shape.extents = logits.shape.extents.dropLast ∨
        labels.shape.extents = logits.shape.extents.dropLast ++ [1]) ∧
      s.shape.extents = logits.shape.extents.dropLast ++ [1] := by
  obtain ⟨_, _, inferred⟩ := bind_eq_ok.mp inferred
  dsimp only at inferred
  rw [throw_unless] at inferred
  obtain ⟨_, inferred⟩ := inferred
  rw [throw_unless] at inferred
  obtain ⟨held, inferred⟩ := inferred
  obtain ⟨shape, made, inferred⟩ := bind_eq_ok.mp inferred
  cases pure_eq_ok.mp inferred
  refine ⟨?_, (Shape.ofNats_eq_ok.mp made).symm⟩
  simp only [Bool.and_eq_true, bne_iff_ne, ne_eq] at held
  tauto

/-- Scale and shift combine with the first input to the extents of that one. -/
theorem layerNormRule_eq_ok {inputs : List Signature} {s : Signature}
    (inferred : layerNormRule inputs = .ok s) :
    ∃ x rest, inputs = x :: rest ∧ s.shape = x.shape ∧
      broadcast? (inputs.map fun a => a.shape.extents) = some x.shape.extents := by
  obtain ⟨shape, made, inferred⟩ := bind_eq_ok.mp inferred
  cases inputs with
  | nil => cases inferred
  | cons x rest =>
    obtain ⟨_, same, inferred⟩ := bind_eq_ok.mp inferred
    cases pure_eq_ok.mp same
    dsimp only at inferred
    rw [throw_unless] at inferred
    obtain ⟨absorbed, inferred⟩ := inferred
    obtain ⟨type, _, inferred⟩ := bind_eq_ok.mp inferred
    obtain ⟨rfl, _⟩ := requireFloat_eq_ok inferred
    obtain rfl := not_not.mp absorbed
    refine ⟨x, rest, rfl, rfl, ?_⟩
    simpa [Function.comp_def] using Shape.broadcast_eq_ok.mp made

/-- Of an axis no more places are picked than it has. -/
theorem topKRule_eq_ok {k : Int} {axis : Axis} {indices : Bool} {a s : Signature}
    (inferred : topKRule k axis indices a = .ok s) :
    ∃ i, axis.resolve a.shape.rank = .ok i ∧ k ≤ a.shape.extent i ∧
      s.shape.extents = a.shape.extents.set i k.toNat := by
  obtain ⟨i, resolved, inferred⟩ := bind_eq_ok.mp inferred
  dsimp only at inferred
  rw [throw_unless] at inferred
  obtain ⟨between, inferred⟩ := inferred
  obtain ⟨shape, made, inferred⟩ := bind_eq_ok.mp inferred
  cases pure_eq_ok.mp inferred
  exact ⟨i, resolved, by omega, Shape.set_eq_ok (Axis.resolve_lt resolved) made⟩

/-- Inputs that are joined agree with the first one outside the axis. -/
theorem joinRule_eq_ok {axis : Axis} {inputs : List Signature} {s : Signature}
    (inferred : joinRule axis inputs = .ok s) :
    ∃ first rest i, inputs = first :: rest ∧ axis.resolve first.shape.rank = .ok i ∧
      (∀ a ∈ inputs, Tensor.agreeOutside i a.shape.extents first.shape.extents = true) ∧
      s.shape.extents = first.shape.extents.set i
        ((inputs.map fun a => a.shape.extent i).foldr (· + ·) 0) := by
  cases inputs with
  | nil => cases inferred
  | cons first rest =>
    obtain ⟨shape, same, inferred⟩ := bind_eq_ok.mp inferred
    cases pure_eq_ok.mp same
    obtain ⟨i, resolved, inferred⟩ := bind_eq_ok.mp inferred
    obtain ⟨_, agree, inferred⟩ := bind_eq_ok.mp inferred
    dsimp only at inferred
    obtain ⟨joined, made, inferred⟩ := bind_eq_ok.mp inferred
    obtain ⟨type, _, inferred⟩ := bind_eq_ok.mp inferred
    cases pure_eq_ok.mp inferred
    refine ⟨first, rest, i, rfl, resolved, fun a mem => ?_,
      Shape.set_eq_ok (Axis.resolve_lt resolved) made⟩
    simpa using forall_of_forIn agree a mem

/-- Indices are a list of integers, and as many places are picked. -/
theorem indexSelectRule_eq_ok {axis : Axis} {a indices s : Signature}
    (inferred : indexSelectRule axis a indices = .ok s) :
    indices.type.isInt = true ∧ ∃ n i, indices.shape.extents = [n] ∧
      axis.resolve a.shape.rank = .ok i ∧ s.shape.extents = a.shape.extents.set i n := by
  obtain ⟨_, integers, inferred⟩ := bind_eq_ok.mp inferred
  rw [throw_unless] at inferred
  obtain ⟨list, inferred⟩ := inferred
  obtain ⟨i, resolved, inferred⟩ := bind_eq_ok.mp inferred
  obtain ⟨shape, made, inferred⟩ := bind_eq_ok.mp inferred
  cases pure_eq_ok.mp inferred
  obtain ⟨n, extents⟩ := List.length_eq_one_iff.mp (not_not.mp list)
  have extent : indices.shape.extent 0 = n := by
    unfold Shape.extent
    rw [extents]
    rfl
  have set := Shape.set_eq_ok (Axis.resolve_lt resolved) made
  rw [extent] at set
  refine ⟨?_, n, i, extents, resolved, set⟩
  unfold requireIndices at integers
  split at integers
  · assumption
  · cases integers

theorem gatherRule_eq_ok {axis : Axis} {a indices s : Signature}
    (inferred : gatherRule axis a indices = .ok s) :
    ∃ i, axis.resolve a.shape.rank = .ok i ∧ s.shape = indices.shape ∧
      Tensor.agreeOutside i indices.shape.extents a.shape.extents = true := by
  obtain ⟨_, _, inferred⟩ := bind_eq_ok.mp inferred
  obtain ⟨i, resolved, inferred⟩ := bind_eq_ok.mp inferred
  rw [throw_unless] at inferred
  obtain ⟨agree, inferred⟩ := inferred
  cases pure_eq_ok.mp inferred
  exact ⟨i, resolved, rfl, by simpa using agree⟩

end Operator
end ReverseMode
