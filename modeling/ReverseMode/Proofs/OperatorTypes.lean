import ReverseMode.Proofs.ArrayTypes
import ReverseMode.Proofs.Rules

/-!
Storage types through operators.

An operator whose inputs conform to some signatures gives a value that conforms to the inferred one:
what is computed is stored in a buffer of that signature, and a view shows an input that has its
type. What a backward step adds to the gradient of an input fits the signature of that input.

A function of a caller is lawful if it writes into the arrays it is handed, as arrays are written
to: their extents and their types stay.
-/

namespace ReverseMode

open scoped Element Scalar
open Tensor (Conforms Addable)

/-! ### Places of a selection -/

namespace Selection

theorem clip_le {low high n : Int} {extent : Nat} (ordered : low ≤ high) :
    low ≤ clip low high extent n ∧ clip low high extent n ≤ high := by
  unfold clip
  dsimp only
  omega

/-- The steps that lead forwards from `start` stay before `stop`. -/
theorem stepCount_forward {start stop step : Int} {k : Nat} (positive : 0 < step)
    (less : k < stepCount start stop step) : start + k * step < stop := by
  rw [stepCount, if_pos positive] at less
  have steps : (k : Int) + 1 ≤ (stop - start + step - 1) / step := by omega
  have := (Int.le_ediv_iff_mul_le positive).mp steps
  rw [Int.add_mul, Int.one_mul] at this
  omega

/-- The steps that lead backwards from `start` stay behind `stop`. -/
theorem stepCount_backward {start stop step : Int} {k : Nat} (negative : step < 0)
    (less : k < stepCount start stop step) : stop < start + k * step := by
  rw [stepCount, if_neg (by omega)] at less
  have steps : (k : Int) + 1 ≤ (start - stop - step - 1) / (-step) := by omega
  have := (Int.le_ediv_iff_mul_le (by omega)).mp steps
  rw [Int.add_mul, Int.one_mul, Int.mul_neg] at this
  omega

theorem rangePlaces_lt {start stop step : Option Int} {extent : Nat} {places : List Nat}
    (selected : rangePlaces start stop step extent = .ok places) : ∀ p ∈ places, p < extent := by
  unfold rangePlaces at selected
  dsimp only at selected
  split at selected
  · cases selected
  next moving =>
    cases selected
    intro p mem
    obtain ⟨k, listed, rfl⟩ := List.mem_map.mp mem
    have less := List.mem_range.mp listed
    rcases Int.lt_or_gt_of_ne moving with backward | forward
    · simp only [show ¬ 0 < step.getD 1 by omega, if_false] at less ⊢
      have last := stepCount_backward backward less
      have stays : (k : Int) * step.getD 1 ≤ 0 :=
        Int.mul_nonpos_of_nonneg_of_nonpos (by omega) (by omega)
      have first : (start.map (clip (-1) (extent - 1) extent)).getD (extent - 1) ≤
          (extent : Int) - 1 := by
        cases start with
        | none => exact Int.le_refl _
        | some n => exact (clip_le (by omega)).2
      have past : (-1 : Int) ≤ (stop.map (clip (-1) (extent - 1) extent)).getD (-1) := by
        cases stop with
        | none => exact Int.le_refl _
        | some n => exact (clip_le (by omega)).1
      omega
    · simp only [forward, if_true] at less ⊢
      have last := stepCount_forward forward less
      have past : (stop.map (clip 0 extent extent)).getD extent ≤ (extent : Int) := by
        cases stop with
        | none => exact Int.le_refl _
        | some n => exact (clip_le (by omega)).2
      have first : (0 : Int) ≤ (start.map (clip 0 extent extent)).getD 0 := by
        cases start with
        | none => exact Int.le_refl _
        | some n => exact (clip_le (by omega)).1
      have stays : (0 : Int) ≤ (k : Int) * step.getD 1 := Int.mul_nonneg (by omega) (by omega)
      omega

theorem single_lt {number : Scalar} {plain : String} {extent i : Nat}
    (named : single number plain extent = .ok i) : i < extent := by
  have inside : ∀ {n : Int} {i : Nat}, placeOf n plain extent = .ok i → i < extent := by
    intro n i found
    unfold placeOf at found
    split at found
    next wrapped =>
      cases found
      exact Axis.wrap?_lt wrapped
    · cases found
  unfold single at named
  split at named
  · exact inside named
  · exact inside named
  · obtain ⟨place, found, named⟩ := bind_eq_ok.mp named
    split at named
    · cases pure_eq_ok.mp named
      exact inside found
    · cases named
  · split at named <;> cases named

/-- Selected places lie on the axis. -/
theorem places_lt {selection : Selection} {axis : Axis} {extent : Nat} {places : List Nat}
    (selected : selection.places axis extent = .ok places) : ∀ p ∈ places, p < extent := by
  unfold Selection.places at selected
  split at selected
  · obtain ⟨i, named, selected⟩ := bind_eq_ok.mp selected
    cases pure_eq_ok.mp selected
    simpa using single_lt named
  · obtain ⟨_, _, impossible⟩ := bind_eq_ok.mp selected
    cases impossible
  · cases selected
  · cases selected
  · split at selected
    · cases selected
    · obtain ⟨stride, _, selected⟩ := bind_eq_ok.mp selected
      rw [Operator.throw_unless] at selected
      obtain ⟨_, selected⟩ := selected
      obtain ⟨first, _, selected⟩ := bind_eq_ok.mp selected
      obtain ⟨past, _, selected⟩ := bind_eq_ok.mp selected
      obtain ⟨found, ranged, selected⟩ := bind_eq_ok.mp selected
      rw [Operator.throw_unless] at selected
      cases pure_eq_ok.mp selected.2
      exact rangePlaces_lt ranged

end Selection

/-! ### Lawful operators -/

/-- A function that fills a buffer of a signature leaves it one. -/
def Rule.Fills (rule : Rule Scalar) (s : Signature) : Prop :=
  ∀ {inputs : List (Tensor Scalar)} {t : Tensor Scalar},
    rule.forward inputs (Graph.zeros s) = .ok t → t.Conforms s

/-- What is added to the gradients of inputs of some signatures fits these. -/
def Contributions.Fit (signatures : List Signature) (cs : Contributions Scalar) : Prop :=
  ∀ entry ∈ cs, ∀ c, entry.2 = .ok c → ∀ s, signatures[entry.1]? = some s → c.Fits s

/-- A function that adds to the gradients of inputs adds what fits them. -/
def Rule.Adds (rule : Rule Scalar) (s : Signature) : Prop :=
  ∀ {inputs : List (Tensor Scalar)} {signatures : List Signature} {out grad : Tensor Scalar},
    List.Forall₂ Conforms inputs signatures → out.Conforms s → grad.Conforms s →
    Contributions.Fit signatures (rule.backward inputs out grad)

/-- The functions of a caller write to arrays as these are written to. -/
def Operator.Lawful : Operator Scalar → Prop
  | .custom shape type forward backward _ =>
    forward.Fills ⟨shape, type⟩ ∧ ∀ rule ∈ backward, rule.Adds ⟨shape, type⟩
  | _ => True

/-! ### Contributions that fit -/

/-- A gradient without refusals fits every signature. -/
theorem Operator.asDense_fits {made : Except Fault (Tensor Scalar)} {c : Contribution Scalar}
    (dense : Operator.asDense made = .ok c) (s : Signature) : c.Fits s := by
  obtain ⟨g, _, dense⟩ := bind_eq_ok.mp dense
  obtain ⟨u, checked, dense⟩ := bind_eq_ok.mp dense
  cases pure_eq_ok.mp dense
  obtain ⟨rfl, proper⟩ := Tensor.sound_eq_ok.mp checked
  exact proper

namespace Contributions.Fit

variable {signatures : List Signature}

theorem nil : Contributions.Fit signatures [] := fun _ mem => nomatch mem

theorem cons {slot : Nat} {made : Except Fault (Contribution Scalar)}
    {rest : Contributions Scalar}
    (here : ∀ c, made = .ok c → ∀ s, signatures[slot]? = some s → c.Fits s)
    (later : Contributions.Fit signatures rest) :
    Contributions.Fit signatures ((slot, made) :: rest) :=
  List.forall_mem_cons.mpr ⟨here, later⟩

theorem append {cs ds : Contributions Scalar} (first : Contributions.Fit signatures cs)
    (second : Contributions.Fit signatures ds) : Contributions.Fit signatures (cs ++ ds) :=
  List.forall_mem_append.mpr ⟨first, second⟩

/-- A step that fails adds nothing. -/
theorem error (slot : Nat) (f : Fault) : Contributions.Fit signatures [(slot, .error f)] :=
  .cons nofun .nil

theorem dense {slot : Nat} {made : Except Fault (Tensor Scalar)} {rest : Contributions Scalar}
    (later : Contributions.Fit signatures rest) :
    Contributions.Fit signatures ((slot, Operator.asDense made) :: rest) :=
  .cons (fun _ dense s _ => Operator.asDense_fits dense s) later

theorem ifWanted {wanted : List Bool} {slot : Nat}
    {made : Except Fault (Contribution Scalar)}
    (here : ∀ c, made = .ok c → ∀ s, signatures[slot]? = some s → c.Fits s) :
    Contributions.Fit signatures (Operator.ifWanted wanted slot made) := by
  unfold Operator.ifWanted
  split
  · exact .cons here .nil
  · exact .nil
  · exact .error _ _

theorem proper {slot : Nat} {g : Tensor Scalar} (proper : g.Proper) :
    Contributions.Fit signatures [(slot, .ok (.dense g))] := by
  refine .cons (fun c same s _ => ?_) .nil
  cases same
  exact proper

end Contributions.Fit

namespace Operator

variable {op : Operator Scalar} {s : Signature} {signatures : List Signature}
  {inputs : List (Tensor Scalar)} {t : Tensor Scalar}

/-- A view has the type of its input. -/
theorem viewOf_conforms (view : op.isView = true)
    (conform : List.Forall₂ Conforms inputs signatures)
    (inferred : op.infer signatures = .ok s) (shown : op.viewOf inputs = .ok t) : t.Conforms s := by
  have same : ∀ {a : Signature}, only signatures = .ok a → first inputs = .ok t → t.Conforms a := by
    intro a given taken
    obtain rfl := only_eq_ok given
    cases conform with
    | cons head _ =>
      cases taken
      exact head
  cases op with
  | clipGradient c =>
    obtain ⟨a, given, required⟩ := bind_eq_ok.mp inferred
    rw [← (requireFloat_eq_ok required).1]
    exact same given shown
  | stopGradient => exact same inferred shown
  | debug message observer =>
    cases observer with
    | graph => exact same inferred shown
    | refusing f => cases shown
  | reshape shape =>
    obtain ⟨a, given, inferred⟩ := bind_eq_ok.mp inferred
    obtain ⟨laid, resolved, inferred⟩ := bind_eq_ok.mp inferred
    cases pure_eq_ok.mp inferred
    obtain rfl := only_eq_ok given
    cases conform with
    | @cons u _ _ _ head _ =>
      obtain ⟨_, taken, shown⟩ := bind_eq_ok.mp shown
      cases taken
      obtain ⟨target, resolved', shown⟩ := bind_eq_ok.mp shown
      obtain ⟨_, _, shown⟩ := bind_eq_ok.mp shown
      have elements : u.size = a.shape.elements := by
        rw [Tensor.size, u.size_eq, head.shape]
        rfl
      rw [elements, resolved] at resolved'
      cases resolved'
      obtain ⟨same, extents⟩ := Tensor.toList_reshape shown
      exact ⟨extents, head.typed.of_toList same⟩
  | _ => cases view

/-- A view has the type of the input that it shows. -/
theorem type_of_view (view : op.isView = true) {a : Signature} {rest : List Signature}
    (inferred : op.infer (a :: rest) = .ok s) : a.type = s.type := by
  cases op with
  | clipGradient c =>
    obtain ⟨b, given, required⟩ := bind_eq_ok.mp inferred
    cases only_eq_ok given
    rw [(requireFloat_eq_ok required).1]
  | stopGradient =>
    cases only_eq_ok inferred
    rfl
  | debug message observer =>
    cases only_eq_ok inferred
    rfl
  | reshape shape =>
    obtain ⟨b, given, inferred⟩ := bind_eq_ok.mp inferred
    obtain ⟨laid, resolved, inferred⟩ := bind_eq_ok.mp inferred
    rw [← pure_eq_ok.mp inferred]
    cases only_eq_ok given
    rfl
  | _ => cases view

/-- What is computed is stored in the extents and the type that have been inferred. -/
theorem forward_conforms (lawful : op.Lawful) (inferred : op.infer signatures = .ok s)
    (made : op.forward s.type.storage s.shape.extents inputs = .ok t) : t.Conforms s := by
  have stored : ∀ {v : Except Fault (Tensor Scalar)},
      (do (← v).assign s.type.storage s.shape.extents) = .ok t → t.Conforms s := by
    intro v made
    obtain ⟨_, _, assigned⟩ := bind_eq_ok.mp made
    obtain ⟨shape, typed⟩ := Tensor.assign_typed assigned
    exact ⟨shape, typed⟩
  cases op with
  | custom shape type forward backward name =>
    cases pure_eq_ok.mp inferred
    exact lawful.1 made
  | _ => exact stored made

/-- The value of an application conforms to its signature. -/
theorem result_conforms (lawful : op.Lawful) {stamp : Stamp}
    (conform : List.Forall₂ Conforms inputs signatures)
    (inferred : op.infer signatures = .ok ⟨stamp.shape, stamp.type⟩)
    (made : op.result stamp inputs = .ok t) : t.Conforms ⟨stamp.shape, stamp.type⟩ := by
  unfold result at made
  split at made
  next view => exact viewOf_conforms view conform inferred made
  next => exact forward_conforms lawful inferred made

/-! ### Backward steps -/

theorem clampTo_proper {g : Tensor Scalar} {type : StorageType} (typed : g.Typed type)
    (bound : Float) :
    (g.map (clampTo bound)).Proper := by
  intro x mem
  rw [Tensor.toList_map] at mem
  obtain ⟨y, inside, rfl⟩ := List.mem_map.mp mem
  have low := Scalar.type?_apply Scalar.maximum (typed y inside) rfl
    (Scalar.reaches_real _ (-bound))
  exact Scalar.refusal?_of_type?
    (Scalar.type?_apply Scalar.minimum low rfl (Scalar.reaches_real _ bound))

/-- Every element of a typed array can be added to every number, wherever it is put. -/
theorem addable_addendsBy {g : Tensor Scalar} (all : ∀ x ∈ g.toList, Addable s.type.storage x)
    (shape : List Nat) (source : List Nat → List Nat) :
    (Contribution.sparse (Tensor.addendsBy shape source g)).Fits s := by
  intro a mem
  obtain ⟨pos, _, rfl⟩ := List.mem_map.mp mem
  exact Tensor.get_of_all all Tensor.addable_zero pos

theorem placeAddends_fits {axis : Nat} {places : Tensor Nat} {shape : List Nat}
    {g : Tensor Scalar} {type : StorageType} (typed : g.Typed type) {c : Contribution Scalar}
    (made : placeAddends axis places shape g = .ok c) (s : Signature) : c.Fits s := by
  unfold placeAddends at made
  rw [throw_unless] at made
  obtain ⟨u, expanded, made⟩ := bind_eq_ok.mp made.2
  cases pure_eq_ok.mp made
  refine addable_addendsBy ?_ _ _
  refine (Tensor.all_broadcastTo (fun x mem => ?_) Tensor.addable_zero expanded).2
  obtain ⟨pos, _, rfl⟩ := Tensor.mem_toList_ofFn.mp mem
  exact typed.addable _

theorem gatherAddends_fits {axis : Axis} {a indices g : Tensor Scalar} {type : StorageType}
    (typed : g.Typed type) {c : Contribution Scalar}
    (made : gatherAddends axis a indices g = .ok c) (s : Signature) : c.Fits s := by
  obtain ⟨i, _, made⟩ := bind_eq_ok.mp made
  obtain ⟨places, _, made⟩ := bind_eq_ok.mp made
  dsimp only at made
  rw [throw_unless] at made
  obtain ⟨u, expanded, made⟩ := bind_eq_ok.mp made.2
  cases pure_eq_ok.mp made
  refine addable_addendsBy ?_ _ _
  exact (Tensor.all_broadcastTo (fun x mem => Tensor.addable_of_type? (typed x mem))
    Tensor.addable_zero expanded).2

theorem layerNorm_fit {eps : Float} {g : Tensor Scalar} {type : StorageType}
    (typed : g.Typed type) (wanted : List Bool) :
    Contributions.Fit signatures (layerNormContributions eps inputs g wanted) := by
  unfold layerNormContributions
  split
  · refine .append (.append (.ifWanted fun c made s _ => asDense_fits made s) (.dense .nil)) ?_
    split
    · exact .nil
    · exact .proper typed.proper
  · exact .error _ _

/-- What a backward step adds to the gradients of the inputs fits their signatures. -/
theorem contributions_fit (lawful : op.Lawful) (conform : List.Forall₂ Conforms inputs signatures)
    {s : Signature} (inferred : op.infer signatures = .ok s) {out g : Tensor Scalar}
    (value : out.Conforms s) (grad : g.Conforms s) (wanted : List Bool) :
    Contributions.Fit signatures (op.contributions inputs out g wanted) := by
  have typed := grad.typed
  unfold contributions
  split
  · exact .dense .nil
  · exact .error _ _
  · intro entry mem
    obtain ⟨i, _, rfl⟩ := List.mem_map.mp mem
    exact fun c made s _ => asDense_fits made s
  · exact .proper (clampTo_proper typed _)
  · exact .proper typed.proper
  · split
    · exact .dense .nil
    · exact .nil
  · exact .dense .nil
  · exact .dense (.dense .nil)
  · exact .dense .nil
  · exact .dense .nil
  · exact .dense .nil
  · exact layerNorm_fit typed wanted
  · exact .dense .nil
  · exact .append (.ifWanted fun c made s _ => asDense_fits made s)
      (.ifWanted fun c made s _ => asDense_fits made s)
  · exact .dense .nil
  · exact .dense .nil
  · split
    · intro entry mem
      obtain ⟨⟨block, slot⟩, _, rfl⟩ := List.mem_map.mp mem
      exact fun c made s _ => asDense_fits made s
    · exact .error _ _
  next axis selection a _ =>
    refine .ifWanted fun c made s found => ?_
    obtain ⟨i, resolved, made⟩ := bind_eq_ok.mp made
    obtain ⟨places, selected, made⟩ := bind_eq_ok.mp made
    cases pure_eq_ok.mp made
    cases conform with
    | cons head _ =>
      cases found
      refine ⟨typed.homogeneous, fun p mem => ?_⟩
      have less := Selection.places_lt selected p mem
      rwa [Tensor.extent, head.shape] at less
  · refine .ifWanted fun c made s _ => ?_
    obtain ⟨i, _, made⟩ := bind_eq_ok.mp made
    obtain ⟨places, _, made⟩ := bind_eq_ok.mp made
    exact placeAddends_fits typed made s
  · exact .ifWanted fun c made s _ => gatherAddends_fits typed made s
  · cases pure_eq_ok.mp inferred
    exact lawful.2 _ rfl conform value grad
  · exact .error _ _
  · exact .error _ _
  · exact .error _ _
  · exact .error _ _

end Operator

end ReverseMode
