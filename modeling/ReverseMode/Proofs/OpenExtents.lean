import Mathlib.Algebra.BigOperators.Group.List.Basic
import Mathlib.Data.List.Forall2
import ReverseMode.Proofs.Rearrangement

/-!
Which requested shapes stand for a shape.

A request leaves at most one extent open, and what goes there is settled by the number of elements:
the extents that are asked for have to be at least one, and their product times the open one is
that number (`Resolvable`). `Resolves` says which shape a request stands for, without a division.
Resolving answers exactly the requests that are resolvable, and with the only shape they stand for.
An array is viewed in the shape that its node has been given, as long as an array can have so many
axes.
-/

namespace ReverseMode

namespace Shape

/-- A request that can be met by so many elements. -/
structure Resolvable (requested : List Int) (elements : Int) : Prop where
  single : requested.count (-1) ≤ 1
  positive : ∀ e ∈ requested, e ≠ -1 → 1 ≤ e
  fills : ∃ extent : Int, (requested.replace (-1) extent).prod = elements

/-- A shape of so many elements that has the extents of a request, apart from those left open. -/
structure Resolves (requested : List Int) (elements : Int) (s : Shape) : Prop where
  agrees : List.Forall₂ (fun (e : Int) (extent : Nat) => e ≠ -1 → extent = e) requested s.extents
  elements : ((s.extents.prod : Nat) : Int) = elements

variable {requested : List Int} {elements extent : Int} {text : String} {s s' : Shape}

/-! ### Filling in the open extent -/

theorem openCount_eq : openCount requested = requested.count (-1) :=
  List.countP_eq_length_filter.symm

theorem prod_extents : (s.extents.map Int.ofNat).prod = ((s.extents.prod : Nat) : Int) :=
  (Nat.cast_list_prod s.extents).symm

/-- Without an open extent nothing is filled in. -/
theorem fillOpen_closed (closed : requested.count (-1) = 0) :
    fillOpen requested extent = requested := by
  refine (List.map_congr_left fun e mem => ?_).trans (List.map_id requested)
  exact if_neg fun same : e = -1 => List.count_eq_zero.mp closed (same ▸ mem)

/-- A single open extent is the first one. -/
theorem replace_eq_fillOpen (single : requested.count (-1) ≤ 1) :
    requested.replace (-1) extent = fillOpen requested extent := by
  induction requested with
  | nil => rfl
  | cons e rest ih =>
    by_cases left : e = -1
    · subst left
      have closed : rest.count (-1) = 0 := by simpa using single
      rw [List.replace_cons_self]
      exact congrArg (extent :: ·) (fillOpen_closed closed).symm
    · have other : (-1 == e) = false := beq_false_of_ne (Ne.symm left)
      rw [List.count_cons_of_ne left] at single
      rw [List.replace_cons, other, ih single]
      exact congrArg (· :: _) (if_neg left).symm

theorem knownVolume_cons {e : Int} (asked : e ≠ -1) :
    knownVolume (e :: requested) = e * knownVolume requested := by
  simp [knownVolume, asked]

/-- Each open extent counts once, the others by their product. -/
theorem prod_fillOpen :
    (fillOpen requested extent).prod = extent ^ requested.count (-1) * knownVolume requested := by
  induction requested with
  | nil => simp [fillOpen, knownVolume]
  | cons e rest ih =>
    by_cases left : e = -1
    · subst left
      rw [List.count_cons_self, pow_succ']
      have known : knownVolume (-1 :: rest) = knownVolume rest := rfl
      rw [known, mul_assoc, ← ih]
      rfl
    · rw [List.count_cons_of_ne left]
      have filled : fillOpen (e :: rest) extent = e :: fillOpen rest extent :=
        congrArg (· :: _) (if_neg left)
      rw [knownVolume_cons left, filled, List.prod_cons, ih, mul_left_comm]

/-- The extents that are asked for have a positive product. -/
theorem knownVolume_pos (positive : ∀ e ∈ requested, e ≠ -1 → 1 ≤ e) :
    1 ≤ knownVolume requested := by
  induction requested with
  | nil => exact le_rfl
  | cons e rest ih =>
    obtain ⟨here, later⟩ := List.forall_mem_cons.mp positive
    by_cases left : e = -1
    · subst left
      exact ih later
    · rw [knownVolume_cons left]
      exact one_le_mul_of_one_le_of_one_le (here left) (ih later)

/-! ### Dividing for it -/

/-- A request is filled in if it leaves at most one extent open, and the product of the others
divides the number of elements. -/
theorem filled_eq_ok {extents : List Int} :
    filled requested text (some elements) = .ok extents ↔
      requested.count (-1) ≤ 1 ∧
      (requested.count (-1) = 1 → 1 ≤ knownVolume requested ∧ knownVolume requested ∣ elements) ∧
      extents = fillOpen requested (elements / knownVolume requested) := by
  unfold filled
  dsimp only
  rw [openCount_eq]
  split
  next several => exact ⟨nofun, fun ⟨single, _⟩ => absurd several (Nat.not_lt.mpr single)⟩
  next single =>
    rw [Nat.not_lt] at single
    split
    next closed =>
      rw [fillOpen_closed closed, Except.ok.injEq, eq_comm]
      exact ⟨fun same => ⟨single, by omega, same⟩, fun ⟨_, _, same⟩ => same⟩
    next left =>
      have one : requested.count (-1) = 1 := by omega
      split
      next unfit =>
        refine ⟨nofun, fun ⟨_, divides, _⟩ => ?_⟩
        obtain ⟨positive, divides⟩ := divides one
        exact unfit.elim (fun small => absurd positive (Int.not_le.mpr small))
          (fun rest => absurd (Int.emod_eq_zero_of_dvd divides) rest)
      next fit =>
        rw [Except.ok.injEq, eq_comm]
        refine ⟨fun same => ⟨single, fun _ => ⟨?_, ?_⟩, same⟩, fun ⟨_, _, same⟩ => same⟩
        · exact Int.not_lt.mp fun small => fit (.inl small)
        · exact Int.dvd_of_emod_eq_zero (not_not.mp fun rest => fit (.inr rest))

/-- A request stands for the shape of what is filled in, if that has so many elements. -/
theorem resolve_eq_ok : resolve requested elements = .ok s ↔
    filled requested (toString elements) (some elements) = .ok (s.extents.map Int.ofNat) ∧
      ((s.extents.prod : Nat) : Int) = elements := by
  constructor
  · intro resolved
    obtain ⟨extents, filled, resolved⟩ := bind_eq_ok.mp resolved
    obtain ⟨made, shaped, resolved⟩ := bind_eq_ok.mp resolved
    split at resolved
    next same =>
      cases pure_eq_ok.mp resolved
      exact ⟨ofInts_eq_ok.mp shaped ▸ filled, (Option.some.inj same).symm⟩
    · cases resolved
  · rintro ⟨filled, size⟩
    refine bind_eq_ok.mpr ⟨_, filled, bind_eq_ok.mpr ⟨s, ofInts_eq_ok.mpr rfl, ?_⟩⟩
    exact if_pos (congrArg some size.symm)

theorem ofInts_refusal {extents : List Int} {f : Fault} (refused : ofInts extents = .error f) :
    f.kind = .shape := by
  unfold ofInts at refused
  split at refused <;> cases refused
  rfl

theorem filled_refusal {f : Fault} (refused : filled requested text (some elements) = .error f) :
    f.kind = .shape := by
  unfold filled at refused
  dsimp only at refused
  split at refused
  · cases refused
    rfl
  · split at refused
    · cases refused
    · split at refused <;> cases refused
      rfl

/-- Every refusal of a request is about its shape. -/
theorem resolve_refusal {f : Fault} (refused : resolve requested elements = .error f) :
    f.kind = .shape := by
  rcases bind_eq_error.mp refused with unfilled | ⟨extents, _, refused⟩
  · exact filled_refusal unfilled
  · rcases bind_eq_error.mp refused with unshaped | ⟨made, _, refused⟩
    · exact ofInts_refusal unshaped
    · split at refused <;> cases refused
      rfl

/-! ### The shape that a request stands for -/

/-- Extents that agree with a request fill in its open extent. -/
theorem Resolves.fillsOpen (resolves : Resolves requested elements s)
    (single : requested.count (-1) ≤ 1) :
    ∃ extent, s.extents.map Int.ofNat = fillOpen requested extent := by
  obtain ⟨agrees, -⟩ := resolves
  generalize s.extents = extents at agrees
  induction agrees with
  | nil => exact ⟨0, rfl⟩
  | @cons e n rest extents here later ih =>
    by_cases left : e = -1
    · subst left
      have closed : rest.count (-1) = 0 := by simpa using single
      obtain ⟨extent, same⟩ := ih (by omega)
      rw [fillOpen_closed closed] at same
      exact ⟨n, congrArg (Int.ofNat n :: ·) (same.trans (fillOpen_closed closed).symm)⟩
    · rw [List.count_cons_of_ne left] at single
      obtain ⟨extent, same⟩ := ih single
      refine ⟨extent, ?_⟩
      rw [List.map_cons, same]
      exact congrArg (· :: _) ((here left).trans (if_neg left).symm)

/-- What is filled in agrees with the request. -/
theorem agrees_of_fillOpen (same : s.extents.map Int.ofNat = fillOpen requested extent) :
    List.Forall₂ (fun (e : Int) (n : Nat) => e ≠ -1 → n = e) requested s.extents := by
  have filled : List.Forall₂ (fun e (n : Int) => e ≠ -1 → n = e) requested
      (fillOpen requested extent) :=
    List.forall₂_map_right_iff.mpr (List.forall₂_same.mpr fun e _ asked => if_neg asked)
  rw [← same, List.forall₂_map_right_iff] at filled
  exact filled

/-- A request stands for a shape if it is resolvable, and the shape has the extents asked for. -/
theorem resolve_iff : resolve requested elements = .ok s ↔
    Resolvable requested elements ∧ Resolves requested elements s := by
  rw [resolve_eq_ok, filled_eq_ok]
  constructor
  · rintro ⟨⟨single, divides, same⟩, size⟩
    refine ⟨⟨single, fun e mem asked => ?_, elements / knownVolume requested, ?_⟩,
      agrees_of_fillOpen same, size⟩
    · have held : e ∈ s.extents.map Int.ofNat := same ▸ List.mem_map.mpr ⟨e, mem, if_neg asked⟩
      obtain ⟨n, inside, rfl⟩ := List.mem_map.mp held
      exact Int.ofNat_le.mpr (s.positive n inside)
    · rw [replace_eq_fillOpen single, ← same, prod_extents, size]
  · rintro ⟨resolvable, resolves⟩
    obtain ⟨extent, same⟩ := resolves.fillsOpen resolvable.single
    have size : (fillOpen requested extent).prod = elements := by
      rw [← same, prod_extents, resolves.elements]
    rw [prod_fillOpen] at size
    have known := knownVolume_pos resolvable.positive
    refine ⟨⟨resolvable.single, fun one => ⟨known, ?_⟩, ?_⟩, resolves.elements⟩
    · rw [one, pow_one] at size
      exact ⟨extent, by rw [← size, mul_comm]⟩
    · rcases Nat.le_one_iff_eq_zero_or_eq_one.mp resolvable.single with closed | one
      · rw [same, fillOpen_closed closed, fillOpen_closed closed]
      · rw [one, pow_one] at size
        rw [same, ← size, Int.mul_ediv_cancel _ (by omega)]

/-- Extents that are at least one are those of a shape. -/
theorem exists_of_positive {extents : List Int} (positive : ∀ e ∈ extents, 1 ≤ e) :
    ∃ s : Shape, s.extents.map Int.ofNat = extents := by
  refine ⟨⟨extents.map Int.toNat, fun n mem => ?_⟩, ?_⟩
  · obtain ⟨e, inside, rfl⟩ := List.mem_map.mp mem
    have := positive e inside
    omega
  · rw [List.map_map]
    refine (List.map_congr_left fun e mem => ?_).trans (List.map_id extents)
    have := positive e mem
    exact Int.toNat_of_nonneg (by omega)

/-- A resolvable request stands for a shape. -/
theorem Resolvable.resolves (resolvable : Resolvable requested elements) (some : 1 ≤ elements) :
    ∃ s, Resolves requested elements s := by
  obtain ⟨single, positive, extent, size⟩ := resolvable
  rw [replace_eq_fillOpen single] at size
  have volume : (fillOpen requested extent).prod = _ := prod_fillOpen
  rw [size] at volume
  have known := knownVolume_pos positive
  have all : ∀ e ∈ fillOpen requested extent, 1 ≤ e := by
    intro e mem
    obtain ⟨asked, inside, rfl⟩ := List.mem_map.mp mem
    split
    next left =>
      have one : requested.count (-1) = 1 :=
        le_antisymm single (List.count_pos_iff.mpr (left ▸ inside))
      rw [one, pow_one] at volume
      exact pos_of_mul_pos_left (volume ▸ some) (Int.le_trans Int.one_nonneg known)
    next other => exact positive asked inside other
  obtain ⟨s, same⟩ := exists_of_positive all
  exact ⟨s, agrees_of_fillOpen same, by rw [← prod_extents, same, size]⟩

/-- A shape stands for itself. -/
theorem resolves_self (size : ((s.extents.prod : Nat) : Int) = elements) :
    Resolvable (s.extents.map Int.ofNat) elements ∧
      Resolves (s.extents.map Int.ofNat) elements s := by
  have positive : ∀ e ∈ s.extents.map Int.ofNat, 1 ≤ e := by
    intro e mem
    obtain ⟨n, inside, rfl⟩ := List.mem_map.mp mem
    exact Int.ofNat_le.mpr (s.positive n inside)
  have closed : (s.extents.map Int.ofNat).count (-1) = 0 :=
    List.count_eq_zero.mpr fun mem => absurd (positive _ mem) (by decide)
  refine ⟨⟨by omega, fun e mem _ => positive e mem, 1, ?_⟩, ?_, size⟩
  · rw [replace_eq_fillOpen (by omega), fillOpen_closed closed, prod_extents, size]
  · exact List.forall₂_map_left_iff.mpr (List.forall₂_same.mpr fun n _ _ => rfl)

/-! ### Divisions that can fail -/

/-- A quotient and its rest; there is none by zero. -/
def divided (n d : Int) : Except Fault (Int × Int) :=
  if d = 0 then .error (.plain .zeroDivision) else .ok (n / d, n % d)

/-- The request with its open extent filled in by a division that can fail. -/
def filledDividing (requested : List Int) (text : String) (elements : Int) :
    Except Fault (List Int) := do
  let known := knownVolume requested
  if 1 < openCount requested then throw (.severalUnknown requested)
  if openCount requested = 0 then return requested
  if known < 1 then throw (.cannotReshape text requested)
  let (quotient, rest) ← divided elements known
  if rest ≠ 0 then throw (.cannotReshape text requested)
  return fillOpen requested quotient

/-- No division is by zero. -/
theorem filledDividing_eq :
    filledDividing requested text elements = filled requested text (some elements) := by
  unfold filledDividing filled
  dsimp only
  by_cases several : 1 < openCount requested
  · rw [if_pos several, if_pos several]
    rfl
  · rw [if_neg several, if_neg several]
    by_cases closed : openCount requested = 0
    · rw [if_pos closed, if_pos closed]
      rfl
    · rw [if_neg closed, if_neg closed]
      by_cases small : knownVolume requested < 1
      · rw [if_pos small, if_pos (.inl small)]
        rfl
      · rw [if_neg small, divided, if_neg (by omega)]
        by_cases exact : elements % knownVolume requested = 0
        · rw [if_neg (not_or.mpr ⟨small, not_not.mpr exact⟩)]
          exact if_neg (not_not.mpr exact)
        · rw [if_pos (.inr exact)]
          exact if_pos exact

end Shape

namespace Operator

variable {α : Type} {requested : List Int} {a : Signature} {t : Tensor α}

/-! ### Views under a request -/

/-- The rule of a view and the view of an array refuse a request for the same reason, or the array
keeps its elements under the extents of the rule, unless these are too many for an array. -/
structure ViewAgrees (requested : List Int) (a : Signature) (t : Tensor α) : Prop where
  resolved : ∀ s, (reshape requested : Operator α).infer [a] = .ok s ↔
    s.type = a.type ∧ Shape.resolve requested a.shape.elements = .ok s.shape
  refused : ∀ f, (reshape requested : Operator α).infer [a] = .error f →
    (reshape requested).viewOf [t] = .error f
  shown : ∀ s, (reshape requested : Operator α).infer [a] = .ok s → s.shape.rank ≤ mostAxes →
    ∃ y, (reshape requested).viewOf [t] = .ok y ∧ y.shape = s.shape.extents ∧ y.data = t.data
  crowded : ∀ s, (reshape requested : Operator α).infer [a] = .ok s → mostAxes < s.shape.rank →
    (reshape requested).viewOf [t] = .error .value

theorem viewAgrees (same : t.shape = a.shape.extents) : ViewAgrees requested a t := by
  have size : t.size = a.shape.elements := t.size_eq.trans (congrArg volume same)
  have inferred : (reshape requested : Operator α).infer [a] =
      Shape.resolve requested a.shape.elements >>= fun shape => pure ⟨shape, a.type⟩ := rfl
  have viewed : (reshape requested).viewOf [t] =
      Shape.resolve requested a.shape.elements >>= fun target =>
        checkRank target.rank >>= fun _ => t.reshape target.extents := by
    rw [← size]
    rfl
  have resolved (s : Signature) : (reshape requested : Operator α).infer [a] = .ok s ↔
      s.type = a.type ∧ Shape.resolve requested a.shape.elements = .ok s.shape := by
    rw [inferred, bind_eq_ok]
    constructor
    · rintro ⟨shape, resolved, made⟩
      cases pure_eq_ok.mp made
      exact ⟨rfl, resolved⟩
    · rintro ⟨type, resolved⟩
      exact ⟨s.shape, resolved, pure_eq_ok.mpr (type ▸ rfl)⟩
  refine ⟨resolved, fun f refused => ?_, fun s accepted few => ?_, fun s accepted many => ?_⟩
  · rw [inferred, bind_eq_error] at refused
    rw [viewed, bind_eq_error]
    exact .inl (refused.resolve_right fun ⟨_, _, never⟩ => nomatch never)
  · obtain ⟨-, accepted⟩ := (resolved s).mp accepted
    have volumes : volume t.shape = volume s.shape.extents :=
      (congrArg volume same).trans (elements_of_resolve accepted).symm
    refine ⟨⟨s.shape.extents, t.data, t.size_eq.trans volumes⟩, ?_, rfl, rfl⟩
    rw [viewed, accepted]
    change (checkRank s.shape.rank >>= fun _ => t.reshape s.shape.extents) = _
    rw [checkRank, if_neg (Nat.not_lt.mpr few)]
    exact dif_pos volumes
  · obtain ⟨-, accepted⟩ := (resolved s).mp accepted
    rw [viewed, accepted]
    change (checkRank s.shape.rank >>= fun _ => t.reshape s.shape.extents) = _
    rw [checkRank, if_pos many]
    rfl

end Operator

namespace Shape

variable {requested : List Int} {elements : Int}

/-- Exactly the resolvable requests are resolved, each to the only shape that it stands for, and
every other one is refused for its shape, without a division by zero. A shape that was resolved
stands for itself. Rules and views resolve a request alike; a view has no more than `mostAxes`
axes. -/
theorem resolve_exactly (some : 1 ≤ elements) :
    ((∃ s, resolve requested elements = .ok s) ↔ Resolvable requested elements) ∧
    (∀ s, resolve requested elements = .ok s → Resolves requested elements s ∧
      (∀ s', Resolves requested elements s' → s' = s) ∧
      resolve (s.extents.map Int.ofNat) elements = .ok s) ∧
    (¬Resolvable requested elements →
      ∃ f, resolve requested elements = .error f ∧ f.kind = .shape) ∧
    filledDividing requested (toString elements) elements =
      filled requested (toString elements) (Option.some elements) ∧
    ∀ {α : Type} (a : Signature) (t : Tensor α), t.shape = a.shape.extents →
      Operator.ViewAgrees requested a t := by
  refine ⟨⟨?_, ?_⟩, fun s resolved => ?_, fun unresolvable => ?_, filledDividing_eq,
    fun a t same => Operator.viewAgrees same⟩
  · rintro ⟨s, resolved⟩
    exact (resolve_iff.mp resolved).1
  · intro resolvable
    obtain ⟨s, resolves⟩ := resolvable.resolves some
    exact ⟨s, resolve_iff.mpr ⟨resolvable, resolves⟩⟩
  · obtain ⟨resolvable, resolves⟩ := resolve_iff.mp resolved
    refine ⟨resolves, fun s' resolves' => ?_, resolve_iff.mpr (resolves_self resolves.elements)⟩
    exact Except.ok.inj ((resolve_iff.mpr ⟨resolvable, resolves'⟩).symm.trans resolved)
  · cases refused : resolve requested elements with
    | error f => exact ⟨f, rfl, resolve_refusal refused⟩
    | ok s => exact absurd (resolve_iff.mp refused).1 unresolvable

end Shape

namespace Sample

open Shape Operator

/-- Twelve elements in rows of six are two rows; a row cannot be asked for with no element, nor two
of negative lengths. -/
theorem rows_of_six :
    (1 : Int) ≤ 12 ∧ Shape.resolve [-1, 6] 12 = .ok ⟨[2, 6], by decide⟩ ∧
    Resolves [-1, 6] 12 ⟨[2, 6], by decide⟩ ∧
    Shape.resolve [2, 6] 12 = .ok ⟨[2, 6], by decide⟩ ∧
    (∃ f, Shape.resolve [-1, 0] 12 = .error f ∧ f.kind = .shape) ∧
    ∃ f, Shape.resolve [-1, -2, -3] 12 = .error f ∧ f.kind = .shape := by
  have resolved : Shape.resolve [-1, 6] 12 = .ok ⟨[2, 6], by decide⟩ := by decide
  obtain ⟨resolves, -, again⟩ := (Shape.resolve_exactly (by decide)).2.1 _ resolved
  refine ⟨by decide, resolved, resolves, again, ?_, ?_⟩
  · refine (Shape.resolve_exactly (by decide)).2.2.1 fun resolvable => ?_
    exact absurd (resolvable.positive 0 (by simp) (by decide)) (by decide)
  · refine (Shape.resolve_exactly (by decide)).2.2.1 fun resolvable => ?_
    exact absurd (resolvable.positive (-2) (by simp) (by decide)) (by decide)

/-- Under more axes than an array can have, a request with an open extent is resolved, and the rule
accepts it, but there is no view. -/
theorem crowded_request :
    Resolvable (-1 :: List.replicate 64 1) 1 ∧
    (reshape (-1 :: List.replicate 64 1) : Operator Int).infer
      [⟨.vector 1 Nat.one_pos, .float64⟩] = .ok ⟨⟨List.replicate 65 1, by decide⟩, .float64⟩ ∧
    (reshape (-1 :: List.replicate 64 1) : Operator Int).viewOf [.full [1] 5] =
      .error .value := by
  refine ⟨⟨by decide, by decide, 1, by decide⟩, rfl, rfl⟩

end Sample

end ReverseMode
