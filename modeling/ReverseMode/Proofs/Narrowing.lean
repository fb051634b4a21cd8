import ReverseMode.Proofs.Slicing
import ReverseMode.Proofs.TopEntries

/-!
Windows of an axis that are asked for by their length.

A window of some length from a start on is the slice from the start to the start plus the length.
That is the window itself where both of its ends are counted from the same end of the axis and lie
on it (`Covered`). Anywhere else the slice is shorter: it is cut off at an end of the axis, or its
ends are counted from different ends. An empty one is refused, another one is answered as it is.
-/

namespace ReverseMode

open scoped Scalar

/-! ### Windows as slices -/

namespace Selection

variable {start length : Int} {extent : Nat}

/-- The places from a start on that are counted from the same end of an axis and lie on it. -/
def Covered (extent : Nat) (start length : Int) : Prop :=
  0 ≤ start ∧ start + length ≤ extent ∨ -(extent : Int) ≤ start ∧ start + length < 0

/-- The slice from a start to the start plus a length. -/
def window (extent : Nat) (start length : Int) : List Nat :=
  sliced (some start) (some (start + length)) none extent

theorem window_eq (extent : Nat) (start length : Int) : window extent start length =
    (List.range (clip 0 extent extent (start + length) - clip 0 extent extent start).toNat).map
      fun (j : Nat) => (clip 0 extent extent start + j).toNat := by
  have steps : stepCount (clip 0 extent extent start) (clip 0 extent extent (start + length)) 1 =
      (clip 0 extent extent (start + length) - clip 0 extent extent start).toNat := by
    simp [stepCount]
  have places : rangePlaces (some start) (some (start + length)) none extent =
      .ok (window extent start length) := rangePlaces_eq_sliced (by decide)
  refine Except.ok.inj (places.symm.trans ?_)
  have one : (0 : Int) < 1 := Int.one_pos
  unfold rangePlaces
  simp only [Option.getD_none, one_ne_zero, if_false, one, if_true, Option.map_some,
    Option.getD_some, steps, mul_one]

/-- Where the places from the start on are there, the window is made of them. -/
theorem window_covered (covered : Covered extent start length) (some : 1 ≤ length) :
    window extent start length =
      (List.range length.toNat).map fun (j : Nat) => (counted extent start + j).toNat := by
  have first : clip 0 extent extent start = counted extent start := by
    unfold clip counted
    unfold Covered at covered
    dsimp only
    omega
  have width : clip 0 extent extent (start + length) - clip 0 extent extent start = length := by
    unfold clip
    unfold Covered at covered
    dsimp only
    omega
  rw [window_eq, width, first]

/-- Anywhere else the window is shorter. -/
theorem window_short (uncovered : ¬Covered extent start length) (some : 1 ≤ length)
    (places : 0 < extent) : ((window extent start length).length : Int) < length := by
  rw [window_eq, List.length_map, List.length_range]
  unfold clip
  unfold Covered at uncovered
  dsimp only
  omega

end Selection

/-! ### Slices of nodes -/

/-- An axis is never empty, and beyond the last one its extent is one. -/
theorem Shape.extent_pos (r : Shape) (i : Nat) : 0 < r.extent i := by
  rw [Shape.extent]
  by_cases axial : i < r.extents.length
  · rw [List.getD_eq_getElem _ _ axial]
    exact r.positive _ (List.getElem_mem axial)
  · rw [List.getD_eq_default _ _ (not_lt.mp axial)]
    exact Nat.one_pos

/-- A node that shows the listed places of an axis of another one, in their order. -/
structure Node.Shows (i : Nat) (listed : List Nat) (n v : Node Scalar) : Prop where
  type : v.type = n.type
  extents : v.shape.extents = n.shape.extents.set i listed.length
  denote : ∀ leaf a, n.denote leaf = some a → a.shape = n.shape.extents →
    a.HeldIn n.type.storage → ∃ y, v.denote leaf = some y ∧ y.shape = v.shape.extents ∧
      ∀ q ∈ positions v.shape.extents, y.get q = a.get (q.set i (listed.getD (q.getD i 0) 0))

namespace Expression

open Session (Accepts)

variable {s : Session Scalar} {w : World Scalar} {n : Node Scalar} {axis : Axis} {i : Nat}
  {bounds : List Bound} {listed : List Nat}

/-- A range that fits a node is applied to it. An equal application that is found shows the same
places. -/
theorem applyOn_range (accepts : s.Accepts w n) {t : Signature}
    (inferred : (Operator.slice axis (.range bounds) : Operator Scalar).infer [n.signature] =
      .ok t) :
    ∃ st p s', applyOn n (.slice axis (.range bounds)) [.node n] s =
        .ok (.node (.apply st p [n])) s' ∧ (⟨st.shape, st.type⟩ : Signature) = t ∧
      (Operator.slice axis (.range bounds)).Agree p [n.signature] := by
  have others : ∀ m ∈ [n], s.Accepts w m := by simpa using accepts
  obtain ⟨a, s', ran, _⟩ := applyOn_answers (.slice axis (.range bounds)) [n] accepts others
    inferred
  obtain ⟨st, p, rfl, inferred', alike, _⟩ := applyOn_alike [n] rfl accepts others ran
  refine ⟨st, p, s', ran, ?_⟩
  rcases alike with rfl | ⟨_, blank, parameters | differ⟩
  · exact ⟨Except.ok.inj (inferred'.symm.trans inferred), .refl _ _⟩
  · cases p with
    | slice axis' selection =>
      obtain ⟨place, rest⟩ := List.cons.inj parameters
      obtain ⟨same, agree⟩ := Operator.agree_slice (Operator.resolve_of_parameter place)
        (List.cons.inj rest).1 inferred inferred'
      exact ⟨same.symm, agree⟩
    | _ => cases blank
  · -- a key of a range holds no real number, so there are no zeros to differ
    obtain ⟨pair, mem, x, _, real, _⟩ := differ
    have listed := (List.of_mem_zip mem).1
    rw [real] at listed
    have apart : Operator.axisParameter axis ≠ .real x := by
      unfold Operator.axisParameter
      split <;> nofun
    simp [Operator.parameters, Operator.selectionParameter, apart.symm] at listed

/-- What an operator shows of a node, so does an application that agrees with it. -/
theorem shows_of_slices {op p : Operator Scalar} {t : Signature} {st : Stamp}
    (slices : op.Slices n.signature t i listed) (view : op.isView = false)
    (agree : op.Agree p [n.signature]) (same : (⟨st.shape, st.type⟩ : Signature) = t) :
    n.Shows i listed (.apply st p [n]) := by
  subst same
  refine ⟨slices.type, slices.extents, fun leaf a value shape held => ?_⟩
  obtain ⟨y, made, extents, shown⟩ := slices.shows a shape held
  refine ⟨y, Node.denote_apply_eq_some.mpr ⟨[a], by simp [Yields, value], ?_⟩, extents, shown⟩
  rw [Operator.result, ← agree.isView, view]
  exact (agree.forward _ _ [a] (by simp [shape, Node.signature])).symm.trans made

/-! ### Windows of nodes -/

/-- A window of a node by the name of its function. -/
def narrowed (axis : Argument Scalar) (start length : Int) (n : Node Scalar) :
    SessionM Scalar (Argument Scalar) :=
  Expression.call "narrow" ⟨[.node n, axis, .int start, .int length], []⟩

/-- A window is a slice to the sum of its start and its length. -/
theorem narrowed_eq (axis : Argument Scalar) (start length : Int) (n : Node Scalar) :
    ∃ bounds, narrowed axis start length n =
        applyOn n (.slice axis.toAxis (.range bounds)) [.node n] ∧
      Selection.Reads bounds (some start) (some (start + length)) none :=
  ⟨[(Argument.int start : Argument Scalar).toBound,
    (Argument.int (start + length) : Argument Scalar).toBound, .leftOut], rfl,
    _, _, _, rfl, rfl, rfl, rfl⟩

/-- An empty window is refused for its shape. -/
theorem narrowed_empty (accepts : s.Accepts w n) {axis : Argument Scalar} {start length : Int}
    (resolved : axis.toAxis.resolve n.shape.rank = .ok i)
    (empty : Selection.window (n.shape.extent i) start length = []) :
    ∃ f s', narrowed axis start length n s = .error f s' ∧ f.kind = .shape := by
  obtain ⟨bounds, same, reads⟩ := narrowed_eq axis start length n
  obtain ⟨f, refused, kind⟩ :=
    (Selection.places_range_eq reads (by simp) axis.toAxis (n.shape.extent i)).2 empty
  have refused : (Operator.slice axis.toAxis (.range bounds) : Operator Scalar).infer
      ([n].map Node.signature) = .error f :=
    Operator.slice_refused (a := n.signature) resolved refused
  obtain ⟨s', raised⟩ := applyOn_refused _ [n] accepts (by simpa using accepts) refused
  exact ⟨f, s', same ▸ raised, kind⟩

/-- A window that is not empty is answered with a node that shows it. -/
theorem narrowed_shows (accepts : s.Accepts w n) {axis : Argument Scalar} {start length : Int}
    (resolved : axis.toAxis.resolve n.shape.rank = .ok i)
    (some : Selection.window (n.shape.extent i) start length ≠ []) :
    ∃ v s', narrowed axis start length n s = .ok (.node v) s' ∧
      n.Shows i (Selection.window (n.shape.extent i) start length) v := by
  obtain ⟨bounds, same, reads⟩ := narrowed_eq axis start length n
  have selected :=
    (Selection.places_range_eq reads (by simp) axis.toAxis (n.shape.extent i)).1 some
  obtain ⟨t, slices⟩ := Operator.slices_of_places (a := n.signature) resolved selected some
  obtain ⟨st, p, s', ran, is, agree⟩ := applyOn_range accepts slices.inferred
  exact ⟨_, s', same ▸ ran, shows_of_slices slices rfl agree is⟩

/-- A window of a node is refused for its shape, or it shows as many places as it has been asked
for, from the start on, wherever they are counted from one end of the axis and lie on it. Elsewhere
it shows fewer places, those of the slice. -/
theorem narrow_length (accepts : s.Accepts w n) (axis : Argument Scalar)
    (resolved : axis.toAxis.resolve n.shape.rank = .ok i) (start : Int) {length : Int}
    (some : 1 ≤ length) :
    (Selection.window (n.shape.extent i) start length = [] →
      ∃ f s', narrowed axis start length n s = .error f s' ∧ f.kind = .shape) ∧
    (Selection.window (n.shape.extent i) start length ≠ [] →
      ∃ v s', narrowed axis start length n s = .ok (.node v) s' ∧
        n.Shows i (Selection.window (n.shape.extent i) start length) v) ∧
    (Selection.Covered (n.shape.extent i) start length →
      Selection.window (n.shape.extent i) start length = (List.range length.toNat).map
        fun (j : Nat) => (Selection.counted (n.shape.extent i) start + j).toNat) ∧
    (¬Selection.Covered (n.shape.extent i) start length →
      ((Selection.window (n.shape.extent i) start length).length : Int) < length) := by
  have places : 0 < n.shape.extent i := n.shape.extent_pos i
  exact ⟨narrowed_empty accepts resolved, narrowed_shows accepts resolved,
    fun covered => Selection.window_covered covered some,
    fun uncovered => Selection.window_short uncovered some places⟩

end Expression

namespace Sample

open Expression

/-- The last two of three places, counted from the end of the axis. -/
theorem trio_window : ∃ v s', narrowed (.int 0) (-3) 2 trio lining = .ok (.node v) s' ∧
    trio.Shows 0 [0, 1] v := by
  have some : (1 : Int) ≤ 2 := by decide
  obtain ⟨-, shows, covered, -⟩ :=
    Expression.narrow_length lining_accepts (.int 0) (i := 0) rfl (-3) some
  have window : Selection.window (trio.shape.extent 0) (-3) 2 = [0, 1] :=
    covered (.inr (by decide))
  exact window ▸ shows (window ▸ by decide)

/-- Four places from the second on are asked of three, and two are answered. -/
theorem four_of_three : ∃ v s', narrowed (.int 0) 1 4 trio lining = .ok (.node v) s' ∧
    v.shape.extents = [2] := by
  have window : Selection.window (trio.shape.extent 0) 1 4 = [1, 2] := by decide
  have some : Selection.window (trio.shape.extent 0) 1 4 ≠ [] := window ▸ by decide
  have resolved : (Argument.int 0 : Argument Scalar).toAxis.resolve trio.shape.rank = .ok 0 := rfl
  obtain ⟨v, s', ran, shows⟩ := narrowed_shows lining_accepts resolved some
  refine ⟨v, s', ran, ?_⟩
  rw [shows.extents, window]
  rfl

end Sample

end ReverseMode
