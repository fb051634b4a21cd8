import ReverseMode.Proofs.Collapse

/-!
The shape that some shapes broadcast to is the least one that all of them can be read as.

Reading as a larger shape (`Fits`) is a partial order, and what some shapes broadcast to is their
least upper bound in it. Only which shapes occur matters to a least upper bound, so neither order
nor repetition does, and any of the shapes may be broadcast among themselves first. The shapes have
a bound, and with it a least one, when no axis holds two different extents other than one.
-/

namespace ReverseMode

/-! ### The order of the shapes -/

theorem ext_backExtent {s t : List Nat} (length : s.length = t.length)
    (same : ∀ j, backExtent s j = backExtent t j) : s = t := by
  refine List.ext_getElem length fun i bound bound' => ?_
  rw [← backExtent_eq bound, ← backExtent_eq bound', same, length]

namespace Fits

variable {r s t : List Nat}

theorem trans (first : Fits r s) (second : Fits s t) : Fits r t := by
  refine ⟨first.length.trans second.length, fun j => ?_⟩
  rcases first.agree j with one | same
  · exact .inl one
  · rw [same]
    exact second.agree j

theorem antisymm (there : Fits s t) (back : Fits t s) : s = t := by
  refine ext_backExtent (le_antisymm there.length back.length) fun j => ?_
  rcases there.agree j with one | same
  · rcases back.agree j with one' | same
    · exact one.trans one'.symm
    · exact same.symm
  · exact same

end Fits

theorem broadcastsTo_iff {s t : List Nat} : broadcastsTo s t = true ↔ Fits s t := by
  rw [broadcastsTo, decide_eq_true_eq]
  exact ⟨fun joined => .of_broadcast joined (by simp), Fits.broadcast⟩

/-! ### The least bound -/

section Extents

variable {shapes : List (List Nat)} {r t : List Nat}

/-- Extents have a common one if any two of them other than one are the same. -/
theorem joinExtents_exists {extents : List Nat} : (∃ e, joinExtents extents = some e) ↔
    ∀ x ∈ extents, ∀ y ∈ extents, x ≠ 1 → y ≠ 1 → x = y := by
  simp only [joinExtents_eq_some]
  constructor
  · rintro ⟨e, all, -⟩ x inside y inside' wide wide'
    exact ((all x inside).resolve_left wide).trans ((all y inside').resolve_left wide').symm
  · intro agree
    by_cases ones : ∀ x ∈ extents, x = 1
    · exact ⟨1, fun x inside => .inl (ones x inside), .inl rfl⟩
    · push Not at ones
      obtain ⟨e, inside, wide⟩ := ones
      refine ⟨e, fun x inside' => ?_, .inr inside⟩
      exact or_iff_not_imp_left.mpr fun wide' => agree x inside' e inside wide' wide

/-- Shapes broadcast if no axis holds two different extents other than one. -/
theorem broadcast?_exists : (∃ r, broadcast? shapes = some r) ↔
    ∀ j, ∀ s ∈ shapes, ∀ t ∈ shapes, backExtent s j ≠ 1 → backExtent t j ≠ 1 →
      backExtent s j = backExtent t j := by
  constructor
  · rintro ⟨r, joined⟩ j s inside t inside'
    exact joinExtents_exists.mp ⟨_, (broadcast?_eq_some.mp joined).2 j⟩ _
      (List.mem_map_of_mem inside) _ (List.mem_map_of_mem inside')
  · intro agree
    have each : ∀ j, ∃ e, joinExtents (shapes.map (backExtent · j)) = some e := by
      refine fun j => joinExtents_exists.mpr ?_
      simpa only [List.forall_mem_map] using agree j
    choose extent joins using each
    refine ⟨(List.range (maxRank shapes)).map fun i => extent (maxRank shapes - 1 - i), ?_⟩
    rw [broadcast?, mapM_eq_some, List.map_map]
    refine List.map_congr_left fun i mem => ?_
    rw [column_eq shapes (List.mem_range.mp mem)]
    exact joins _

/-- What some shapes broadcast to fits wherever all of them fit, and nowhere else. -/
theorem fits_iff_of_broadcast (joined : broadcast? shapes = some r) :
    Fits r t ↔ ∀ s ∈ shapes, Fits s t := by
  refine ⟨fun fits s inside => (Fits.of_broadcast joined inside).trans fits, fun bound => ?_⟩
  obtain ⟨rank, joins⟩ := broadcast?_eq_some.mp joined
  refine ⟨rank ▸ maxRank_le fun s inside => (bound s inside).length, fun j => ?_⟩
  rcases (joinExtents_eq_some.mp (joins j)).2 with one | mem
  · exact .inl one
  · obtain ⟨s, inside, same⟩ := List.mem_map.mp mem
    exact same ▸ (bound s inside).agree j

/-- Shapes that all fit somewhere broadcast. -/
theorem broadcast?_of_bound (bound : ∀ s ∈ shapes, Fits s t) : ∃ r, broadcast? shapes = some r := by
  refine broadcast?_exists.mpr fun j s inside s' inside' wide wide' => ?_
  exact (((bound s inside).agree j).resolve_left wide).trans
    (((bound s' inside').agree j).resolve_left wide').symm

/-- What some shapes broadcast to is their least upper bound. -/
theorem broadcast?_least :
    broadcast? shapes = some r ↔ ∀ t, Fits r t ↔ ∀ s ∈ shapes, Fits s t := by
  refine ⟨fun joined t => fits_iff_of_broadcast joined, fun least => ?_⟩
  have bound := (least r).mp (.refl r)
  obtain ⟨r', joined⟩ := broadcast?_of_bound bound
  have below : Fits r' r := (fits_iff_of_broadcast joined).mpr bound
  have above : Fits r r' := (least r').mpr fun s inside => .of_broadcast joined inside
  rw [joined, below.antisymm above]

end Extents

/-! ### Shapes -/

namespace Shape

variable {shapes : List Shape} {r : Shape}

/-- What shapes broadcast to is a shape. -/
theorem broadcast_of_some {e : List Nat} (joined : broadcast? (shapes.map extents) = some e) :
    ∃ r, broadcast shapes = .ok r := by
  have positive : ∀ x ∈ e, 0 < x := by
    intro x mem
    obtain ⟨i, bound, rfl⟩ := List.getElem_of_mem mem
    rw [← backExtent_eq bound]
    obtain one | mem := (joinExtents_eq_some.mp ((broadcast?_eq_some.mp joined).2 _)).2
    · rw [one]
      exact Nat.one_pos
    · obtain ⟨_, inside, same⟩ := List.mem_map.mp mem
      obtain ⟨s, _, rfl⟩ := List.mem_map.mp inside
      rw [← same]
      exact s.extentBack_pos _
  exact ⟨⟨e, positive⟩, broadcast_eq_ok.mpr joined⟩

/-- On no axis, counted from the end, two shapes have different extents other than one. -/
def Agree (shapes : List Shape) : Prop :=
  ∀ j, ∀ s ∈ shapes, ∀ t ∈ shapes, s.extentBack j ≠ 1 → t.extentBack j ≠ 1 →
    s.extentBack j = t.extentBack j

/-- The shape has as many axes as the shapes have at most, and on each axis, counted from the end,
their extent other than one. -/
structure Common (shapes : List Shape) (r : Shape) : Prop where
  rank : r.rank = (shapes.map Shape.rank).foldr max 0
  extent : ∀ j, ∀ s ∈ shapes, s.extentBack j ≠ 1 → r.extentBack j = s.extentBack j
  one : ∀ j, (∀ s ∈ shapes, s.extentBack j = 1) → r.extentBack j = 1

theorem broadcast_exists : (∃ r, broadcast shapes = .ok r) ↔ Agree shapes := by
  have some : (∃ r, broadcast shapes = .ok r) ↔ ∃ e, broadcast? (shapes.map extents) = some e :=
    ⟨fun ⟨_, made⟩ => ⟨_, broadcast_eq_ok.mp made⟩, fun ⟨_, joined⟩ => broadcast_of_some joined⟩
  rw [some, broadcast?_exists]
  simp only [List.forall_mem_map]
  exact Iff.rfl

theorem broadcast_common (made : broadcast shapes = .ok r) : Common shapes r := by
  obtain ⟨rank, joins⟩ := broadcast?_eq_some.mp (broadcast_eq_ok.mp made)
  refine ⟨?_, fun j s inside wide => ?_, fun j ones => ?_⟩
  · rw [maxRank, List.map_map] at rank
    exact rank
  · have either := (joinExtents_eq_some.mp (joins j)).1 _
      (List.mem_map_of_mem (List.mem_map_of_mem inside))
    exact (either.resolve_left wide).symm
  · obtain one | mem := (joinExtents_eq_some.mp (joins j)).2
    · exact one
    · obtain ⟨_, inside, same⟩ := List.mem_map.mp mem
      obtain ⟨s, member, rfl⟩ := List.mem_map.mp inside
      exact same.symm.trans (ones s member)

theorem Common.unique {r' : Shape} (first : Common shapes r) (second : Common shapes r') :
    r = r' := by
  cases r with | mk e _ =>
  cases r' with | mk e' _ =>
  rw [Shape.mk.injEq]
  refine ext_backExtent (first.rank.trans second.rank.symm) fun j => ?_
  by_cases ones : ∀ s ∈ shapes, s.extentBack j = 1
  · exact (first.one j ones).trans (second.one j ones).symm
  · push Not at ones
    obtain ⟨s, inside, wide⟩ := ones
    exact (first.extent j s inside wide).trans (second.extent j s inside wide).symm

/-- Shapes broadcast to the common shape if they agree. -/
theorem broadcast_iff : broadcast shapes = .ok r ↔ Agree shapes ∧ Common shapes r := by
  refine ⟨fun made => ⟨broadcast_exists.mp ⟨r, made⟩, broadcast_common made⟩, ?_⟩
  rintro ⟨agree, common⟩
  obtain ⟨r', made⟩ := broadcast_exists.mpr agree
  rw [made, (broadcast_common made).unique common]

/-- Shapes that do not broadcast are named in the fault. -/
theorem broadcast_refused (apart : ¬ Agree shapes) :
    broadcast shapes = .error (.incompatible (shapes.map extents)) := by
  unfold broadcast
  dsimp only
  cases joined : broadcast? (shapes.map extents) with
  | none => rfl
  | some e => exact absurd (broadcast_exists.mp (broadcast_of_some joined)) apart

theorem broadcast_error {f : Fault} (refused : broadcast shapes = .error f) :
    f = .incompatible (shapes.map extents) := by
  have apart : ¬ Agree shapes := fun agree => by
    obtain ⟨r, made⟩ := broadcast_exists.mpr agree
    cases made.symm.trans refused
  exact Except.error.inj (refused.symm.trans (broadcast_refused apart))

/-! ### Order and grouping -/

theorem broadcast_least : broadcast shapes = .ok r ↔
    ∀ t, Fits r.extents t ↔ ∀ s ∈ shapes, Fits s.extents t := by
  rw [broadcast_eq_ok, broadcast?_least]
  simp only [List.forall_mem_map]

/-- Shapes with the same bounds broadcast to the same. -/
theorem broadcast_congr {shapes' : List Shape}
    (same : ∀ t, (∀ s ∈ shapes, Fits s.extents t) ↔ ∀ s ∈ shapes', Fits s.extents t) :
    broadcast shapes = .ok r ↔ broadcast shapes' = .ok r := by
  rw [broadcast_least, broadcast_least]
  exact forall_congr' fun t => iff_congr Iff.rfl (same t)

/-- Some of the shapes are replaced by what they broadcast to; order and repetition are free. -/
inductive Regroups : List Shape → List Shape → Prop
  | part {shapes part rest next : List Shape} {g : Shape} (made : broadcast part = .ok g)
      (before : ∀ s, s ∈ shapes ↔ s ∈ part ∨ s ∈ rest) (after : ∀ s, s ∈ next ↔ s = g ∨ s ∈ rest) :
      Regroups shapes next

theorem Regroups.broadcast {next : List Shape} (regroups : Regroups shapes next) :
    broadcast next = .ok r ↔ Shape.broadcast shapes = .ok r := by
  cases regroups with
  | part made before after =>
    refine broadcast_congr fun t => ?_
    simp only [before, after, or_imp, forall_and, forall_eq, broadcast_least.mp made]

/-- However often some of the shapes are broadcast first, the result is the same. -/
theorem broadcast_regrouped {next : List Shape}
    (regrouped : Relation.ReflTransGen Regroups shapes next) :
    broadcast next = .ok r ↔ broadcast shapes = .ok r := by
  induction regrouped with
  | refl => exact Iff.rfl
  | tail _ step ih => exact step.broadcast.trans ih

/-- Where every group broadcasts, the results do to the same as all shapes of the groups. -/
theorem broadcast_groups {groups : List (List Shape)} {joined : List Shape}
    (made : groups.mapM broadcast = .ok joined) :
    broadcast joined = .ok r ↔ broadcast groups.flatten = .ok r := by
  refine broadcast_congr fun t => ?_
  induction groups generalizing joined with
  | nil =>
    cases made
    simp
  | cons group groups ih =>
    rw [List.mapM_cons] at made
    obtain ⟨g, here, made⟩ := bind_eq_ok.mp made
    obtain ⟨later, there, made⟩ := bind_eq_ok.mp made
    cases pure_eq_ok.mp made
    rw [List.forall_mem_cons, ih there, broadcast_least.mp here]
    simp only [List.flatten_cons, List.mem_append, or_imp, forall_and]

theorem Agree.subset {part : List Shape} (agree : Agree shapes) (sub : part ⊆ shapes) :
    Agree part :=
  fun j s inside t inside' => agree j s (sub inside) t (sub inside')

/-- Shapes do not broadcast where some of them do not. -/
theorem broadcast_part_refused {part : List Shape} {f : Fault} (sub : part ⊆ shapes)
    (refused : broadcast part = .error f) :
    broadcast shapes = .error (.incompatible (shapes.map extents)) := by
  refine broadcast_refused fun agree => ?_
  obtain ⟨g, made⟩ := broadcast_exists.mpr (agree.subset sub)
  cases made.symm.trans refused

/-- Shapes broadcast to their least upper bound: they do where no axis holds two different extents
other than one, and then to the common extents in the largest number of axes, which each of them
can be read as and which can be read as whatever they all can; otherwise the call raises. Success
and result are the same for the shapes in any order and number, in groups that are broadcast first,
once or again and again, and with the shape without axes among them; where a group fails, so do all
shapes together. -/
theorem broadcast_least_bound (shapes : List Shape) :
    ((∃ r, broadcast shapes = .ok r) ↔ Agree shapes) ∧
    (∀ r, broadcast shapes = .ok r ↔ Agree shapes ∧ Common shapes r) ∧
    (∀ f, broadcast shapes = .error f →
      f = .incompatible (shapes.map extents) ∧ f.kind = .shape) ∧
    (∀ r, broadcast shapes = .ok r →
      (∀ s ∈ shapes, broadcastsTo s.extents r.extents) ∧
      ∀ t, broadcastsTo r.extents t ↔ ∀ s ∈ shapes, broadcastsTo s.extents t) ∧
    (∀ shapes', (∀ s, s ∈ shapes' ↔ s ∈ shapes) →
      ∀ r, broadcast shapes' = .ok r ↔ broadcast shapes = .ok r) ∧
    (∀ groups : List (List Shape), (∀ s, s ∈ groups.flatten ↔ s ∈ shapes) →
      (∀ joined, groups.mapM broadcast = .ok joined →
        ∀ r, broadcast joined = .ok r ↔ broadcast shapes = .ok r) ∧
      ∀ group ∈ groups, ∀ f, broadcast group = .error f →
        broadcast shapes = .error (.incompatible (shapes.map extents))) ∧
    (∀ next, Relation.ReflTransGen Regroups shapes next →
      ∀ r, broadcast next = .ok r ↔ broadcast shapes = .ok r) ∧
    (∀ front back, front ++ back = shapes →
      ∀ r, broadcast (front ++ scalar :: back) = .ok r ↔ broadcast shapes = .ok r) := by
  have members : ∀ shapes', (∀ s, s ∈ shapes' ↔ s ∈ shapes) →
      ∀ r, broadcast shapes' = .ok r ↔ broadcast shapes = .ok r := by
    intro shapes' same r
    refine broadcast_congr fun t => ?_
    simp only [same]
  refine ⟨broadcast_exists, fun r => broadcast_iff, ?raised, ?bound, members, ?groups,
    fun next regrouped r => broadcast_regrouped regrouped, ?neutral⟩
  case raised =>
    intro f refused
    cases broadcast_error refused
    exact ⟨rfl, rfl⟩
  case bound =>
    intro r made
    have least := broadcast_least.mp made
    simp only [broadcastsTo_iff]
    exact ⟨(least r.extents).mp (.refl _), least⟩
  case groups =>
    intro groups same
    refine ⟨fun joined made r => (broadcast_groups made).trans (members _ same r), ?_⟩
    intro group inside f refused
    refine broadcast_part_refused (fun s mem => ?_) refused
    exact (same s).mp (List.mem_flatten.mpr ⟨group, inside, mem⟩)
  case neutral =>
    rintro front back rfl r
    have after (s : Shape) : s ∈ front ++ scalar :: back ↔ s = scalar ∨ s ∈ front ++ back := by
      simp only [List.mem_append, List.mem_cons]
      exact or_left_comm
    have grown : Regroups (front ++ back) (front ++ scalar :: back) :=
      @Regroups.part _ [] (front ++ back) _ _ rfl (by simp) after
    exact grown.broadcast

end Shape

namespace Sample

theorem columnShape_extents : ∀ e ∈ [4, 1], 0 < e := by decide

def columnShape : Shape := ⟨[4, 1], columnShape_extents⟩

theorem rowShape_extents : ∀ e ∈ [1, 5], 0 < e := by decide

def rowShape : Shape := ⟨[1, 5], rowShape_extents⟩

theorem gridShape_extents : ∀ e ∈ [4, 5], 0 < e := by decide

/-- The shape that a column and a row have in common. -/
def gridShape : Shape := ⟨[4, 5], gridShape_extents⟩

/-- A column, a row and a scalar broadcast to a grid, as they do in another order and with the
column and the row first. -/
theorem column_row_scalar : Shape.broadcast [columnShape, rowShape, .scalar] = .ok gridShape ∧
    Shape.broadcast [rowShape, .scalar, columnShape] = .ok gridShape ∧
    Shape.broadcast [gridShape, .scalar] = .ok gridShape ∧
    broadcastsTo rowShape.extents gridShape.extents := by
  have made : Shape.broadcast [columnShape, rowShape, .scalar] = .ok gridShape := by decide
  obtain ⟨-, -, -, bound, order, groups, -, -⟩ :=
    Shape.broadcast_least_bound [columnShape, rowShape, .scalar]
  refine ⟨made, (order _ (by grind) gridShape).mpr made, ?_, (bound gridShape made).1 _ (by simp)⟩
  have grouped := (groups [[columnShape, rowShape], [.scalar]] (by simp)).1
  exact (grouped [gridShape, .scalar] (by decide) gridShape).mpr made

end Sample

end ReverseMode
