import ReverseMode.Proofs.Orderly
import ReverseMode.Proofs.Programs

/-!
Lookups on tapes.

Whether a node is on a tape and where it stands are both looked up by its id; the first lookup also
asks whether the node that is found is the same one. Ids are unique on one graph over all of its
episodes, so for the nodes of the graph of the tape, expired ones and parameters among them, the
lookups agree (`Session.tape_lookups`). For a node of another graph they do not: its id may stand
for another node on the tape.
-/

namespace ReverseMode

namespace Tape

variable {α : Type} {t : Tape α} {n m : Node α} {k : ℕ}

theorem getElem?_toList : t.toList[k]? = t.nodes[k]? := Array.getElem?_toList

/-- Indices count from the start, negative ones along the reversed tape. -/
theorem get?_eq (t : Tape α) (k : Int) : t.get? k =
    if 0 ≤ k then t.toList[k.toNat]? else t.toList.reverse[(-k - 1).toNat]? := by
  have length : t.toList.length = t.size := Array.length_toList
  rw [get?, Axis.wrap?]
  split
  next front =>
    split
    · exact getElem?_toList.symm
    next beyond =>
      rw [List.getElem?_eq_none (by omega)]
      rfl
  next back =>
    split
    next within =>
      rw [List.getElem?_reverse (by omega), getElem?_toList, Option.bind_some]
      congr 1
      omega
    next beyond =>
      rw [List.getElem?_eq_none (by rw [List.length_reverse]; omega)]
      rfl

end Tape

/-! ### Nodes of one graph -/

namespace Graph

variable {α : Type} {known : Node α → Prop} {g : Graph α} {n : Node α}

theorem WellFormed.known_of_getElem? (wf : WellFormed known g) {k : ℕ}
    (stands : g.tape.toList[k]? = some n) : known n :=
  wf.known_of_tape (List.mem_of_getElem? stands)

/-- An id is looked up at the place of the one node of the tape that has it. -/
theorem WellFormed.position_iff (wf : WellFormed known g) {id k : ℕ} :
    g.tape.position? id = some k ↔ ∃ m, g.tape.toList[k]? = some m ∧ m.id = id := by
  constructor
  · intro found
    obtain ⟨bound, here, _⟩ := Array.findIdx?_eq_some_iff_getElem.mp found
    exact ⟨_, List.getElem?_eq_getElem bound, of_decide_eq_true here⟩
  · rintro ⟨m, stands, rfl⟩
    exact wf.position (Tape.getElem?_toList.symm.trans stands)

/-- A node of the graph is looked up where it stands. -/
theorem WellFormed.position_known (wf : WellFormed known g) (mem : known n) {k : ℕ} :
    g.tape.position? n.id = some k ↔ g.tape.toList[k]? = some n := by
  rw [wf.position_iff]
  constructor
  · rintro ⟨m, stands, same⟩
    exact wf.unique (wf.known_of_getElem? stands) mem same ▸ stands
  · exact fun stands => ⟨n, stands, rfl⟩

/-- A node is on the tape if it stands somewhere; nodes of other graphs are not mistaken. -/
theorem WellFormed.contains_iff (wf : WellFormed known g) (home : n.graph = g.serial → known n) :
    g.tape.contains n = true ↔ ∃ k : ℕ, g.tape.toList[k]? = some n := by
  rw [Tape.contains]
  constructor
  · intro found
    cases place : g.tape.position? n.id with
    | none =>
      rw [place] at found
      cases found
    | some k =>
      obtain ⟨m, stands, same⟩ := wf.position_iff.mp place
      rw [place] at found
      dsimp only at found
      rw [← Tape.getElem?_toList, stands, Option.any_some, Node.same, Bool.and_eq_true] at found
      have mem := wf.known_of_getElem? stands
      have at' : n.graph = g.serial := (of_decide_eq_true found.1).symm.trans (wf.home mem)
      exact ⟨k, wf.unique mem (home at') same ▸ stands⟩
  · rintro ⟨k, stands⟩
    rw [(wf.position_known (wf.known_of_getElem? stands)).mpr stands]
    dsimp only
    rw [← Tape.getElem?_toList, stands, Option.any_some, Node.same]
    simp

end Graph

/-! ### Nodes of a program -/

/-- On every tape of a program and for every node that it holds: the node is on the tape exactly if
it stands at some place, and is then looked up there. What is looked up by its id is the place of
the node of the tape with that id, so a node of the graph of the tape is not found where it is not
on the tape. Length, iteration in both directions and indices are those of one list. -/
theorem Session.tape_lookups {α : Type} [Element α] {known : Node α → Prop} {s : Session α}
    (attained : Attained known s) {serial : ℕ} (inside : serial < s.graphs.size) {n : Node α}
    (mem : known n) :
    let t := (s.graphAt serial).tape
    (t.contains n = true ↔ ∃ k : ℕ, t.toList[k]? = some n) ∧
    (∀ k : ℕ, t.toList[k]? = some n → t.position? n.id = some k) ∧
    (∀ k, t.position? n.id = some k ↔ ∃ m, t.toList[k]? = some m ∧ m.id = n.id) ∧
    (n.graph = serial → (∀ k, t.position? n.id = some k ↔ t.toList[k]? = some n) ∧
      (t.position? n.id = none ↔ t.contains n = false)) ∧
    t.size = t.toList.length ∧ ∀ k : Int, t.get? k =
      if 0 ≤ k then t.toList[k.toNat]? else t.toList.reverse[(-k - 1).toNat]? := by
  intro t
  have coherent := attained.coherent
  have wf := (coherent.graph serial inside).sound.toWellFormed
  have home (at' : n.graph = (s.graphAt serial).serial) : known n ∧ n.graph = serial :=
    ⟨mem, at'.trans (coherent.serial serial inside)⟩
  have contains := wf.contains_iff home
  refine ⟨contains, fun k stands => wf.position_iff.mpr ⟨n, stands, rfl⟩,
    fun k => wf.position_iff, fun at' => ?_,
    Array.length_toList.symm, t.get?_eq⟩
  have place {k : ℕ} := wf.position_known (k := k) ⟨mem, at'⟩
  refine ⟨fun k => place, ?_⟩
  rw [← Bool.not_eq_true, contains, Option.eq_none_iff_forall_ne_some, not_exists]
  exact forall_congr' fun k => not_congr place

/-! ### Examples -/

namespace Sample

open Session

/-- The square of the mass stands on the tape, and the mass does not. -/
theorem massSquare_found :
    let t := ((weighed 0 {}).graphAt 0).tape
    (∃ k : ℕ, t.toList[k]? = some (massSquare 0) ∧ t.position? (massSquare 0).id = some k) ∧
      t.contains (mass 0) = false ∧ t.position? (mass 0).id = none := by
  intro t
  obtain ⟨known, attained, mem, mem'⟩ := weighed_attained
  have inside : 0 < (weighed 0 {}).graphs.size := by decide +kernel
  obtain ⟨on, found, _⟩ := tape_lookups attained inside mem'
  obtain ⟨_, _, _, free, _⟩ := tape_lookups attained inside mem
  obtain ⟨k, stands⟩ := on.mp (by decide +kernel)
  have absent : t.contains (mass 0) = false := by decide +kernel
  exact ⟨⟨k, stands, found k stands⟩, absent, (free rfl).2.mpr absent⟩

/-- The square of the mass of another graph is not on the tape, and still has a place there. -/
theorem massSquare_mistaken :
    let s := weighed 1 (weighed 0 {})
    (s.graphAt 1).tape.contains (massSquare 1) = true ∧
      (s.graphAt 0).tape.contains (massSquare 1) = false ∧
      (s.graphAt 0).tape.position? (massSquare 1).id = some 0 := by
  decide +kernel

end Sample

end ReverseMode
