import ReverseMode.Argument.Array
import ReverseMode.Graph.Backward

/-!
Arguments read as the roots and the seeds of a backward pass.

Only a list or a tuple is several roots, and no other argument several seeds. Whether a list of
seeds is read item by item or as one array is left to the pass, which looks at the form of the
roots; so such a list is handed on in both readings.
-/

namespace ReverseMode

/-- Parts laid one after the other are the rows, with the same extents. -/
theorem Gathered.stack_shape {parts : List Gathered} {g : Gathered}
    (stacked : stack parts = .ok g) :
    g.shape.head? = some parts.length ∧ ∀ p ∈ parts, g.shape.tail = p.shape := by
  cases parts with
  | nil =>
    cases stacked
    exact ⟨rfl, fun p mem => nomatch mem⟩
  | cons first rest =>
    simp only [stack] at stacked
    split at stacked
    next same =>
      cases stacked
      refine ⟨rfl, fun p mem => ?_⟩
      exact (beq_iff_eq.mp (List.all_eq_true.mp same p mem)).symm
    next => cases stacked

namespace Argument

variable {α : Type}

/-- The argument read as the roots of a backward pass. -/
def toRoots : Argument α → Roots α
  | none => .last
  | list items | tuple items => .many (items.map toInput)
  | a => .one a.toInput

/-- The argument read as a single seed. A node has its extents, but no elements to be stored. -/
def toSeed : Argument α → Seed
  | node n => .ok ⟨.object, .full n.shape.extents .other⟩
  | a => a.toLiteral

/-- An item of a list of seeds; nothing at all stands for ones. -/
def toSeed? : Argument α → Option Seed
  | none => Option.none
  | a => some a.toSeed

/-- Apart from nodes the seeds in a list are read as arrays. -/
theorem toLiteral_of_toSeed? {a : Argument α} {l : Literal} (given : a.toSeed? = some (.ok l))
    (plain : l.type ≠ .object) : a.toLiteral = .ok l := by
  unfold toSeed? at given
  split at given
  · cases given
  · unfold toSeed at given
    split at given
    · cases given
      exact absurd rfl plain
    · exact Option.some.inj given

/-- Every item is gathered as one part. -/
theorem gatherAll_parts {items : List (Argument α)} {parts : List Gathered}
    (gathered : gatherAll items = .ok parts) :
    parts.length = items.length ∧ ∀ a ∈ items, ∃ p ∈ parts, a.gather = .ok p := by
  induction items generalizing parts with
  | nil =>
    cases gathered
    exact ⟨rfl, fun a mem => nomatch mem⟩
  | cons a rest ih =>
    rw [gatherAll] at gathered
    cases here : a.gather with
    | error f =>
      rw [here] at gathered
      cases gathered
    | ok part =>
      cases later : gatherAll rest with
      | error f =>
        rw [here, later] at gathered
        cases gathered
      | ok others =>
        rw [here, later] at gathered
        cases gathered
        obtain ⟨length, each⟩ := ih later
        refine ⟨congrArg (· + 1) length, List.forall_mem_cons.mpr ⟨⟨part, by simp, here⟩, ?_⟩⟩
        intro b mem
        obtain ⟨p, inside, found⟩ := each b mem
        exact ⟨p, List.mem_cons_of_mem _ inside, found⟩

/-- An argument read as an array has the extents of what is gathered of it. -/
theorem shape_toLiteral {a : Argument α} {l : Literal} (read : a.toLiteral = .ok l) :
    ∃ g, a.gather = .ok g ∧ l.shape = g.shape := by
  rw [toLiteral] at read
  cases gathered : a.gather with
  | error f =>
    rw [gathered] at read
    cases read
  | ok g =>
    rw [gathered] at read
    simp only [bind, Except.bind, literalOf, Tensor.ofArray?] at read
    split at read
    next made =>
      split at made
      · cases made
        cases read
        exact ⟨g, rfl, rfl⟩
      · cases made
    next => cases read

/-- A list read as an array has a row for each item, with its extents. -/
theorem rows_toLiteral {items : List (Argument α)} {l : Literal}
    (read : (list items).toLiteral = .ok l) :
    l.shape.head? = some items.length ∧
      ∀ row, some (.ok row) ∈ items.map toSeed? → row.type ≠ .object →
        l.shape.tail = row.shape := by
  obtain ⟨g, gathered, extents⟩ := shape_toLiteral read
  rw [gather] at gathered
  cases all : gatherAll items with
  | error f =>
    rw [all] at gathered
    cases gathered
  | ok parts =>
    rw [all] at gathered
    obtain ⟨length, each⟩ := gatherAll_parts all
    obtain ⟨first, same⟩ := Gathered.stack_shape gathered
    rw [extents, ← length]
    refine ⟨first, fun row mem plain => ?_⟩
    obtain ⟨a, inside, given⟩ := List.mem_map.mp mem
    obtain ⟨part, alone, extents'⟩ := shape_toLiteral (toLiteral_of_toSeed? given plain)
    obtain ⟨p, among, found⟩ := each a inside
    have one : p = part := Except.ok.inj (found.symm.trans alone)
    rw [extents', ← one, same p among]

/-- A list of arguments in both readings. -/
def toSeedList (items : List (Argument α)) : SeedList where
  items := items.map toSeed?
  whole := (list items).toLiteral
  rows _ read := by simpa using rows_toLiteral read

/-- The argument read as the seeds of a backward pass. -/
def toSeeds : Argument α → Seeds
  | none => .ones
  | list items | tuple items => .many (toSeedList items)
  | a => .one a.toSeed

end Argument

end ReverseMode
