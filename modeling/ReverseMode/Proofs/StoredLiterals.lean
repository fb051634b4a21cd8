import ReverseMode.Proofs.IntegerArrays
import ReverseMode.Proofs.Lookups
import ReverseMode.Proofs.TypedPasses

/-!
Literals that are stored with 32 bits.

Every entry of a literal is stored by itself (`Scalar.Taken`). An integer of 32 bits is stored as it
is. A fraction loses what follows the point, a wider integer of an array wraps, and a float that no
such integer is near to is stored as the least one; only an integer without a type that does not fit
is refused. Numbers in nested lists are read in a type that they have in common first, which keeps
the integer parts that fit 32 bits.
-/

namespace ReverseMode

open scoped Element Scalar

/-! ### Stored entries -/

namespace Scalar

/-- The integer part of a number; an infinity and a NaN have none. -/
def part? : Scalar → Option Int
  | bool b => some (if b then 1 else 0)
  | int _ z | whole z => some z
  | float16 x | float32 x => Number.truncate? x.toFloat
  | float64 x | real x => Number.truncate? x
  | refused _ => none

/-- What is stored with 32 bits for a number. -/
inductive Taken : Scalar → Int → Prop
  /-- An integer part that fits is what is left of the number. -/
  | part {x : Scalar} {z : Int} (part : x.part? = some z) (fits : IntegerType.int32.fits z = true) :
      Taken x z
  /-- A wider integer of an array wraps. -/
  | wrapped {t : IntegerType} {z : Int} (wide : IntegerType.int32.fits z = false) :
      Taken (.int t z) (IntegerType.int32.wrap z)
  /-- A float whose integer part does not fit becomes the least integer. -/
  | least {x : Scalar} (float : x.Floating)
      (wide : ∀ z, x.part? = some z → IntegerType.int32.fits z = false) : Taken x (-2 ^ 31)

/-- A number without a type, as it is handed in. -/
inductive Untyped : Scalar → Prop
  | whole (z : Int) : Untyped (.whole z)
  | real (c : Float) : Untyped (.real c)

theorem Untyped.plain {x : Scalar} (untyped : x.Untyped) : x.refusal? = none := by
  cases untyped <;> rfl

theorem Taken.fits {x : Scalar} {j : Int} (taken : x.Taken j) :
    IntegerType.int32.fits j = true := by
  cases taken with
  | part _ fits => exact fits
  | wrapped => exact IntegerType.fits_wrap _ _
  | least => decide

/-- An integer part of 32 bits is taken as it is. -/
theorem Taken.eq_part {x : Scalar} {j z : Int} (taken : x.Taken j) (part : x.part? = some z)
    (fits : IntegerType.int32.fits z = true) : j = z := by
  cases taken with
  | part part' => exact Option.some.inj (part'.symm.trans part)
  | wrapped wide =>
    cases part
    cases wide.symm.trans fits
  | least _ wide => cases (wide z part).symm.trans fits

/-- An integer of an array wraps to 32 bits. -/
theorem Taken.eq_wrap {t : IntegerType} {z j : Int} (taken : (int t z).Taken j) :
    j = IntegerType.int32.wrap z := by
  cases taken with
  | part part fits =>
    cases part
    exact (IntegerType.wrap_of_fits fits).symm
  | wrapped => rfl
  | least float =>
    obtain ⟨u, typed, float⟩ := float
    cases typed
    rcases float with float | float | float <;> cases float

/-- A double that is stored with 32 bits. -/
theorem taken_float {x : Scalar} {c : Float} (float : x.Floating)
    (part : x.part? = Number.truncate? c) : x.Taken (storeFloat .int32 c) := by
  have is : ElementType.int32.storage = .int .int32 := rfl
  cases read : Number.truncate? c with
  | none =>
    rw [storeFloat_unread is read]
    exact .least float fun z found => by
      rw [part, read] at found
      cases found
  | some z =>
    rw [storeFloat_read is read]
    cases fits : IntegerType.int32.fits z with
    | true =>
      rw [if_pos rfl, IntegerType.wrap_of_fits fits]
      exact .part (part.trans read) fits
    | false =>
      refine .least float fun z' found => ?_
      rw [part, read] at found
      cases found
      exact fits

/-- A number of an array is taken for what is stored for it. -/
theorem taken_store {x : Scalar} {t : StorageType} (typed : x.type? = some t) :
    ∃ j, x.store (.int .int32) = .int .int32 j ∧ x.Taken j := by
  have plain := refusal?_of_type? typed
  refine ⟨x.toInt .int32, by unfold store; rw [plain], ?_⟩
  cases x with
  | bool b => cases b <;> exact .part rfl rfl
  | int u z =>
    cases fits : IntegerType.int32.fits z with
    | true =>
      rw [toInt, IntegerType.wrap_of_fits fits]
      exact .part rfl fits
    | false => exact .wrapped fits
  | float16 c => exact taken_float ⟨_, rfl, .inl rfl⟩ rfl
  | float32 c => exact taken_float ⟨_, rfl, .inr (.inl rfl)⟩ rfl
  | float64 c => exact taken_float ⟨_, rfl, .inr (.inr rfl)⟩ rfl
  | whole _ | real _ | refused _ => cases typed

end Scalar

namespace Entry

/-- What is stored with 32 bits for an entry. -/
def Taken (e : Entry) (j : Int) : Prop :=
  IntegerType.int32.fits j = true ∧ ∀ x, e = .number x → x.Taken j

theorem storeWhole_fits {z : Int} {y : Scalar} (stored : storeWhole (.int .int32) z = .ok y) :
    y = .int .int32 z ∧ IntegerType.int32.fits z = true := by
  unfold storeWhole at stored
  split at stored
  next u is =>
    cases is
    split at stored
    next fits =>
      cases stored
      exact ⟨rfl, fits⟩
    · cases stored
  next is => cases is
  next other _ => exact absurd rfl (other .int32)

/-- A plain entry that is stored with 32 bits is taken for what is stored. -/
theorem taken_storeIn {e : Entry} (plain : e.Plain) {y : Scalar}
    (stored : e.storeIn (.int .int32) = .ok y) : ∃ j, y = .int .int32 j ∧ e.Taken j := by
  cases e with
  | number x =>
    suffices taken : ∃ j, y = .int .int32 j ∧ x.Taken j by
      obtain ⟨j, rfl, taken⟩ := taken
      exact ⟨j, rfl, taken.fits, fun _ same => by cases same; exact taken⟩
    cases x with
    | whole z =>
      obtain ⟨rfl, fits⟩ := storeWhole_fits stored
      exact ⟨z, rfl, .part rfl fits⟩
    | real c =>
      obtain ⟨z, cut, stored⟩ := bind_eq_ok.mp stored
      obtain ⟨rfl, fits⟩ := storeWhole_fits stored
      refine ⟨z, rfl, .part ?_ fits⟩
      unfold truncated at cut
      split at cut
      next read =>
        cases cut
        exact read
      · cases cut
    | refused k => cases plain
    | _ =>
      cases stored
      exact Scalar.taken_store rfl
  | text s =>
    have stored : storeText (.int .int32) s = .ok y := stored
    unfold storeText at stored
    dsimp only at stored
    split at stored
    next z _ =>
      obtain ⟨rfl, fits⟩ := storeWhole_fits stored
      exact ⟨z, rfl, fits, nofun⟩
    · cases stored
  | missing | other => cases stored

end Entry

namespace Literal

/-- The integers that are stored with 32 bits for the entries of a literal. -/
structure Indexed (l : Literal) (m : Tensor Int) : Prop where
  shape : m.shape = l.shape
  taken : List.Forall₂ Entry.Taken l.entries.toList m.toList

theorem Indexed.fits {l : Literal} {m : Tensor Int} (indexed : l.Indexed m) :
    ∀ j ∈ m.toList, IntegerType.int32.fits j = true :=
  ((List.forall₂_and_left _ _).mp indexed.taken.flip).1

/-- Plain entries that are stored with 32 bits are taken for integers, one by one. -/
theorem taken_all {es : List Entry} {ys : List Scalar} (plain : ∀ e ∈ es, e.Plain)
    (stored : List.Forall₂ (fun e y => e.storeIn (.int .int32) = .ok y) es ys) :
    ∃ js : List Int, ys = js.map (.int .int32) ∧ List.Forall₂ Entry.Taken es js := by
  induction stored with
  | nil => exact ⟨[], rfl, .nil⟩
  | cons here _ ih =>
    obtain ⟨first, others⟩ := List.forall_mem_cons.mp plain
    obtain ⟨j, rfl, taken⟩ := Entry.taken_storeIn first here
    obtain ⟨js, rfl, rest⟩ := ih others
    exact ⟨j :: js, rfl, .cons taken rest⟩

/-- A plain literal that is stored with 32 bits is taken for integers. -/
theorem indexed_store {l : Literal} (plain : l.Plain) {b : Tensor Scalar}
    (stored : l.store .index = .ok b) : ∃ m : Tensor Int, b = m.stored .int32 ∧ l.Indexed m := by
  obtain ⟨ys, mapped, stored⟩ := bind_eq_ok.mp stored
  obtain ⟨js, rfl, taken⟩ := taken_all plain (forall₂_of_mapM mapped)
  unfold Tensor.ofArray? at stored
  split at stored
  next values shaped =>
    cases pure_eq_ok.mp stored
    split at shaped
    next size =>
      cases shaped
      have size' : js.toArray.size = volume l.shape := by simpa using size
      refine ⟨⟨l.shape, js.toArray, size'⟩, ?_, rfl, taken⟩
      unfold Tensor.stored Tensor.map
      congr 1
      exact List.map_toArray.symm
    · cases shaped
  · cases stored

end Literal

/-! ### Literals as they are given -/

namespace EntryType

/-- The types that numbers without a type are held in. -/
def wide : List EntryType :=
  [.number (.int .int64), .number (.int ⟨false, .w64⟩), .number .float64, .object]

/-- The types in which a number without a type keeps its integer part, if 32 bits hold that. -/
def keeping : Scalar → List EntryType
  | .whole _ => [.number (.int .int64), .number .float64, .object]
  | .real _ => [.number .float64, .object]
  | _ => []

variable {s t : EntryType} {x : Scalar} {types : List EntryType}

theorem join_wide : ∀ s ∈ wide, ∀ t ∈ wide, s.join t ∈ wide := by decide

theorem join_keeping (x : Scalar) :
    ∀ s ∈ keeping x, ∀ t ∈ wide, s.join t ∈ keeping x ∧ t.join s ∈ keeping x := by
  have whole : ∀ s ∈ keeping (.whole 0), ∀ t ∈ wide,
      s.join t ∈ keeping (.whole 0) ∧ t.join s ∈ keeping (.whole 0) := by decide
  have real : ∀ s ∈ [number .float64, object], ∀ t ∈ wide,
      s.join t ∈ [number .float64, object] ∧ t.join s ∈ [number .float64, object] := by decide
  cases x with
  | whole z => exact whole
  | real c => exact real
  | _ => exact fun s mem => by cases mem

theorem foldl_keeping (first : s ∈ wide) (wides : ∀ t ∈ types, t ∈ wide)
    (keeps : s ∈ keeping x ∨ ∃ t ∈ types, t ∈ keeping x) : types.foldl join s ∈ keeping x := by
  induction types generalizing s with
  | nil =>
    rcases keeps with keeps | ⟨_, mem, _⟩
    · exact keeps
    · cases mem
  | cons next types ih =>
    obtain ⟨here, later⟩ := List.forall_mem_cons.mp wides
    apply ih (join_wide s first next here) later
    rcases keeps with keeps | ⟨t, mem, keeps⟩
    · exact .inl (join_keeping x s keeps next here).1
    · rcases List.mem_cons.mp mem with rfl | mem
      · exact .inl (join_keeping x t keeps s first).2
      · exact .inr ⟨t, mem, keeps⟩

/-- The type that numbers have in common keeps what one of their types keeps. -/
theorem common_keeping (wides : ∀ t ∈ types, t ∈ wide) (mem : t ∈ types) (keeps : t ∈ keeping x) :
    common types ∈ keeping x := by
  cases types with
  | nil => cases mem
  | cons first types =>
    obtain ⟨here, later⟩ := List.forall_mem_cons.mp wides
    apply foldl_keeping here later
    rcases List.mem_cons.mp mem with rfl | mem
    · exact .inl keeps
    · exact .inr ⟨t, mem, keeps⟩

theorem foldl_wide (first : s ∈ wide) (wides : ∀ t ∈ types, t ∈ wide) :
    types.foldl join s ∈ wide := by
  induction types generalizing s with
  | nil => exact first
  | cons next types ih =>
    obtain ⟨here, later⟩ := List.forall_mem_cons.mp wides
    exact ih (join_wide s first next here) later

theorem common_wide (wides : ∀ t ∈ types, t ∈ wide) : common types ∈ wide := by
  cases types with
  | nil => decide
  | cons first types =>
    obtain ⟨here, later⟩ := List.forall_mem_cons.mp wides
    exact foldl_wide here later

/-- Numbers of one type have that type in common. -/
theorem common_same (some : types ≠ []) (same : ∀ s ∈ types, s = t) (self : t.join t = t) :
    common types = t := by
  cases types with
  | nil => exact absurd rfl some
  | cons first types =>
    obtain ⟨rfl, later⟩ := List.forall_mem_cons.mp same
    show types.foldl join first = first
    induction types with
    | nil => rfl
    | cons next types ih =>
      obtain ⟨rfl, far⟩ := List.forall_mem_cons.mp later
      rw [List.foldl_cons, self]
      exact ih (List.cons_ne_nil _ _) (List.forall_mem_cons.mpr ⟨rfl, far⟩) far

end EntryType

namespace Entry

/-- An entry whose integer part is that of a number, if 32 bits hold that. -/
def Stands (e : Entry) (x : Scalar) : Prop :=
  ∃ y, e = .number y ∧ ∀ z, x.part? = some z → IntegerType.int32.fits z = true → y.part? = some z

/-- A number is held with its integer part in a type that keeps it. -/
theorem stands_of_keeping {x : Scalar} {t : EntryType} (keeps : t ∈ EntryType.keeping x) :
    ((number x).holdIn t).Stands x := by
  cases x with
  | whole z =>
    rcases List.mem_cons.mp keeps with rfl | keeps
    · refine ⟨_, rfl, fun z' part fits => ?_⟩
      cases part
      have range := IntegerType.fits_int32.mp fits
      have wide : IntegerType.int64.fits z = true := IntegerType.fits_int64.mpr (by omega)
      exact congrArg some (IntegerType.wrap_of_fits wide)
    · rcases List.mem_pair.mp keeps with rfl | rfl
      · refine ⟨_, rfl, fun z' part fits => ?_⟩
        cases part
        have range := IntegerType.fits_int32.mp fits
        have whole : Number.Whole (Number.ofInt z) (Number.rounded z) :=
          Number.whole_ofInt (by omega)
        rw [Number.rounded_short (by omega)] at whole
        exact (Number.whole_iff.mp whole).2
      · exact ⟨_, rfl, fun _ part _ => part⟩
  | real c =>
    rcases List.mem_pair.mp keeps with rfl | rfl
    · exact ⟨_, rfl, fun _ part _ => part⟩
    · exact ⟨_, rfl, fun _ part _ => part⟩
  | _ => cases keeps

/-- A number is held as a number, with its integer part where that is kept. -/
theorem stands_holdIn {x : Scalar} {t : EntryType} (plain : x.refusal? = none)
    (wide : t ∈ EntryType.wide)
    (keeps : ∀ z, x.part? = some z → IntegerType.int32.fits z = true → t ∈ EntryType.keeping x) :
    ((number x).holdIn t).Plain ∧ ((number x).holdIn t).Stands x := by
  obtain ⟨y, held, plain⟩ : ∃ y, (number x).holdIn t = .number y ∧ y.refusal? = none := by
    have stored (u : StorageType) : (x.store u).refusal? = none :=
      Scalar.refusal?_of_type? (Scalar.type?_store plain)
    simp only [EntryType.wide, List.mem_cons, List.not_mem_nil, or_false] at wide
    rcases wide with rfl | rfl | rfl | rfl
    · exact ⟨_, rfl, stored _⟩
    · exact ⟨_, rfl, stored _⟩
    · exact ⟨_, rfl, stored _⟩
    · exact ⟨x, rfl, plain⟩
  refine ⟨held ▸ plain, ?_⟩
  by_cases short : ∃ z, x.part? = some z ∧ IntegerType.int32.fits z = true
  · obtain ⟨z, part, fits⟩ := short
    exact stands_of_keeping (keeps z part fits)
  · exact ⟨y, held, fun z part fits => absurd ⟨z, part, fits⟩ short⟩

/-- A number that is taken for an index is its integer part, if 32 bits hold that. -/
theorem Stands.eq_part {e : Entry} {x : Scalar} {j z : Int} (stands : e.Stands x)
    (taken : e.Taken j) (part : x.part? = some z) (fits : IntegerType.int32.fits z = true) :
    j = z := by
  obtain ⟨y, rfl, kept⟩ := stands
  exact (taken.2 y rfl).eq_part (kept z part fits) fits

end Entry

namespace Argument

variable {α : Type}

mutual

/-- The numbers in nested lists, in row-major order, if all of them are numbers without a type. -/
def listed? : Argument α → Option (List Scalar)
  | list items | tuple items => listedAll? items
  | int z => some [.whole z]
  | real c => some [.real c]
  | _ => Option.none

/-- The numbers in several nested lists. -/
def listedAll? : List (Argument α) → Option (List Scalar)
  | [] => some []
  | a :: rest => do pure ((← listed? a) ++ (← listedAll? rest))

end

/-- The type that a number without a type is read in. -/
def readType : Scalar → EntryType
  | .whole z => integerType z
  | _ => .number .float64

/-- Types and entries of some numbers without a type. -/
structure Gathers (types : List EntryType) (entries : List Entry) (given : List Scalar) :
    Prop where
  types : types = given.map readType
  entries : entries = given.map .number
  untyped : ∀ x ∈ given, x.Untyped

theorem Gathers.append {types types' : List EntryType} {entries entries' : List Entry}
    {given given' : List Scalar} (first : Gathers types entries given)
    (second : Gathers types' entries' given') :
    Gathers (types ++ types') (entries ++ entries') (given ++ given') where
  types := by rw [first.types, second.types, List.map_append]
  entries := by rw [first.entries, second.entries, List.map_append]
  untyped x mem := (List.mem_append.mp mem).elim (first.untyped x) (second.untyped x)

theorem Gathers.single {x : Scalar} (untyped : x.Untyped) :
    Gathers [readType x] [.number x] [x] where
  types := rfl
  entries := rfl
  untyped _ mem := List.mem_singleton.mp mem ▸ untyped

theorem readType_wide {x : Scalar} (untyped : x.Untyped) : readType x ∈ EntryType.wide := by
  cases untyped with
  | whole z =>
    unfold readType integerType
    dsimp only
    split_ifs <;> decide
  | real c =>
    show EntryType.number .float64 ∈ EntryType.wide
    decide

/-- A number whose integer part fits 32 bits is read in a type that keeps that. -/
theorem readType_keeping {x : Scalar} {z : Int} (untyped : x.Untyped) (part : x.part? = some z)
    (fits : IntegerType.int32.fits z = true) : readType x ∈ EntryType.keeping x := by
  cases untyped with
  | whole z' =>
    cases part
    have range := IntegerType.fits_int32.mp fits
    have wide : IntegerType.int64.fits z = true := IntegerType.fits_int64.mpr (by omega)
    rw [readType, integerType, if_pos wide]
    exact List.mem_cons_self
  | real c => exact List.mem_cons_self

theorem gathers_stack {parts : List Gathered} {g : Gathered} {given : List Scalar}
    (gathers : Gathers (parts.flatMap Gathered.types) (parts.flatMap Gathered.entries) given)
    (stacked : Gathered.stack parts = .ok g) : Gathers g.types g.entries given := by
  cases parts with
  | nil =>
    cases stacked
    exact gathers
  | cons first rest =>
    unfold Gathered.stack at stacked
    dsimp only at stacked
    split at stacked
    · cases stacked
      exact gathers
    · cases stacked

mutual

/-- What is gathered of nested lists of numbers are the numbers. -/
theorem gather_listed : ∀ {a : Argument α} {given : List Scalar} {g : Gathered},
    a.listed? = some given → a.gather = .ok g → Gathers g.types g.entries given
  | list items, given, g, listed, gathered => by
    obtain ⟨parts, all, stacked⟩ := bind_eq_ok.mp gathered
    exact gathers_stack (gatherAll_listed listed all) stacked
  | tuple items, given, g, listed, gathered => by
    obtain ⟨parts, all, stacked⟩ := bind_eq_ok.mp gathered
    exact gathers_stack (gatherAll_listed listed all) stacked
  | int z, given, g, listed, gathered => by
    cases listed
    cases gathered
    exact .single (.whole z)
  | real c, given, g, listed, gathered => by
    cases listed
    cases gathered
    exact .single (.real c)

theorem gatherAll_listed : ∀ {items : List (Argument α)} {given : List Scalar}
    {parts : List Gathered}, listedAll? items = some given → gatherAll items = .ok parts →
    Gathers (parts.flatMap Gathered.types) (parts.flatMap Gathered.entries) given
  | [], given, parts, listed, gathered => by
    cases listed
    cases gathered
    exact ⟨rfl, rfl, nofun⟩
  | a :: rest, given, parts, listed, gathered => by
    obtain ⟨first, head, listed⟩ := Option.bind_eq_some_iff.mp listed
    obtain ⟨others, tail, listed⟩ := Option.bind_eq_some_iff.mp listed
    cases listed
    obtain ⟨part, here, gathered⟩ := bind_eq_ok.mp gathered
    obtain ⟨parts', later, gathered⟩ := bind_eq_ok.mp gathered
    cases pure_eq_ok.mp gathered
    exact (gather_listed head here).append (gatherAll_listed tail later)

end

theorem toList_literalOf {type : EntryType} {g : Gathered} {entries : List Entry}
    {content : Literal} (made : literalOf type g entries = .ok content) :
    content.entries.toList = entries := by
  unfold literalOf at made
  split at made
  next laid shaped =>
    cases made
    unfold Tensor.ofArray? at shaped
    split at shaped
    · cases shaped
      rfl
    · cases shaped
  · cases made

/-- Nested lists of numbers are read as entries that stand for the numbers. -/
theorem toLiteral_listed {a : Argument α} {given : List Scalar} {content : Literal}
    (listed : a.listed? = some given) (read : a.toLiteral = .ok content) :
    content.Plain ∧ List.Forall₂ Entry.Stands content.entries.toList given := by
  obtain ⟨g, gathered, read⟩ := bind_eq_ok.mp read
  have gathers := gather_listed listed gathered
  have wide : ∀ t ∈ g.types, t ∈ EntryType.wide := by
    rw [gathers.types]
    exact List.forall_mem_map.mpr fun x mem => readType_wide (gathers.untyped x mem)
  have each : ∀ x ∈ given, ((Entry.number x).holdIn (EntryType.common g.types)).Plain ∧
      ((Entry.number x).holdIn (EntryType.common g.types)).Stands x := by
    intro x mem
    have untyped := gathers.untyped x mem
    have inside : readType x ∈ g.types := gathers.types ▸ List.mem_map_of_mem mem
    exact Entry.stands_holdIn untyped.plain (EntryType.common_wide wide) fun z part fits =>
      EntryType.common_keeping wide inside (readType_keeping untyped part fits)
  have entries : content.entries.toList =
      given.map fun x => (Entry.number x).holdIn (EntryType.common g.types) := by
    rw [toList_literalOf read, gathers.entries, List.map_map]
    rfl
  rw [Literal.Plain, entries]
  refine ⟨List.forall_mem_map.mpr fun x mem => (each x mem).1, ?_⟩
  rw [List.forall₂_map_left_iff, List.forall₂_same]
  exact fun x mem => (each x mem).2

/-- Nested lists of integers of 64 bits are read as such. -/
theorem toLiteral_wholes {a : Argument α} {zs : List Int} {content : Literal}
    (listed : a.listed? = some (zs.map .whole))
    (fits : ∀ z ∈ zs, IntegerType.int64.fits z = true) (read : a.toLiteral = .ok content) :
    content.entries.toList = zs.map fun z => .number (.int .int64 z) := by
  obtain ⟨g, gathered, read⟩ := bind_eq_ok.mp read
  have gathers := gather_listed listed gathered
  rw [toList_literalOf read, gathers.entries, List.map_map, List.map_map]
  refine List.map_congr_left fun z mem => ?_
  have same : ∀ t ∈ g.types, t = .number (.int .int64) := by
    rw [gathers.types, List.map_map]
    exact List.forall_mem_map.mpr fun z mem => if_pos (fits z mem)
  have some : g.types ≠ [] := by
    rw [gathers.types, List.map_map]
    exact List.ne_nil_of_mem (List.mem_map_of_mem mem)
  have common : EntryType.common g.types = .number (.int .int64) :=
    EntryType.common_same some same rfl
  show Entry.holdIn (EntryType.common g.types) (.number (.whole z)) = _
  rw [common]
  exact congrArg (fun z => Entry.number (.int .int64 z)) (IntegerType.wrap_of_fits (fits z mem))

/-- An array is read as it is. -/
theorem toLiteral_array {t : StorageType} {values : Tensor Scalar} (held : values.HeldIn t) :
    (array t values : Argument α).toLiteral = .ok (.ofScalars t values) ∧
      (Literal.ofScalars t values).Plain := by
  have entries : (values.toList.map Entry.number).map (Entry.holdIn (.number t)) =
      values.toList.map Entry.number := by
    rw [List.map_map]
    exact List.map_congr_left fun x mem => congrArg Entry.number (held x mem).2
  have laid : Tensor.ofArray? values.shape (values.toList.map Entry.number).toArray =
      some (values.map Entry.number) := by
    have listed : (values.toList.map Entry.number).toArray = values.data.map Entry.number := by
      rw [Tensor.toList, ← List.map_toArray, Array.toArray_toList]
    rw [listed]
    exact dif_pos (by rw [Array.size_map, values.size_eq])
  constructor
  · refine bind_eq_ok.mpr ⟨_, rfl, ?_⟩
    show literalOf (.number t) _
      ((values.toList.map Entry.number).map (Entry.holdIn (.number t))) = _
    rw [entries, literalOf]
    dsimp only
    rw [laid]
    rfl
  · intro e mem
    rw [Literal.ofScalars, Tensor.toList_map] at mem
    obtain ⟨x, inside, rfl⟩ := List.mem_map.mp mem
    exact Scalar.refusal?_of_type? (held x inside).1

end Argument

namespace Literal.Indexed

variable {content : Literal} {m : Tensor Int} (indexed : content.Indexed m)

include indexed

/-- For a number that an entry stands for the integer part is stored, if 32 bits hold that. -/
theorem parts {given : List Scalar}
    (stands : List.Forall₂ Entry.Stands content.entries.toList given) :
    List.Forall₂ (fun x j => ∀ z, x.part? = some z → IntegerType.int32.fits z = true → j = z)
      given m.toList := by
  have taken := indexed.taken
  generalize content.entries.toList = entries at stands taken
  generalize m.toList = js at taken
  induction stands generalizing js with
  | nil =>
    cases taken
    exact .nil
  | cons here _ ih =>
    cases taken with
    | cons first rest =>
      exact .cons (fun z part fits => here.eq_part first part fits) (ih _ rest)

/-- Integers of an array wrap. -/
theorem wraps {zs : List Int} {t : IntegerType}
    (entries : content.entries.toList = zs.map fun z => .number (.int t z)) :
    m.toList = zs.map IntegerType.int32.wrap := by
  have taken := indexed.taken
  rw [entries, List.forall₂_map_left_iff] at taken
  have each : List.Forall₂ (· = ·) (zs.map IntegerType.int32.wrap) m.toList :=
    List.forall₂_map_left_iff.mpr (taken.imp fun z j first => (first.2 _ rfl).eq_wrap.symm)
  rw [List.forall₂_eq_eq_eq] at each
  exact each.symm

/-- For the numbers of an array is stored what they are taken for. -/
theorem array {type : StorageType} {values : Tensor Scalar}
    (is : content = .ofScalars type values) : List.Forall₂ Scalar.Taken values.toList m.toList := by
  subst is
  have taken := indexed.taken
  rw [ofScalars, Tensor.toList_map, List.forall₂_map_left_iff] at taken
  exact taken.imp fun x j first => first.2 x rfl

end Literal.Indexed

end ReverseMode
