import ReverseMode.Argument.Basic
import ReverseMode.Graph.Basic

/-!
Settings given as entries with names.

Given entries replace the defaults; an unknown name is refused. The element type is
looked at when all entries are in place.
-/

namespace ReverseMode

namespace Settings

variable {α : Type}

/-- Entries with names. -/
abbrev Entries (α : Type) := List (String × Argument α)

/-- The entries that hold if nothing is given. -/
def defaults : Entries α :=
  [("dtype", .text "float32"), ("release_memory", .bool true), ("inference", .bool false),
   ("seed", .none), ("log_dir", .none), ("log_name", .text "graph"), ("log_max_values", .int 10)]

/-- An entry in place of the one of its name. -/
def put (entries : Entries α) (given : String × Argument α) : Except Fault (Entries α) :=
  if (entries.lookup given.1).isSome then
    .ok (entries.map fun e => if e.1 == given.1 then given else e)
  else .error (.unknownSetting (Text.quoted given.1))

/-- The defaults with the given entries in their places; later ones win. -/
def merge (given : Entries α) : Except Fault (Entries α) := do
  let entries ← given.foldlM put defaults
  let type ← ((entries.lookup "dtype").getD .none).toType
  put entries ("dtype", .text type.name)

/-- The seed that an argument stands for; one that counts as false stands for zero. -/
def toSeed (a : Argument α) : Except Fault Int := do
  if ← a.truth then a.toInt else pure 0

/-- One of the integers that a seed is made of. A text has to hold its digits. -/
def checkSeedPart : Argument α → Except Fault Unit
  | .bool _ => .ok ()
  | .int n | .scalar (.int _ n) => if n < 0 then .error .value else .ok ()
  | .text s => if (Text.integer? s).isSome then .ok () else .error .value
  | _ => .error .type

/-- A seed has to be an integer that is not negative, or to be made of such integers. -/
def checkSeed (a : Argument α) : Except Fault Unit := do
  match a with
  | .none => pure ()
  | .text _ => throw .type
  | .list items | .tuple items => items.forM checkSeedPart
  | .array _ values => values.toList.forM fun s => checkSeedPart (α := α) (.scalar s)
  | a => checkSeedPart a

/-- The most bytes that the name of a file can have. -/
def longestName : Nat := 255

/-- A log has to lie in the directory of the logs, so its name leads into no other one, and
the name has to be that of a file. -/
def checkLogName (name : String) : Except Fault Unit :=
  if name.contains '\x00' then .error .value
  else if name.contains '/' then .error (.plain .absentPlace)
  else if longestName < (name ++ Report.fileSuffix).utf8ByteSize then
    .error (.plain .impossiblePlace)
  else .ok ()

/-- Where the log goes, if a place for it is given. -/
def toLog (entries : Entries α) : Except Fault (Option LogSettings) := do
  match entries.lookup "log_dir" with
  | none | some .none => pure none
  | some (.text _) =>
    let name := ((entries.lookup "log_name").getD .none).plain
    checkLogName name
    pure (some ⟨name, ((entries.lookup "log_max_values").getD .none).toSampleLimit⟩)
  | some _ => throw .type

/-- The settings that entries stand for. -/
def ofEntries (given : Entries α) : Except Fault Settings := do
  let entries ← merge given
  let entry (name : String) : Argument α := (entries.lookup name).getD .none
  checkSeed (entry "seed")
  pure
    { type := ← (entry "dtype").toType
      releaseMemory := ← (entry "release_memory").truth
      inference := ← (entry "inference").truth
      seed := ← toSeed (entry "seed")
      log? := ← toLog entries }

end Settings

end ReverseMode
