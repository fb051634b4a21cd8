import ReverseMode.Graph.Node

/-!
Reports: the log of a graph and the lines of its debug nodes.

A log is text in sections: a header when a graph is created, one section for every
forward and backward pass, one for every debug node that is passed, and one for the
memory after a backward pass. Times are written as a mark.

Of an array at most a given number of samples is shown: all elements, or the first and
the last of them with dots between.
-/

namespace ReverseMode

/-- Something a graph tells the outside. -/
inductive Report where
  /-- Text for the log of this name. -/
  | log (name text : String)
  /-- A line of a debug node on a graph without a log. -/
  | line (text : String)
deriving DecidableEq, Repr, Inhabited

/-- How many samples of an array are shown. -/
inductive SampleLimit where
  /-- At most `most`. Of a longer array the samples up to the place `front` and those from
  the place `back` on, where negative places count from the end. -/
  | count (most front back : Int)
  /-- A number that lengths are compared with, but that is no place to cut at. -/
  | loose (x : Float)
  /-- Something that lengths cannot be compared with. -/
  | refused (fault : Fault)
deriving Repr, Inhabited

/-- The limit of a number of samples, of which the halves are shown of a longer array. -/
def SampleLimit.ofInt (n : Int) : SampleLimit := .count n (n / 2) (-n / 2)

/-- Where a graph writes its log, and how many samples of an array it shows. -/
structure LogSettings where
  name : String
  limit : SampleLimit
deriving Repr, Inhabited

namespace Report

/-- What the name of the file of a log ends in. -/
def fileSuffix : String := ".graph.log"

/-- Text in pieces. It ends before the first piece that cannot be had. -/
abbrev Pieces := List (Deferred String)

/-- The text of some pieces, and why it ends early if it does. -/
def written : Pieces → String × Option Fault
  | [] => ("", none)
  | .error f :: _ => ("", some f)
  | .ok s :: rest =>
    let (text, fault?) := written rest
    (s ++ text, fault?)

/-- What stands in the log for a time. -/
def timeMark : String := "<TS>"

/-- The first elements of a list as a slice counts them: from the end if negative. -/
def upTo {β : Type} (n : Int) (xs : List β) : List β :=
  if 0 ≤ n then xs.take n.toNat else xs.take (xs.length + n).toNat

/-- The elements of a list from a place on, counted from the end if negative. -/
def startingAt {β : Type} (n : Int) (xs : List β) : List β :=
  if 0 ≤ n then xs.drop n.toNat else xs.drop (xs.length + n).toNat

/-- The samples shown of a list, with the rest left out between them if there are more than
the limit. -/
def samples (limit : SampleLimit) (xs : List String) : Except Fault String :=
  match limit with
  | .count most front back =>
    .ok (if (xs.length : Int) ≤ most then Text.commas xs
      else Text.commas (upTo front xs) ++ ", ..., " ++ Text.commas (startingAt back xs))
  | .loose x => if Float.ofNat xs.length ≤ x then .ok (Text.commas xs) else .error .type
  | .refused f => .error f

/-- An array with six places for every element shown. -/
def arrayText (limit : SampleLimit) (xs : List Float) : Except Fault String := do
  pure ("[" ++ (← samples limit (xs.map (Decimal.fixedText 6))) ++ "]")

/-- An array as text, or that it has been released. -/
def valueText {α : Type} [Element α] (limit : SampleLimit) : Option (Tensor α) → Except Fault String
  | none => .ok "<released>"
  | some t => arrayText limit (t.toList.map Element.toFloat)

/-- The units of sizes above single bytes, each 1024 of the one before; beyond them there
are gigabytes. -/
def largerUnits : List String := ["KB", "MB"]

/-- A size in the first of some units that leaves less than 1024, with one place. -/
def sizeText : List String → Scalar → String
  | [], s => Decimal.fixedText 1 s.toFloat ++ "GB"
  | unit :: units, s =>
    if s.toFloat < 1024.0 then Decimal.fixedText 1 s.toFloat ++ unit
    else sizeText units (s.div (.whole 1024))

/-- A number of bytes, in single bytes or in larger units. -/
def bytesText (bytes : Scalar) : String :=
  if bytes.toFloat < 1024.0 then Decimal.fixedText 0 bytes.toFloat ++ "B"
  else sizeText largerUnits (bytes.div (.whole 1024))

/-- A line of text. -/
def lined (text : String) : String := text ++ "\n"

/-- A ruler. -/
def ruler (c : Char) : String := "".pushn c 80

/-- The header of a run. -/
def header : String :=
  "\n" ++ lined (ruler '=') ++ lined ("RUN: " ++ timeMark) ++ lined (ruler '=') ++ "\n"

/-- A line that ends with a text, which may not be had. -/
def lineOf (start : String) (text : Deferred String) : Deferred String :=
  text.map fun t => lined (start ++ t)

/-- The lines that show one array. -/
def arrayLines (title indent : String) (shape : List Nat) (values : Deferred String) : Pieces :=
  [.ok (lined (title ++ ":")), .ok (lined (indent ++ "Shape: " ++ Text.extents shape)),
   lineOf (indent ++ "Values: ") values]

/-- The title of a section of an episode. -/
def title (episode : Nat) (what : String) : String :=
  "[EPISODE " ++ toString episode ++ " - " ++ what ++ "]"

/-- The flags of a node after its label. -/
def flags (trainable checkpoint : Bool) : String :=
  let names := (if trainable then ["trainable"] else []) ++ (if checkpoint then ["checkpoint"] else [])
  if names.isEmpty then "" else " (" ++ Text.commas names ++ ")"

/-- What ends the section of a pass. -/
def passEnd : String := "\n" ++ lined (ruler '-') ++ "\n"

/-- The section of a forward pass; `lines` shows the computed nodes. -/
def forwardText (episode count : Nat) (lines : Pieces) : Pieces :=
  .ok (lined (title episode "FORWARD PASS") ++ lined ("Timestamp: " ++ timeMark) ++
    lined ("Nodes computed: " ++ toString count) ++ "\n") :: lines ++ [.ok passEnd]

/-- The lines of a parameter after a backward pass. -/
def parameterLines (label : String) (shape : List Nat) (values gradient : Deferred String) :
    Pieces :=
  [.ok ("\n" ++ lined ("  " ++ label ++ ":") ++ lined ("    Shape: " ++ Text.extents shape)),
   lineOf "    Values: " values, lineOf "    Gradient values: " gradient]

/-- The section of a backward pass. -/
def backwardText (episode : Nat) (roots : Pieces) (parameters : List Pieces) : Pieces :=
  .ok (lined (title episode "BACKWARD PASS") ++ lined ("Timestamp: " ++ timeMark) ++ "\n") :: roots ++
    (if parameters.isEmpty then [] else
      .ok ("\n" ++ lined "Parameters and Gradients:") :: parameters.flatten) ++ [.ok passEnd]

/-- The section of a debug node. -/
def debugText (phase message : String) (shape : List Nat) (values : Deferred String) : Pieces :=
  .ok (lined ("[DEBUG " ++ phase ++ "] " ++ timeMark ++ " " ++ message)) ::
    arrayLines "  Tensor" "    " shape values ++ [.ok "\n"]

/-- The section of the memory after a backward pass. -/
def memoryText (episode live peak allocations releases recomputations : Nat) : String :=
  lined (title episode "MEMORY") ++ lined ("  Live: " ++ bytesText (.whole live)) ++
    lined ("  Peak: " ++ bytesText (.whole peak)) ++
    lined ("  Allocations: " ++ toString allocations ++ ", releases: " ++ toString releases ++
      ", recomputations: " ++ toString recomputations) ++ "\n"

end Report

end ReverseMode
