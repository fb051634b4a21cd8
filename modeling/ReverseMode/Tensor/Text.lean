import ReverseMode.Element.Text
import ReverseMode.Tensor.Basic

/-!
Arrays as text: nested brackets around columns of equal width.

Elements of a row that do not fit on a line are continued on the next one, and rows are
indented by the number of brackets that are open. Floats of an array are written alike,
all positional or all with an exponent, with their points below each other and at most
eight places. Of an array with many elements only the first and the last of every long
axis are shown.
-/

namespace ReverseMode

open Number

/-! ### Columns of floats -/

/-- The texts around the point of a number, and its exponent if it is written with one. -/
structure Figure where
  whole : String
  places : String
  exponent : Int := 0
deriving Repr, Inhabited

/-- How the floats of an array are written. -/
structure FloatStyle where
  scientific : Bool
  left : Nat
  right : Nat
  /-- The digits of every exponent. -/
  exponentDigits : Nat
deriving Repr, Inhabited

namespace FloatStyle

/-- The most places that are shown. -/
def mostPlaces : Nat := 8

/-- The magnitude from which on arrays of a type are written with exponents. -/
def largest (t : StorageType) : Int := Int.pow 10 (min 8 t.mostPlaces)

/-- The digits of a positive value, cut to the places that may be shown. -/
def digits (t : StorageType) (scientific : Bool) (v : Finite) : Decimal :=
  let shortest := (Decimal.shortest t.format v).reduced
  let (n, d) := v.fraction
  if scientific then
    if Decimal.width shortest.digits ≤ mostPlaces + 1 then shortest
    else (Decimal.significant (mostPlaces + 1) n d).reduced
  else if -(mostPlaces : Int) ≤ shortest.exponent then shortest
  else (⟨Decimal.fixed mostPlaces n d, -mostPlaces⟩ : Decimal).reduced

/-- A positive decimal in positional notation. -/
def positional (x : Decimal) : Figure :=
  let (n, d) := decimalFraction x.digits x.exponent
  let count := (-x.exponent).toNat
  ⟨toString (n / d), if count = 0 then "" else Decimal.padded count (n % d), 0⟩

/-- A positive decimal in scientific notation. -/
def scientificFigure (x : Decimal) : Figure :=
  let digits := Decimal.padded 1 x.digits
  ⟨String.ofList (digits.toList.take 1), String.ofList (digits.toList.drop 1),
    digits.length + x.exponent - 1⟩

/-- A finite value taken apart. -/
def figure (t : StorageType) (scientific : Bool) (v : Finite) : Figure :=
  let magnitude : Figure :=
    if v.significand = 0 then ⟨"0", "", 0⟩
    else if scientific then scientificFigure (digits t true v)
    else positional (digits t false v)
  { magnitude with whole := (if v.negative then "-" else "") ++ magnitude.whole }

/-- Whether numbers are written with exponents: where one is large or small, or the largest
is far above the smallest. -/
def needsExponents (t : StorageType) (xs : List Scalar) : Bool :=
  match (xs.map Scalar.abs).filter fun x => x.toFloat != 0.0 with
  | [] => false
  | x :: rest =>
    let most := rest.foldl Scalar.max x
    let least := rest.foldl Scalar.min x
    !most.lt (.whole (largest t)) || least.lt (.real 0.0001) ||
      Scalar.lt (.real 1000.0) (most.div least)

/-- The width that texts need. -/
def widest (texts : List String) : Nat := (texts.map String.length).foldr max 0

/-- The finite values among some floats. -/
def finite (xs : List Scalar) : List Finite :=
  xs.filterMap fun x => match read x.toFloat with
    | .finite v => some v
    | _ => none

/-- The columns that a NaN or an infinity takes. -/
def namesWidth (xs : List Scalar) : Nat :=
  if xs.all fun x => x.toFloat.isFinite then 0
  else if xs.any fun x => x.toFloat.isInf && x.toFloat < 0.0 then 4 else 3

/-- The style in which the floats of an array are written. -/
def of (t : StorageType) (xs : List Scalar) : FloatStyle :=
  let scientific := needsExponents t (xs.filter fun x => x.toFloat.isFinite)
  let figures := (finite xs).map (figure t scientific)
  let places := widest (figures.map Figure.places)
  let exponentDigits := widest (figures.map fun f => Decimal.padded 2 f.exponent.natAbs)
  let right := if scientific then exponentDigits + 2 + places else places
  { scientific, right, exponentDigits
    left := max (widest (figures.map Figure.whole)) (namesWidth xs - (right + 1)) }

/-- Text moved to the right end of a column. -/
def toRight (width : Nat) (s : String) : String := "".pushn ' ' (width - s.length) ++ s

/-- One float in a style. -/
def write (style : FloatStyle) (t : StorageType) (x : Scalar) : String :=
  match read x.toFloat with
  | .finite v =>
    let f := figure t style.scientific v
    let places := style.right - (if style.scientific then style.exponentDigits + 2 else 0)
    let padding := "".pushn (if style.scientific then '0' else ' ') (places - f.places.length)
    toRight style.left f.whole ++ "." ++ f.places ++ padding ++
      (if style.scientific then Decimal.exponentText style.exponentDigits f.exponent else "")
  | .infinite negative =>
    toRight (style.left + style.right + 1) (if negative then "-inf" else "inf")
  | .nan => toRight (style.left + style.right + 1) "nan"

end FloatStyle

namespace Tensor

/-! ### Elements -/

/-- How the elements of an array of a type are written, given those that are shown. -/
def elementTexts (t : StorageType) (xs : List Scalar) : Scalar → String :=
  match t with
  | .bool => fun x => if x.truth then " True" else "False"
  | .int _ =>
    let width := FloatStyle.widest (xs.map Scalar.text)
    fun x => FloatStyle.toRight width x.text
  | t => (FloatStyle.of t xs).write t

/-- The number of elements from which on an array is shortened. -/
def threshold : Nat := 1000

/-- How many places are shown at the ends of an axis that is shortened. -/
def edge : Nat := 3

/-- The places shown of an axis; none stands for those left out. -/
def shownPlaces (shorten : Bool) (extent : Nat) : List (Option Nat) :=
  if shorten && 2 * edge < extent then
    (List.range edge).map some ++ [none] ++ (List.range edge).map fun i => some (extent - edge + i)
  else (List.range extent).map some

/-- The positions shown of an array. -/
def shownPositions (shorten : Bool) : List Nat → List (List Nat)
  | [] => [[]]
  | e :: rest =>
    (shownPlaces shorten e).reduceOption.flatMap fun i => (shownPositions shorten rest).map (i :: ·)

/-! ### Rows -/

/-- A text without the blanks at its end. -/
def withoutTrailing (s : String) : String :=
  String.ofList (s.toList.reverse.dropWhile (· == ' ')).reverse

/-- Text with a line that is being filled. -/
structure Filling where
  done : String
  line : String

/-- A word put on the line, or on a new one if it does not fit and the line holds any. -/
def Filling.add (width : Nat) (indent : String) (f : Filling) (word : String) : Filling :=
  if width < f.line.length + word.length && indent.length < f.line.length then
    ⟨f.done ++ withoutTrailing f.line ++ "\n", indent ++ word⟩
  else ⟨f.done, f.line ++ word⟩

/-- Words with a separator between them, continued on new lines. -/
def fillRow (separator indent : String) (width : Nat) : Filling → List String → String
  | f, [] => f.done ++ f.line
  | f, [word] =>
    let f := f.add width indent word
    f.done ++ f.line
  | f, word :: rest =>
    let f := f.add width indent word
    fillRow separator indent width ⟨f.done, f.line ++ separator⟩ rest

/-- Text between brackets, without its indentation. -/
def bracket (indent body : String) : String :=
  "[" ++ String.ofList (body.toList.drop indent.length) ++ "]"

/-- What stands for the places left out. -/
def gap : String := "..."

/-- An array in nested brackets, from the texts of the elements at its positions. -/
def nest (shorten : Bool) (separator : String) (cell : List Nat → String) :
    List Nat → List Nat → String → Nat → String
  | [], position, _, _ => cell position.reverse
  | [e], position, indent, width =>
    let words := (shownPlaces shorten e).map fun
      | some i => cell (i :: position).reverse
      | none => gap
    bracket indent (fillRow separator indent (width - 1) ⟨"", indent⟩ words)
  | e :: f :: rest, position, indent, width =>
    let parts := (shownPlaces shorten e).map fun
      | some i => nest shorten separator cell (f :: rest) (i :: position) (indent ++ " ") (width - 1)
      | none => gap
    let between := withoutTrailing separator ++ "".pushn '\n' (rest.length + 1)
    bracket indent (String.intercalate between (parts.map (indent ++ ·)))

/-- The elements of an array between brackets; `start` is what stands before it on its
first line, and `width` the length of a line. -/
def body (t : StorageType) (values : Tensor Scalar) (separator start : String) (width : Nat) :
    String :=
  if values.size = 0 then "[]"
  else
    let shorten : Bool := threshold < values.size
    let texts := elementTexts t ((shownPositions shorten values.shape).map values.get)
    nest shorten separator (fun position => texts (values.get position)) values.shape []
      ("".pushn ' ' (start.length + 1)) width

/-! ### Arrays -/

/-- The length of a line. -/
def lineWidth : Nat := 75

/-- An array as text by itself. -/
def plainText (t : StorageType) (values : Tensor Scalar) : String :=
  match values.shape with
  | [] => (values.get []).text
  | _ => body t values " " "" lineWidth

/-- What is said of an array beside its elements: extents that cannot be seen, and a type
that is not the usual one. -/
def remarks (t : StorageType) (values : Tensor Scalar) : List String :=
  let usual : Bool := t = .float64 || t = .int .int64 || t = .bool
  let isEmpty : Bool := values.size = 0
  (if (isEmpty && values.shape != [0]) || threshold < values.size then
      ["shape=" ++ Text.parenthesized (values.shape.map toString)] else []) ++
    (if usual && !isEmpty then [] else ["dtype=" ++ t.name])

/-- The length of the last line of a text. -/
def lastLineLength (s : String) : Nat :=
  (s.toList.reverse.takeWhile (· != '\n')).length

/-- An array as text that shows what kind of value it is. -/
def typedText (t : StorageType) (values : Tensor Scalar) : String :=
  let start := "array("
  let shown := start ++ body t values ", " start (lineWidth - 1)
  match remarks t values with
  | [] => shown ++ ")"
  | remarks =>
    let shown := shown ++ ","
    let rest := Text.commas remarks ++ ")"
    let space :=
      if lineWidth < lastLineLength shown + rest.length + 1 then
        "\n" ++ "".pushn ' ' start.length
      else " "
    shown ++ space ++ rest

end Tensor

end ReverseMode
