import ReverseMode.Decimal.Digits
import ReverseMode.Text.Unprintable

/-!
Quoted text, and lists of texts between brackets.

A string is quoted with `'` unless it holds `'` and no `"`. The quote in use, the
backslash and the characters that do not print are escaped; the shortest of the
`\x`, `\u` and `\U` forms is used for the last.

Text in units of sixteen bits can hold half of a surrogate pair by itself, which is no
character. A private character of the last plane stands for it and is shown as that half.
-/

namespace ReverseMode.Text

/-- The distance from the halves to the characters that stand for them. -/
def standInOffset : Nat := 0x100000

/-- The character that stands for a half. -/
def standIn (half : Nat) : Char := Char.ofNat (half + standInOffset)

/-- The half that a character stands for, if it stands for one. -/
def half? (c : Char) : Option Nat :=
  let n := c.toNat - standInOffset
  if 0xd800 ≤ n ∧ n < 0xe000 then some n else none

/-- `n` in hexadecimal, padded with zeros to `least` digits. -/
def hex (least n : Nat) : String :=
  let digits := String.ofList (Nat.toDigits 16 n)
  "".pushn '0' (least - digits.length) ++ digits

/-- One character inside quotes. -/
def escaped (quote c : Char) : String :=
  if let some half := half? c then "\\u" ++ hex 4 half
  else if c = '\\' then "\\\\"
  else if c = quote then String.ofList ['\\', c]
  else if c = '\n' then "\\n"
  else if c = '\r' then "\\r"
  else if c = '\t' then "\\t"
  else if prints c then c.toString
  else if c.toNat < 0x100 then "\\x" ++ hex 2 c.toNat
  else if c.toNat < 0x10000 then "\\u" ++ hex 4 c.toNat
  else "\\U" ++ hex 8 c.toNat

/-- A string between quotes. -/
def quoted (s : String) : String :=
  let quote := if s.contains '\'' && !s.contains '"' then '"' else '\''
  quote.toString ++ String.join (s.toList.map (escaped quote)) ++ quote.toString

/-- Texts separated by commas. -/
def commas (items : List String) : String :=
  String.intercalate ", " items

/-- Texts between square brackets. -/
def bracketed (items : List String) : String :=
  "[" ++ commas items ++ "]"

/-- Texts between parentheses; a single one keeps its comma. -/
def parenthesized : List String → String
  | [item] => "(" ++ item ++ ",)"
  | items => "(" ++ commas items ++ ")"

/-- Extents between square brackets. -/
def extents (shape : List Nat) : String :=
  bracketed (shape.map toString)

end ReverseMode.Text
