import ReverseMode.Decimal.Shortest

/-!
Numbers read from text.

Blanks around a number are skipped. The digits may be those of any script, which are ten code
points in a row, known by the zero, and may be grouped by single underscores. A real number may
have a fraction, an exponent, or be the name of an infinity or a NaN.
-/

namespace ReverseMode.Text

/-- The code points of the zeros, in increasing order. -/
def digitZeros : List Nat :=
  [0x30, 0x660, 0x6f0, 0x7c0, 0x966, 0x9e6, 0xa66, 0xae6, 0xb66, 0xbe6, 0xc66, 0xce6, 0xd66,
   0xde6, 0xe50, 0xed0, 0xf20, 0x1040, 0x1090, 0x17e0, 0x1810, 0x1946, 0x19d0, 0x1a80, 0x1a90,
   0x1b50, 0x1bb0, 0x1c40, 0x1c50, 0xa620, 0xa8d0, 0xa900, 0xa9d0, 0xa9f0, 0xaa50, 0xabf0,
   0xff10, 0x104a0, 0x10d30, 0x11066, 0x110f0, 0x11136, 0x111d0, 0x112f0, 0x11450, 0x114d0,
   0x11650, 0x116c0, 0x11730, 0x118e0, 0x11950, 0x11c50, 0x11d50, 0x11da0, 0x16a60, 0x16ac0,
   0x16b50, 0x1d7ce, 0x1d7d8, 0x1d7e2, 0x1d7ec, 0x1d7f6, 0x1e140, 0x1e2f0, 0x1e950, 0x1fbf0]

/-- The value of a decimal digit. -/
def digitValue? (c : Char) : Option Nat :=
  (digitZeros.find? fun start => start ≤ c.toNat && c.toNat ≤ start + 9).map (c.toNat - ·)

/-- Characters that are skipped around numbers. -/
def isBlank (c : Char) : Bool :=
  let n := c.toNat
  (9 ≤ n && n ≤ 13) || n == 32 || n == 0x85 || n == 0xa0 || n == 0x1680 ||
    (0x2000 ≤ n && n ≤ 0x200a) || n == 0x2028 || n == 0x2029 || n == 0x202f || n == 0x205f ||
    n == 0x3000

/-- Text without the blanks around it. -/
def trimmed (cs : List Char) : List Char :=
  ((cs.dropWhile isBlank).reverse.dropWhile isBlank).reverse

/-- A sign, if there is one, and what follows it. -/
def splitSign : List Char → Bool × List Char
  | '-' :: rest => (true, rest)
  | '+' :: rest => (false, rest)
  | cs => (false, cs)

/-- The values of digits that are grouped by single underscores. -/
def ungrouped? : List Char → Option (List Nat)
  | [] => some []
  | [c] => (digitValue? c).map ([·])
  | c :: '_' :: d :: rest => do pure ((← digitValue? c) :: (← ungrouped? (d :: rest)))
  | c :: rest => do pure ((← digitValue? c) :: (← ungrouped? rest))

/-- The number that digits stand for. -/
def digitsValue (ds : List Nat) : Nat :=
  ds.foldl (fun n d => 10 * n + d) 0

/-- The digits of a natural number; there is at least one. -/
def naturalDigits? (cs : List Char) : Option (List Nat) :=
  if cs.isEmpty then none else ungrouped? cs

/-- Text read as a natural number. -/
def natural? (cs : List Char) : Option Nat := (naturalDigits? cs).map digitsValue

/-- The most digits that an integer is read from. -/
def mostDigits : Nat := 4300

/-- Text read as an integer. -/
def integer? (s : String) : Option Int := do
  let (negative, cs) := splitSign (trimmed s.toList)
  let digits ← naturalDigits? cs
  if digits.length ≤ mostDigits then
    let n : Int := (digitsValue digits : Nat)
    pure (if negative then -n else n)
  else none

/-- The double nearest to `digits · 10^exponent`. Far beyond the range of doubles the result
is known without computing the power. -/
def decimalValue (digits : Nat) (exponent : Int) : Float :=
  let places : Int := Decimal.width digits + exponent
  if digits = 0 ∨ places < -400 then 0.0
  else if 400 < places then 1.0 / 0.0
  else Float.ofScientific digits (exponent < 0) exponent.natAbs

/-- Digits with a fraction, as their value and the number of places. -/
def mantissa? (cs : List Char) : Option (Nat × Nat) :=
  let whole := cs.takeWhile (· != '.')
  match cs.dropWhile (· != '.') with
  | [] => (natural? whole).map fun n => (n, 0)
  | _ :: places =>
    if whole.isEmpty && places.isEmpty then none
    else do
      let w ← ungrouped? whole
      let p ← ungrouped? places
      pure (digitsValue (w ++ p), p.length)

/-- Unsigned text read as a real number. -/
def unsignedReal? (cs : List Char) : Option Float :=
  let lower := cs.map Char.toLower
  if lower = "inf".toList ∨ lower = "infinity".toList then some (1.0 / 0.0)
  else if lower = "nan".toList then some (0.0 / 0.0)
  else
    let isMark (c : Char) : Bool := c == 'e'
    let front := lower.takeWhile fun c => !isMark c
    do
      let (digits, places) ← mantissa? front
      let exponent : Int ← match lower.dropWhile fun c => !isMark c with
        | [] => some 0
        | _ :: rest =>
          let (negative, ds) := splitSign rest
          (natural? ds).map fun n => if negative then -(n : Int) else n
      pure (decimalValue digits (exponent - places))

/-- Text read as a real number. -/
def real? (s : String) : Option Float :=
  let (negative, cs) := splitSign (trimmed s.toList)
  (unsignedReal? cs).map fun x => if negative then -x else x

end ReverseMode.Text
