/-!
# Decimal Literals

A decimal literal is an optional sign, then digits that may hold one point, then optionally
an exponent: the letter `e` in either case, an optional sign and digits. At least one digit
stands before the exponent, on either side of the point.

## Main definitions

* `Literal.ofChars?`: reads a whole text as a literal.
* `Literal.toFloat`: the double nearest to a literal, ties to even.
* `readNumber?`: reads a literal or one of the words `inf`, `-inf` and `NaN`, and so every
  text that a number is written as.
-/

namespace FlatLisp.Decimal

/-- What a decimal literal says: a sign and a decimal number. The sign is kept apart because
a negative zero differs from zero. -/
structure Literal where
  /-- The literal opens with a minus sign. -/
  negative : Bool
  /-- All digits before the exponent, read as a whole number. -/
  digits : Nat
  /-- The power of ten that they are multiplied by. -/
  exponent : Int
deriving DecidableEq, Repr

namespace Literal

/-- The whole number that a row of decimal digits spells. -/
def spelledNat (digits : List Char) : Nat :=
  digits.foldl (fun n c => 10 * n + (c.toNat - '0'.toNat)) 0

/-- Splits an optional sign off: whether it is a minus, and what follows it. -/
def splitSign : List Char → Bool × List Char
  | '-' :: rest => (true, rest)
  | '+' :: rest => (false, rest)
  | rest => (false, rest)

/-- The exponent that a text spells: nothing at all, or `e`, an optional sign and at least
one digit up to the end. -/
def exponent? : List Char → Option Int
  | [] => some 0
  | mark :: rest =>
    let (negative, digits) := splitSign rest
    if (mark == 'e' || mark == 'E') && !digits.isEmpty && digits.all Char.isDigit then
      let n := spelledNat digits
      some (if negative then -n else n)
    else
      none

/-- Splits the digits after a point off: the digits, and what follows them. Without a point
there are none. -/
def splitFraction : List Char → List Char × List Char
  | '.' :: rest => rest.span Char.isDigit
  | rest => ([], rest)

/-- Reads a whole text as a literal. -/
def ofChars? (text : List Char) : Option Literal :=
  let (negative, unsigned) := splitSign text
  let (whole, afterWhole) := unsigned.span Char.isDigit
  let (fraction, afterFraction) := splitFraction afterWhole
  if whole.isEmpty && fraction.isEmpty then
    none
  else
    (exponent? afterFraction).map fun exponent =>
      ⟨negative, spelledNat (whole ++ fraction), exponent - fraction.length⟩

/-- The double nearest to the magnitude of a literal. It is infinite from `10 ^ 309` on and
zero below `10 ^ -324`; both are told from the place of the leading digit, so that a huge
exponent costs nothing. -/
def magnitude (l : Literal) : Float :=
  let leading := l.exponent + (Nat.toDigits 10 l.digits).length
  if l.digits = 0 || leading < -323 then 0
  else if 309 < leading then 1 / 0
  else Float.ofScientific l.digits (l.exponent < 0) l.exponent.natAbs

/-- The double nearest to a literal. -/
def toFloat (l : Literal) : Float :=
  if l.negative then -l.magnitude else l.magnitude

end Literal

/-- Reads a number: a decimal literal, an infinity, or the word for what is no number. -/
def readNumber? (text : String) : Option Float :=
  if text = "inf" then some (1 / 0)
  else if text = "-inf" then some (-1 / 0)
  else if text = "NaN" then some (0 / 0)
  else (Literal.ofChars? text.toList).map Literal.toFloat

end FlatLisp.Decimal
