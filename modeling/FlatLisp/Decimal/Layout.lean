import FlatLisp.Decimal.Shortest

/-!
# How Numbers Are Written

A number is written with the digits of its shortest decimal. What is left to decide is the
`Layout`: whether a whole number shows a point, and from which size on the exponent is
written instead of zeros.

## Main definitions

* `Layout.render`: the text of a number.
-/

namespace FlatLisp.Decimal

/-- The decisions of a number format. -/
structure Layout where
  /-- A whole number that is written without an exponent ends in `.0`. -/
  pointZero : Bool
  /-- A number is written without an exponent when the exponent of its leading digit is at
  least the first bound and below the second; with no bounds, always. -/
  positional : Option (Int × Int)
deriving DecidableEq, Repr

namespace Layout

/-- Digits and a power of ten, written with a point in its place and zeros up to it. -/
def spelled (layout : Layout) (digits : List Char) (exponent : Int) : List Char :=
  let point := exponent + digits.length
  if 0 ≤ exponent then
    digits ++ List.replicate exponent.toNat '0' ++ if layout.pointZero then ['.', '0'] else []
  else if point ≤ 0 then
    '0' :: '.' :: (List.replicate (-point).toNat '0' ++ digits)
  else
    digits.take point.toNat ++ '.' :: digits.drop point.toNat

/-- Digits with the point after the first, then the exponent of that digit. A lone digit has
no point. -/
def scientific (digits : List Char) (leading : Int) : List Char :=
  let mantissa := match digits with
    | first :: second :: more => first :: '.' :: second :: more
    | short => short
  mantissa ++ 'e' :: (toString leading).toList

/-- The digits of a decimal, laid out. Zero is always written without an exponent. -/
def layOut (layout : Layout) (d : Scaled) : List Char :=
  let digits := Nat.toDigits 10 d.digits
  let leading := d.exponent + digits.length - 1
  match layout.positional with
  | none => layout.spelled digits d.exponent
  | some (least, bound) =>
    if d.digits = 0 || (least ≤ leading && leading < bound) then
      layout.spelled digits d.exponent
    else
      scientific digits leading

/-- The text of a number: the fewest digits that are read back as the same number. Zero
keeps its sign, and only a number that is not one has none. -/
def render (layout : Layout) (x : Float) : String :=
  if x.isNaN then
    "NaN"
  else
    let magnitude :=
      if x.isInf then ['i', 'n', 'f']
      else if x == 0 then layout.layOut ⟨0, 0⟩
      else layout.layOut (Cell.ofBits x.toBits).shortest
    String.ofList (if Nat.pow 2 63 ≤ x.toBits.toNat then '-' :: magnitude else magnitude)

end Layout

end FlatLisp.Decimal
