/-!
# The Shortest Decimal of a Binary Number

A finite binary number stands for all reals that round to it: the `Cell` of the number,
which reaches halfway to either neighbour. Of the decimals in its cell the one to write
is on the coarsest decimal grid that has a point in the cell, and of the points there the
one nearest to the number.

All arithmetic is exact. A cell is measured in units of a power of ten so small that the
number and both ends of the cell are whole, which is always possible because a power of
two with a negative exponent is a power of five over a power of ten.

## Main definitions

* `Cell.ofBits`: the cell of the magnitude that sixty-four bits stand for.
* `Cell.shortest`: the decimal of the cell on the coarsest grid.
-/

namespace FlatLisp.Decimal

/-- The decimal number `digits * 10 ^ exponent`. -/
structure Scaled where
  /-- The significant digits, read as a whole number. -/
  digits : Nat
  /-- The power of ten that they are multiplied by. -/
  exponent : Int
deriving DecidableEq, Repr

/-- The reals that round to one binary number. All three marks count units of
`10 ^ exponent`. -/
structure Cell where
  /-- Halfway to the neighbour below. -/
  lower : Nat
  /-- The number itself. -/
  value : Nat
  /-- Halfway to the neighbour above. -/
  upper : Nat
  /-- The two ends round to the number too; they do when its last bit is zero. -/
  closed : Bool
  /-- The power of ten that is the unit. -/
  exponent : Int
deriving DecidableEq, Repr

namespace Cell

/-- The cell of `significand * 2 ^ exponent`. Below a power of two the neighbours are twice
as close as above it, which `narrow` tells. The marks are multiples of a quarter of the
last bit. -/
def ofBinary (significand : Nat) (exponent : Int) (narrow : Bool) : Cell where
  lower := (4 * significand - if narrow then 1 else 2) * quarter
  value := 4 * significand * quarter
  upper := (4 * significand + 2) * quarter
  closed := significand % 2 == 0
  exponent := min (exponent - 2) 0
where
  /-- A quarter of the last bit, counted in the unit of the cell. -/
  quarter : Nat := Nat.pow 2 (exponent - 2).toNat * Nat.pow 5 (2 - exponent).toNat

/-- The cell of the magnitude of a finite number, from its binary interchange format: one
bit of sign, eleven of exponent and fifty-two of fraction, with a hidden leading bit unless
the exponent is zero. -/
def ofBits (bits : UInt64) : Cell :=
  let fraction : Nat := bits.toNat % Nat.pow 2 52
  let exponent : Nat := bits.toNat / Nat.pow 2 52 % Nat.pow 2 11
  if exponent = 0 then
    ofBinary fraction (-1074) false
  else
    ofBinary (Nat.pow 2 52 + fraction) ((exponent : Int) - 1075) (fraction == 0 && 1 < exponent)

/-- Whether a number of units lies in the cell. -/
def contains (c : Cell) (n : Nat) : Bool :=
  if c.closed then c.lower ≤ n && n ≤ c.upper else c.lower < n && n < c.upper

/-- The multiple of `grid` in the cell that is nearest to the number, divided by `grid`; of
two that are equally near, the upper one. Only the two multiples next to the number can be
nearest. -/
def nearest? (c : Cell) (grid : Nat) : Option Nat :=
  let below := c.value / grid
  match c.contains (below * grid), c.contains ((below + 1) * grid) with
  | true, true => some (if 2 * (c.value % grid) < grid then below else below + 1)
  | true, false => some below
  | false, true => some (below + 1)
  | false, false => none

/-- The decimal of the cell on the coarsest grid that has one, tried from `10 ^ places`
down to the unit. On the grid of the unit it is the number itself. -/
def coarsest (c : Cell) : Nat → Scaled
  | 0 => ⟨c.value, c.exponent⟩
  | places + 1 =>
    match c.nearest? (Nat.pow 10 (places + 1)) with
    | some digits => ⟨digits, c.exponent + (places + 1)⟩
    | none => c.coarsest places

/-- The decimal with the fewest digits in the cell, and among those the nearest to the
number. The first grid tried is the least power of ten above the number. -/
def shortest (c : Cell) : Scaled :=
  c.coarsest (Nat.toDigits 10 c.value).length

end Cell

end FlatLisp.Decimal
