/-!
# White Space

The twenty-five characters with the Unicode property `White_Space`, and a text without those
at its ends. This set is larger than the set of blanks that part tokens, which
`FlatLisp.Token` defines.
-/

namespace FlatLisp.Text

/-- The characters with the property `White_Space`, as closed ranges of code points in
ascending order. -/
def whiteRanges : List (Nat × Nat) :=
  [(0x09, 0x0D), (0x20, 0x20), (0x85, 0x85), (0xA0, 0xA0), (0x1680, 0x1680), (0x2000, 0x200A),
    (0x2028, 0x2029), (0x202F, 0x202F), (0x205F, 0x205F), (0x3000, 0x3000)]

/-- Whether a code point lies in one of the ranges. -/
def inRanges (ranges : List (Nat × Nat)) (point : Nat) : Bool :=
  ranges.any fun range => range.1 ≤ point && point ≤ range.2

/-- Whether a character is white space. -/
def isWhite (c : Char) : Bool :=
  inRanges whiteRanges c.toNat

/-- A text without the white space at its ends. -/
def trim (text : List Char) : List Char :=
  ((text.dropWhile isWhite).reverse.dropWhile isWhite).reverse

end FlatLisp.Text
