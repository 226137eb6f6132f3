import FlatLisp.Decimal.Layout
import FlatLisp.Decimal.Literal
import FlatLisp.Text.Quoted

/-!
# Atoms

An atom is a number, a boolean or a symbol. It is what a word of a program stands for, and
what a procedure takes and gives.

## Main definitions

* `Atom.ofText?`: the atom that a word stands for.
* `Atom.display`, `Atom.inspect`: the text of an atom in a result, and in a message for the
  programmer.
* `Atom.alike`: equality as programs see it.
-/

namespace FlatLisp

/-- The sorts of atoms. -/
inductive AtomType where
  /-- Double precision numbers. -/
  | number
  /-- Truth values. -/
  | boolean
  /-- Names. -/
  | symbol
deriving DecidableEq, Repr

/-- The name of a sort of atoms in messages. -/
def AtomType.name : AtomType → String
  | .number => "number"
  | .boolean => "boolean"
  | .symbol => "symbol"

/-- An indivisible value. -/
inductive Atom where
  /-- A double precision number. -/
  | number (value : Float)
  /-- A truth value. -/
  | boolean (value : Bool)
  /-- A name, of any characters at all. -/
  | symbol (name : String)
deriving DecidableEq

namespace Atom

/-- The sort of an atom. -/
def type : Atom → AtomType
  | number _ => .number
  | boolean _ => .boolean
  | symbol _ => .symbol

/-- The number that an atom is. -/
def number? : Atom → Option Float
  | number x => some x
  | _ => none

/-- The truth value that an atom is. -/
def boolean? : Atom → Option Bool
  | boolean b => some b
  | _ => none

/-- The atom that a word stands for. A decimal literal is a number and `True` and `False` are
booleans; of all other words those are symbols that do not open with a digit. The empty word
stands for nothing. -/
def ofText? (text : String) : Option Atom :=
  match Decimal.Literal.ofChars? text.toList with
  | some literal => some (number literal.toFloat)
  | none =>
    match text.toList with
    | [] => none
    | first :: _ =>
      if first.isDigit then none
      else if text = "True" then some (boolean true)
      else if text = "False" then some (boolean false)
      else some (symbol text)

/-- Numbers in results have no exponent, and whole ones no point. -/
def displayedNumber : Decimal.Layout := ⟨false, none⟩

/-- Numbers in messages for the programmer show that they are no integers: whole ones end in
`.0`, and those below `10 ^ -4` or from `10 ^ 16` on have an exponent. -/
def inspectedNumber : Decimal.Layout := ⟨true, some (-4, 16)⟩

/-- The text of an atom in a result. -/
def display : Atom → String
  | number x => displayedNumber.render x
  | boolean true => "True"
  | boolean false => "False"
  | symbol name => name

/-- The text of an atom in a message for the programmer. -/
def inspect : Atom → String
  | number x => "Number(" ++ inspectedNumber.render x ++ ")"
  | boolean true => "Boolean(true)"
  | boolean false => "Boolean(false)"
  | symbol name => "Symbol(" ++ Text.quote name ++ ")"

/-- The text of a row of atoms in a message for the programmer. -/
def inspectAll (atoms : List Atom) : String :=
  "[" ++ ", ".intercalate (atoms.map inspect) ++ "]"

/-- Equality as programs see it. Numbers compare as IEEE 754 has it, so that the two zeros are
alike and what is not a number is not even like itself. -/
def alike : Atom → Atom → Bool
  | number x, number y => x == y
  | boolean a, boolean b => a == b
  | symbol s, symbol t => s == t
  | _, _ => false

end Atom

end FlatLisp
