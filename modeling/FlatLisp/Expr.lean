import FlatLisp.Atom

/-!
# Expressions

An expression is a tree with an atom at each node. The empty expression has no head: it is
what `()` reads as and what evaluation gives when there is nothing to give. A word on its own
and the same word alone in parentheses are one expression, a head without children.

## Main definitions

* `Expr.display`, `Expr.inspect`: the text of an expression in a result, where only the head
  shows, and in a message for the programmer, where the whole tree does.
* `Expr.alike`, `Expr.deepAlike`: equality of heads and numbers of children, and equality of
  whole trees.
-/

namespace FlatLisp

/-- A tree of atoms. -/
structure Expr where
  /-- The atom at the root, if there is one. -/
  head : Option Atom
  /-- The subtrees, in order. -/
  children : List Expr

namespace Expr

/-- The expression without head or children. -/
def empty : Expr := ⟨none, []⟩

instance : Inhabited Expr := ⟨empty⟩

/-- The expression of a lone atom. -/
def leaf (atom : Atom) : Expr := ⟨some atom, []⟩

/-- Whether an expression has no head, whatever its children. -/
def isEmpty (e : Expr) : Bool := e.head.isNone

/-- The text of an expression in a result: its head in parentheses. -/
def display (e : Expr) : String :=
  match e.head with
  | some atom => "(" ++ atom.display ++ ")"
  | none => "()"

/-- The text of a head in a message for the programmer. -/
def inspectHead : Option Atom → String
  | some atom => "Some(" ++ atom.inspect ++ ")"
  | none => "None"

mutual

/-- The text of a whole tree in a message for the programmer. -/
def inspect : Expr → String
  | ⟨head, children⟩ =>
    "Expression \x7b head: " ++ inspectHead head ++ ", tail: [" ++
      ", ".intercalate (inspectEach children) ++ "] \x7d"

/-- The texts of a row of trees. -/
def inspectEach : List Expr → List String
  | [] => []
  | e :: rest => e.inspect :: inspectEach rest

end

/-- Equality of two heads. -/
def headsAlike : Option Atom → Option Atom → Bool
  | some a, some b => a.alike b
  | none, none => true
  | _, _ => false

/-- Equality at the root: alike heads and equally many children, which may differ. -/
def alike (a b : Expr) : Bool :=
  headsAlike a.head b.head && a.children.length == b.children.length

mutual

/-- Equality of whole trees: alike heads at every node, and the same shape. -/
def deepAlike : Expr → Expr → Bool
  | ⟨h, cs⟩, ⟨k, ds⟩ => headsAlike h k && deepAlikeEach cs ds

/-- Equality of two rows of trees, one by one. -/
def deepAlikeEach : List Expr → List Expr → Bool
  | [], [] => true
  | c :: cs, d :: ds => deepAlike c d && deepAlikeEach cs ds
  | _, _ => false

end

end Expr

end FlatLisp
