import FlatLisp.Expr
import FlatLisp.ReadError

/-!
# Reading Expressions

An expression is a word, or `()`, or a list: in parentheses a word for its head, then its
children. Tokens are read from the left, with the lists that are still open on a stack, and
reading stops at the token that completes the first expression or that cannot go on.

## Main definitions

* `Expr.read`: the first expression of a row of tokens, and the tokens after it.
* `Expr.ofTokens`, `Expr.ofText`: the expression that a whole row of tokens, or a whole text,
  is.
-/

namespace FlatLisp

/-- A list that is open. -/
inductive Frame where
  /-- Only its parenthesis has been read. -/
  | opened
  /-- Its head has been read, and children, the last one first. -/
  | headed (head : Atom) (children : List Expr)

namespace Expr

/-- What one token makes of the lists that are open. -/
inductive Step where
  /-- The first expression is complete. -/
  | complete (e : Expr)
  /-- These lists are open now, the innermost first. -/
  | pending (stack : List Frame)

/-- Hands an expression to the innermost open list; with none, it is the one that was to be
read. -/
def deliver (e : Expr) : List Frame → Step
  | [] => .complete e
  | .opened :: outer => .pending (.opened :: outer)
  | .headed head children :: outer => .pending (.headed head (e :: children) :: outer)

/-- One more token. -/
def advance (token : Token) (stack : List Frame) : Except ReadError Step :=
  match token.kind, stack with
  | .opening, .opened :: _ => .error (.unexpectedToken token .head)
  | .opening, _ => .ok (.pending (.opened :: stack))
  | .closing, [] => .error (.unexpectedToken token .atomOrList)
  | .closing, .opened :: outer => .ok (deliver empty outer)
  | .closing, .headed head children :: outer => .ok (deliver ⟨some head, children.reverse⟩ outer)
  | .word text, _ =>
    match Atom.ofText? text, stack with
    | none, _ => .error (.invalidWord text token.span)
    | some atom, .opened :: outer => .ok (.pending (.headed atom [] :: outer))
    | some atom, _ => .ok (deliver (leaf atom) stack)

/-- What is missing when the tokens end inside these lists. -/
def missing : List Frame → Expected
  | [] => .expression
  | _ => .closing

/-- Reads on with some lists open: the outcome, and the tokens after the one it was decided
at. -/
def readFrom (stack : List Frame) : List Token → Except ReadError Expr × List Token
  | [] => (.error (.unexpectedEnd (missing stack)), [])
  | token :: rest =>
    match advance token stack with
    | .error e => (.error e, rest)
    | .ok (.complete e) => (.ok e, rest)
    | .ok (.pending stack) => readFrom stack rest

/-- Reads the first expression of a row of tokens. The second part of the answer is the tokens
that were not used; when reading fails, the token that it fails at is used. -/
def read (tokens : List Token) : Except ReadError Expr × List Token :=
  readFrom [] tokens

/-- Reads up to `count` times from one row of tokens, going on after failures: the outcomes in
order, and the tokens that were not used. -/
def readTimes : Nat → List Token → List (Except ReadError Expr) × List Token
  | 0, tokens => ([], tokens)
  | count + 1, tokens =>
    let (outcome, rest) := read tokens
    let (outcomes, unused) := readTimes count rest
    (outcome :: outcomes, unused)

/-- The expression that a whole row of tokens is. -/
def ofTokens (tokens : List Token) : Except ReadError Expr :=
  match read tokens with
  | (.error e, _) => .error e
  | (.ok e, []) => .ok e
  | (.ok _, token :: _) => .error (.unexpectedToken token .endOfInput)

/-- The expression that a text is. -/
def ofText (text : String) : Except ReadError Expr :=
  ofTokens (Token.ofText text)

end Expr

end FlatLisp
