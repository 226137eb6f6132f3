import FlatLisp.Eval
import FlatLisp.Token

/-!
# Completion

While a name is entered, what is missing of the names that it can become is offered. The name
has to reach up to the cursor.

## Main definitions

* `Completion.candidates`: what is offered at a place of a line.
* `Completion.complete`: the same, and where it is to be put.
-/

namespace FlatLisp.Completion

/-- The names that an expression can begin with: the special forms and what the scope binds. -/
def vocabulary (env : Env) : List String :=
  (SpecialForm.all.map SpecialForm.name ++ env.names).eraseDups

/-- What follows a beginning in a name, unless it is nothing. -/
def remainder? (beginning name : String) : Option String :=
  match beginning.toList.isPrefixOf? name.toList with
  | some (c :: rest) => some (String.ofList (c :: rest))
  | _ => none

/-- The name that is being entered in a text: its last token, if that is a word and ends where
the text does. -/
def current? (text : List Char) : Option String :=
  match (Token.scan .between 0 text).getLast? with
  | some ⟨.word name, span⟩ => if span.stop = Text.byteLength text then some name else none
  | _ => none

/-- What is offered at a byte offset of a line, in ascending order. -/
def candidates (env : Env) (line : String) (offset : Nat) : List String :=
  match current? (Text.takeBytes offset line.toList) with
  | some name => ((vocabulary env).filterMap (remainder? name)).mergeSort
  | none => []

/-- Where what is offered is to be put, and what is offered. -/
def complete (env : Env) (line : String) (offset : Nat) : Nat × List String :=
  (offset, candidates env line offset)

end FlatLisp.Completion
