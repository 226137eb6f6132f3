/-!
# Whether an Entry Is Complete

What is entered line by line is judged by its parentheses before it is read: one that closes
nothing is refused at once, and as long as one is open more is to come. A comment runs up to
the line feed, and parentheses in it do not count.

## Main definitions

* `Verdict.ofText`: the verdict on what has been entered so far.
-/

namespace FlatLisp

/-- The verdict on what has been entered so far. -/
inductive Verdict where
  /-- It can be read. -/
  | complete
  /-- A parenthesis is open. -/
  | incomplete
  /-- The parenthesis after so many characters closes nothing. -/
  | unmatched (position : Nat)
deriving DecidableEq, Repr

namespace Verdict

/-- The verdict on the rest of an entry, after `position` characters that left `depth`
parentheses open, and a comment if `comment`. -/
def scan (comment : Bool) (depth position : Nat) : List Char → Verdict
  | [] => if depth = 0 then complete else incomplete
  | c :: rest =>
    if comment then scan (c != '\n') depth (position + 1) rest
    else if c = ';' then scan true depth (position + 1) rest
    else if c = '(' then scan false (depth + 1) (position + 1) rest
    else if c = ')' then
      match depth with
      | 0 => unmatched position
      | depth + 1 => scan false depth (position + 1) rest
    else scan false depth (position + 1) rest

/-- The verdict on an entry. -/
def ofText (text : List Char) : Verdict :=
  scan false 0 0 text

/-- What is said of a parenthesis that closes nothing. -/
def unmatchedMessage (position : Nat) : String :=
  "  - Unmatched ')' at position " ++ toString position

end Verdict

end FlatLisp
