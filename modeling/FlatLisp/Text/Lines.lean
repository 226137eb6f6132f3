/-!
# Lines

A text cut into its lines. A line keeps what ends it, so that the lines joined are the text.

## Main definitions

* `lines`: the lines of a text; the empty text is one empty line.

## Main results

* `flatten_lines`: the lines joined are the text.
-/

namespace FlatLisp.Text

/-- Whether a character ends a line: the line feed, the carriage return, vertical tab, form
feed, next line, and the line and paragraph separators. -/
def endsLine (c : Char) : Bool :=
  c == '\n' || c == '\r' || c == '\x0b' || c == '\x0c' || c == '\u0085' || c == '\u2028' ||
    c == '\u2029'

/-- Puts a character in front of the first line. -/
def consLine (c : Char) : List (List Char) → List (List Char)
  | [] => [[c]]
  | line :: rest => (c :: line) :: rest

/-- The lines of a text, none if it is empty. A carriage return and the line feed after it end
one line together. -/
def splitLines : List Char → List (List Char)
  | [] => []
  | c :: rest =>
    if endsLine c && !(c == '\r' && rest.head? == some '\n') then [c] :: splitLines rest
    else consLine c (splitLines rest)

/-- The lines of a text. The empty text is one empty line. -/
def lines (text : List Char) : List (List Char) :=
  match splitLines text with
  | [] => [[]]
  | all => all

@[simp] theorem flatten_consLine (c : Char) (all : List (List Char)) :
    (consLine c all).flatten = c :: all.flatten := by
  cases all <;> simp [consLine]

@[simp] theorem flatten_splitLines (text : List Char) : (splitLines text).flatten = text := by
  induction text with
  | nil => rfl
  | cons c rest ih =>
      rw [splitLines]
      split <;> simp [ih]

/-- The lines joined are the text. -/
theorem flatten_lines (text : List Char) : (lines text).flatten = text := by
  have h := flatten_splitLines text
  unfold lines
  split
  · next hnil => rw [hnil] at h; exact h
  · exact h

end FlatLisp.Text
