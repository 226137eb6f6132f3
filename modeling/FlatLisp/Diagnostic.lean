import FlatLisp.ReadError
import FlatLisp.Text.Lines
import FlatLisp.Text.White

/-!
# Diagnostics

A reading error is shown under the line that it is in: the line, a mark under the token, and
a label at the middle of the mark.

The mark is placed by counting characters, with the byte offsets of the token as the counts.
In ASCII text the two agree; any other text before or in the token moves the mark to the
right, at worst out of the line or out of the text.

## Main definitions

* `Diagnostic.ofReadError`: what is to be shown of an error.
* `Diagnostic.render`: the drawing.
-/

namespace FlatLisp

/-- What is shown of a reading error. -/
structure Diagnostic where
  /-- What is wrong. -/
  title : String
  /-- Where, in characters of the text. -/
  span : Span
  /-- What would be right. -/
  label : String
deriving DecidableEq, Repr

namespace Diagnostic

/-- What is to be shown of an error in a text that takes `size` bytes. When the tokens end too
early, the place is the end of the text. -/
def ofReadError (size : Nat) : ReadError → Diagnostic
  | .unexpectedToken found expected =>
    ⟨"Unexpected token: " ++ found.display, found.span, "Expected " ++ expected.display⟩
  | .unexpectedEnd expected =>
    ⟨"Unexpected end of input", ⟨size, size⟩, "Expected " ++ expected.display⟩
  | .invalidWord text span =>
    ⟨"Invalid token: " ++ text, span, "Starts like a number but is not one"⟩

/-- A line of a text, with its place. -/
structure Line where
  /-- The number of the line, from one. -/
  number : Nat
  /-- The number of characters before it. -/
  start : Nat
  /-- Its characters, with what ends it. -/
  content : List Char
deriving DecidableEq, Repr

/-- The last of some lines that begins at or before a place, or `found` if none does. The first
of them is number `number` and begins at `start`. -/
def lineAt (place : Nat) (found : Line) (number start : Nat) : List (List Char) → Line
  | [] => found
  | line :: rest =>
    if start ≤ place then
      lineAt place ⟨number, start, line⟩ (number + 1) (start + line.length) rest
    else
      found

/-- The column width of the character that stands at a column: a tab reaches to the next
multiple of four characters. -/
def width (column : Nat) (c : Char) : Nat :=
  if c == '\t' then 4 - column % 4 else 1

/-- A character of a line as it is drawn: white space is drawn as spaces. -/
def drawn (column : Nat) (c : Char) : List Char :=
  if Text.isWhite c then List.replicate (width column c) ' ' else [c]

/-- A line from `column` on, as it is drawn. -/
def drawnLine (column : Nat) : List Char → List Char
  | [] => []
  | c :: rest => drawn column c ++ drawnLine (column + 1) rest

/-- A line without the white space at its end. -/
def trimEnd (line : List Char) : List Char :=
  (line.reverse.dropWhile Text.isWhite).reverse

/-- A row of `count` marks under a line, from `column` on: each mark is drawn with its first
character, and its second one fills the width of what stands above it. -/
def underline (mark : Nat → Char × Char) (column : Nat) : Nat → List Char → List Char
  | 0, _ => []
  | count + 1, line =>
    let span := match line with
      | c :: _ => width column c
      | [] => 1
    let (first, fill) := mark column
    first :: (List.replicate (span - 1) fill ++ underline mark (column + 1) count line.tail)

/-- The marks under a span that begins at column `start` and ends before `stop`, with the label
to hang at `middle`. -/
def spanMark (start stop middle column : Nat) : Char × Char :=
  let within := start ≤ column && column < stop
  if column = middle then
    if within then ('┬', '─') else ('│', ' ')
  else if within then ('─', '─')
  else (' ', ' ')

/-- The marks that lead from `middle` to the label at the right. -/
def labelMark (middle column : Nat) : Char × Char :=
  if column < middle then (' ', ' ')
  else if column = middle then ('╰', '─')
  else ('─', '─')

/-- The drawing of a diagnostic in its line: the line, the marks under it and the label. This is
exact for a span that ends in the line. One that reaches beyond the line, as it can where
characters take more bytes than one, is drawn as an empty row, though a drawing in full would go
over several lines. -/
def body (d : Diagnostic) (line : Line) (margin : String) : String :=
  if line.start + line.content.length < d.span.stop then
    margin ++ "│ \n"
  else
    let content := trimEnd line.content
    let start := d.span.start - line.start
    let stop := d.span.stop - line.start
    let middle := (d.span.start + d.span.stop) / 2 - line.start
    let row (mark : Nat → Char × Char) := String.ofList (underline mark 0 (stop + 2) content)
    " " ++ toString line.number ++ " │ " ++ String.ofList (drawnLine 0 content) ++ "\n" ++
      margin ++ "│ " ++ row (spanMark start stop middle) ++ "\n" ++
      margin ++ "│ " ++ row (labelMark middle) ++ " " ++ d.label ++ "\n"

/-- The drawing of a diagnostic for a text that comes from `source`. Of a span beyond the text
only the title is shown. -/
def render (d : Diagnostic) (source : String) (text : List Char) : String :=
  let title := "Error: " ++ d.title ++ "\n"
  if text.length < d.span.start || d.span.start < d.span.stop && text.length < d.span.stop - 1 then
    title
  else
    let line := lineAt d.span.start ⟨1, 0, []⟩ 1 0 (Text.lines text)
    let digits := (toString line.number).length
    let margin := String.ofList (List.replicate (digits + 2) ' ')
    let rule := String.ofList (List.replicate (digits + 2) '─')
    title ++ margin ++ "╭─[ " ++ source ++ ":" ++ toString line.number ++ ":" ++
      toString (d.span.start - line.start + 1) ++ " ]\n" ++ margin ++ "│\n" ++
      d.body line margin ++ rule ++ "╯\n"

end Diagnostic

/-- The drawing of a reading error in a text that comes from `source`. -/
def ReadError.report (e : ReadError) (source text : String) : String :=
  (Diagnostic.ofReadError text.utf8ByteSize e).render source text.toList

end FlatLisp
