import FlatLisp.Text.Bytes

/-!
# Highlighting

A line is shown in colours while it is entered. Comments are grey; a parenthesis that closes
nothing is red; and when the cursor stands right after a parenthesis that has a partner, the
two are blue, the opening one bold. Everything else is left as it is.

The line is drawn in one pass. An opening parenthesis is drawn as it is, before it is known
whether it will be lit; if its partner is lit, the sequences are put around it afterwards, at the
place where it has been drawn.

## Main definitions

* `Highlight.styles`: the characters of a line, each with its style.
* `Highlight.render`: the line with its colour sequences.
* `Highlight.draw?`: the same in one pass over the line.

## Main results

* `Highlight.map_fst_styles`: the characters are those of the line.
-/

namespace FlatLisp.Highlight

/-- How a character is shown. -/
inductive Style where
  /-- As it is. -/
  | bare
  /-- In grey. -/
  | comment
  /-- In red. -/
  | unmatched
  /-- In bold blue. -/
  | opening
  /-- In blue. -/
  | closing
deriving DecidableEq, Repr

/-- What a character is in its line. -/
inductive Role where
  /-- A character of a comment. -/
  | comment
  /-- A closing parenthesis without a partner. -/
  | unmatched
  /-- The partner of the opening parenthesis at this byte offset. -/
  | closes (opening : Nat)
  /-- Any other character. -/
  | other
deriving DecidableEq, Repr

/-- A character with the byte offset at which it begins, and what it is. -/
structure Placed where
  /-- The character. -/
  char : Char
  /-- The byte offset at which it begins. -/
  offset : Nat
  /-- What it is. -/
  role : Role
deriving DecidableEq, Repr

/-- The characters of the rest of a line from `offset` on, in a comment if `comment`, with the
opening parentheses at the offsets in `stack` waiting for a partner, the last one first. -/
def place (comment : Bool) (stack : List Nat) (offset : Nat) : List Char → List Placed
  | [] => []
  | c :: rest =>
    let next := offset + c.utf8Size
    if comment || c == ';' then
      ⟨c, offset, .comment⟩ :: place (c != '\n') stack next rest
    else if c = '(' then
      ⟨c, offset, .other⟩ :: place false (offset :: stack) next rest
    else if c = ')' then
      match stack with
      | [] => ⟨c, offset, .unmatched⟩ :: place false [] next rest
      | opening :: stack => ⟨c, offset, .closes opening⟩ :: place false stack next rest
    else
      ⟨c, offset, .other⟩ :: place false stack next rest

/-- The offsets of the pair of parentheses of which one begins at the cursor, if there is such
a pair. -/
def pairAt? (cursor : Nat) (line : List Placed) : Option (Nat × Nat) :=
  line.findSome? fun p =>
    match p.role with
    | .closes opening =>
      if opening = cursor || p.offset = cursor then some (opening, p.offset) else none
    | _ => none

/-- How a character is shown when this pair of parentheses is lit. -/
def Placed.style (pair : Option (Nat × Nat)) (p : Placed) : Style :=
  match p.role with
  | .comment => .comment
  | .unmatched => .unmatched
  | _ =>
    match pair with
    | none => .bare
    | some (opening, closing) =>
      if p.offset = opening then .opening
      else if p.offset = closing then .closing
      else .bare

/-- The characters of a line, each with its style, when the cursor stands before the byte at
`cursor`. The parenthesis that counts is the one before the cursor, if it is one byte wide as
parentheses are. -/
def styles (line : List Char) (cursor : Nat) : List (Char × Style) :=
  let placed := place false [] 0 line
  let pair := match cursor with
    | 0 => none
    | before + 1 => pairAt? before placed
  placed.map fun p => (p.char, p.style pair)

/-- The colour sequence that a style begins with; the bare style has none. -/
def Style.sequence? : Style → Option String
  | bare => none
  | comment => some "\x1b[90m"
  | unmatched => some "\x1b[31m"
  | opening => some "\x1b[1;34m"
  | closing => some "\x1b[34m"

/-- A character in its style. Colours are reset after it. -/
def paint (c : Char) (style : Style) : String :=
  match style.sequence? with
  | none => String.singleton c
  | some sequence => sequence ++ String.singleton c ++ "\x1b[0m"

/-- A line with its colour sequences. -/
def render (line : String) (cursor : Nat) : String :=
  String.join ((styles line.toList cursor).map fun (c, style) => paint c style)

/-! ### Drawing in one pass -/

/-- A line that is being drawn. -/
structure Drawing where
  /-- Whether a comment is open. -/
  comment : Bool
  /-- The opening parentheses that wait for a partner, the last one first, each with its byte offset
  in the line and its byte offset in what is drawn. -/
  stack : List (Nat × Nat)
  /-- What is drawn. -/
  drawn : List Char

/-- Puts a text in the place of the one byte at an offset. It fails if a character does not begin
and end there. -/
def replaceByte? (offset : Nat) (new : List Char) : List Char → Option (List Char)
  | [] => none
  | c :: rest =>
    if offset = 0 then
      if c.utf8Size = 1 then some (new ++ rest) else none
    else if offset < c.utf8Size then none
    else (replaceByte? (offset - c.utf8Size) new rest).map (c :: ·)

/-- The byte before the cursor, if there is one. -/
def before? : Nat → Option Nat
  | 0 => none
  | before + 1 => some before

/-- Draws the character of a line that begins at `offset`, when the byte before the cursor is the
one at `before`. -/
def Drawing.add? (before : Option Nat) (offset : Nat) (c : Char) (d : Drawing) : Option Drawing :=
  if d.comment || c == ';' then
    some { d with comment := c != '\n', drawn := d.drawn ++ (paint c .comment).toList }
  else if c = '(' then
    some { d with
      stack := (offset, Text.byteLength d.drawn) :: d.stack
      drawn := d.drawn ++ [c] }
  else if c = ')' then
    match d.stack with
    | [] => some { d with drawn := d.drawn ++ (paint c .unmatched).toList }
    | (opening, place) :: outer =>
      if before = some opening || before = some offset then
        (replaceByte? place (paint '(' .opening).toList
          (d.drawn ++ (paint c .closing).toList)).map fun drawn =>
            { d with stack := outer, drawn }
      else some { d with stack := outer, drawn := d.drawn ++ [c] }
  else some { d with drawn := d.drawn ++ [c] }

/-- Draws the rest of a line from `offset` on. -/
def Drawing.addAll? (before : Option Nat) (offset : Nat) (d : Drawing) :
    List Char → Option Drawing
  | [] => some d
  | c :: rest => do
    let d ← d.add? before offset c
    d.addAll? before (offset + c.utf8Size) rest

/-- A line with its colour sequences, drawn in one pass. It fails if what is to be replaced is no
character of one byte. -/
def draw? (line : String) (cursor : Nat) : Option String := do
  let d ← Drawing.addAll? (before? cursor) 0 ⟨false, [], []⟩ line.toList
  some (String.ofList d.drawn)

/-! ### The characters of a line -/

theorem map_char_place (comment : Bool) (stack : List Nat) (offset : Nat) (line : List Char) :
    (place comment stack offset line).map Placed.char = line := by
  induction line generalizing comment stack offset with
  | nil => rfl
  | cons c rest ih =>
      unfold place
      dsimp only
      split
      · rw [List.map_cons, ih]
      · split
        · rw [List.map_cons, ih]
        · split
          · split <;> rw [List.map_cons, ih]
          · rw [List.map_cons, ih]

/-- The characters are those of the line, in order. -/
theorem map_fst_styles (line : List Char) (cursor : Nat) :
    (styles line cursor).map Prod.fst = line := by
  unfold styles
  rw [List.map_map]
  exact map_char_place false [] 0 line

end FlatLisp.Highlight
