import FlatLisp.Token

/-!
# Tokens of a Text in Pieces

The scanner reads a character at a time, so that what it does is one step and a run of steps:
a character completes some tokens (`Mode.emitted`) and changes what the scanner stands in
(`Mode.after`). Two facts follow by induction over the text.

A text that stands further back has the same tokens, further back. And a line break separates: it
ends a word and it ends a comment, so that the scanner begins anew after it, and the tokens of
two pieces with a line break in between are those of the pieces.

## Main results

* `Token.scan_cons`, `Token.scan_append`: the scanner, step by step and piece by piece.
* `Token.scan_move`: the tokens of a text that stands further back.
* `Token.scan_append_lineBreak`: a line break separates.
* `Token.ofText_append_lineEnding`: the same for whole texts, with any line ending.
-/

namespace FlatLisp

open Text

/-- What can end a line. -/
inductive LineEnding where
  /-- A line feed. -/
  | lineFeed
  /-- A carriage return. -/
  | carriageReturn
  /-- A carriage return and a line feed. -/
  | both
deriving DecidableEq, Repr

/-- The text of a line ending. -/
def LineEnding.text : LineEnding → String
  | lineFeed => "\n"
  | carriageReturn => "\r"
  | both => "\r\n"

/-! ### Places further back -/

/-- The span that is `k` bytes further back. -/
def Span.move (k : Nat) (s : Span) : Span := ⟨s.start + k, s.stop + k⟩

namespace Token

/-- The token that stands `k` bytes further back. -/
def move (k : Nat) (t : Token) : Token := ⟨t.kind, t.span.move k⟩

/-- What the scanner stands in, `k` bytes further back. -/
def Mode.move (k : Nat) : Mode → Mode
  | between => between
  | comment => comment
  | word start text => word (start + k) text

/-! ### One character -/

/-- The tokens that a character at `offset` completes. -/
def Mode.emitted (offset : Nat) (c : Char) (mode : Mode) : List Token :=
  if mode = comment then []
  else if isBlank c ∨ c = ';' then mode.ended offset
  else if c = '(' then mode.ended offset ++ [⟨.opening, ⟨offset, offset + c.utf8Size⟩⟩]
  else if c = ')' then mode.ended offset ++ [⟨.closing, ⟨offset, offset + c.utf8Size⟩⟩]
  else []

/-- What the scanner stands in after a character at `offset`. -/
def Mode.after (offset : Nat) (c : Char) (mode : Mode) : Mode :=
  if mode = comment then if isLineBreak c then between else comment
  else if isBlank c then between
  else if c = ';' then comment
  else if c = '(' ∨ c = ')' then between
  else mode.extended offset c

theorem scan_nil (mode : Mode) (offset : Nat) : scan mode offset [] = mode.ended offset := rfl

/-- The scanner, step by step. -/
theorem scan_cons (mode : Mode) (offset : Nat) (c : Char) (rest : List Char) :
    scan mode offset (c :: rest) =
      mode.emitted offset c ++ scan (mode.after offset c) (offset + c.utf8Size) rest := by
  rw [scan, Mode.emitted, Mode.after]
  by_cases hmode : mode = .comment
  · simp [hmode]
  by_cases hblank : isBlank c = true
  · simp [hmode, hblank]
  by_cases hsemicolon : c = ';'
  · subst hsemicolon
    simp [hmode, isBlank]
  by_cases hopening : c = '('
  · subst hopening
    simp [hmode, isBlank]
  by_cases hclosing : c = ')'
  · subst hclosing
    simp [hmode, isBlank]
  · simp [hmode, hblank, hsemicolon, hopening, hclosing]

/-! ### Pieces of a text -/

/-- The tokens that a text at `offset` completes. -/
def Mode.emittedText (mode : Mode) (offset : Nat) : List Char → List Token
  | [] => []
  | c :: rest =>
    mode.emitted offset c ++ (mode.after offset c).emittedText (offset + c.utf8Size) rest

/-- What the scanner stands in after a text at `offset`. -/
def Mode.afterText (mode : Mode) (offset : Nat) : List Char → Mode
  | [] => mode
  | c :: rest => (mode.after offset c).afterText (offset + c.utf8Size) rest

/-- The scanner, piece by piece. -/
theorem scan_append (mode : Mode) (offset : Nat) (front back : List Char) :
    scan mode offset (front ++ back) =
      mode.emittedText offset front ++
        scan (mode.afterText offset front) (offset + byteLength front) back := by
  induction front generalizing mode offset with
  | nil => rfl
  | cons c front ih =>
      rw [List.cons_append, scan_cons, ih, Mode.emittedText, Mode.afterText, byteLength_cons,
        List.append_assoc, Nat.add_assoc]

theorem Mode.afterText_append (mode : Mode) (offset : Nat) (front back : List Char) :
    mode.afterText offset (front ++ back) =
      (mode.afterText offset front).afterText (offset + byteLength front) back := by
  induction front generalizing mode offset with
  | nil => rfl
  | cons c front ih =>
      rw [List.cons_append, afterText, ih, afterText, byteLength_cons, Nat.add_assoc]

section

variable (k offset : Nat) (c : Char) (mode : Mode)

@[simp] theorem Mode.move_eq_comment_iff : mode.move k = comment ↔ mode = comment := by
  cases mode <;> simp [move]

theorem Mode.ended_move : (mode.move k).ended (offset + k) = (mode.ended offset).map (.move k) := by
  cases mode <;> rfl

theorem Mode.extended_move :
    (mode.move k).extended (offset + k) c = (mode.extended offset c).move k := by
  cases mode <;> rfl

theorem Mode.emitted_move :
    (mode.move k).emitted (offset + k) c = (mode.emitted offset c).map (.move k) := by
  have hstop : offset + k + c.utf8Size = offset + c.utf8Size + k := by omega
  simp only [emitted, move_eq_comment_iff, ended_move, hstop]
  split
  · rfl
  split
  · rfl
  split
  · rw [List.map_append]
    rfl
  split
  · rw [List.map_append]
    rfl
  · rfl

theorem Mode.after_move :
    (mode.move k).after (offset + k) c = (mode.after offset c).move k := by
  simp only [after, move_eq_comment_iff, extended_move]
  by_cases hmode : mode = comment
  · rw [if_pos hmode, if_pos hmode]
    split <;> rfl
  · rw [if_neg hmode, if_neg hmode]
    split
    · rfl
    split
    · rfl
    split
    · rfl
    · rfl

end

/-! ### Whole texts -/

/-- A text that stands further back has the same tokens, further back. -/
theorem scan_move (k : Nat) (mode : Mode) (offset : Nat) (text : List Char) :
    scan (mode.move k) (offset + k) text = (scan mode offset text).map (.move k) := by
  induction text generalizing mode offset with
  | nil => exact mode.ended_move k offset
  | cons c rest ih =>
      have hoffset : offset + k + c.utf8Size = offset + c.utf8Size + k := by omega
      rw [scan_cons, scan_cons, List.map_append, Mode.emitted_move, Mode.after_move, hoffset, ih]

theorem isBlank_of_isLineBreak {c : Char} (h : isLineBreak c = true) : isBlank c = true := by
  rw [isLineBreak, Bool.or_eq_true, beq_iff_eq, beq_iff_eq] at h
  rcases h with rfl | rfl
  · rfl
  · rfl

/-- A line break ends whatever the scanner stands in. -/
theorem Mode.after_lineBreak {c : Char} (h : isLineBreak c = true) (offset : Nat) (mode : Mode) :
    mode.after offset c = between := by
  rw [after, if_pos h, if_pos (isBlank_of_isLineBreak h)]
  split
  · rfl
  · rfl

/-- A line break completes what the end of the text would complete. -/
theorem Mode.emitted_lineBreak {c : Char} (h : isLineBreak c = true) (offset : Nat)
    (mode : Mode) : mode.emitted offset c = mode.ended offset := by
  rw [emitted, if_pos (Or.inl (isBlank_of_isLineBreak h))]
  cases mode <;> simp [ended]

/-- **A line break separates**: the tokens of a text with a line break in it are those of the
piece in front of it and those of the piece after it. -/
theorem scan_append_lineBreak {c : Char} (h : isLineBreak c = true) (mode : Mode) (offset : Nat)
    (front back : List Char) :
    scan mode offset (front ++ c :: back) =
      scan mode offset front ++
        scan .between (offset + byteLength front + c.utf8Size) back := by
  have hfront := scan_append mode offset front []
  rw [List.append_nil, scan_nil] at hfront
  rw [scan_append, scan_cons, Mode.emitted_lineBreak h, Mode.after_lineBreak h, hfront,
    List.append_assoc]

/-- A line ending separates, too: after a carriage return the line feed is a blank. -/
theorem scan_append_lineEnding (mode : Mode) (offset : Nat) (front : List Char)
    (ending : LineEnding) (back : List Char) :
    scan mode offset (front ++ (ending.text.toList ++ back)) =
      scan mode offset front ++
        scan .between (offset + byteLength (front ++ ending.text.toList)) back := by
  rw [byteLength_append, ← Nat.add_assoc]
  cases ending with
  | lineFeed => exact scan_append_lineBreak (c := '\n') rfl mode offset front back
  | carriageReturn => exact scan_append_lineBreak (c := '\r') rfl mode offset front back
  | both =>
      have hseam := scan_append_lineBreak (c := '\r') rfl mode offset front ('\n' :: back)
      rw [scan_cons] at hseam
      exact hseam

/-- **The tokens of two texts with a line ending in between** are those of both. Those of the second
stand further back by the length of the first and of the ending. -/
theorem ofText_append_lineEnding (front back : String) (ending : LineEnding) :
    ofText (front ++ ending.text ++ back) =
      ofText front ++ (ofText back).map (.move (byteLength (front ++ ending.text).toList)) := by
  have hmove := scan_move (byteLength (front ++ ending.text).toList) .between 0 back.toList
  have hseam := scan_append_lineEnding .between 0 front.toList ending back.toList
  rw [ofText, ofText, ofText, ← hmove, String.toList_append, String.toList_append,
    List.append_assoc]
  exact hseam

/-- The tokens of two texts with a line feed in between: those of the second stand further back
by the length of the first and of the line feed. -/
theorem ofText_append_newline (front back : String) :
    ofText (front ++ "\n" ++ back) =
      ofText front ++ (ofText back).map (.move (byteLength front.toList + 1)) := by
  have h := ofText_append_lineEnding front back .lineFeed
  rw [String.toList_append, byteLength_append] at h
  exact h

end Token

end FlatLisp
