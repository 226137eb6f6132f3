import FlatLisp.Proofs.Tokens

/-!
# Words and Places

Every token stands somewhere in its text: the span that it carries is the range of bytes that its
own characters take there. And the word of a token is a word: it is not empty, and no character
of it parts words, so that by itself it is read as that one token again.

Both follow from what the scanner knows of the word that it is in (`Mode.Stands`), which each
character keeps.

## Main definitions

* `Token.IsWord`: the texts that are one word.
* `Token.Stands`: a token stands in a text at its span.

## Main results

* `Token.stands_of_mem_ofText`: every token of a text stands in it.
* `Token.ofText_of_isWord`: a word by itself is one token.
-/

namespace FlatLisp

open Text

namespace Token

/-- Whether a character can be part of a word. -/
def isWordChar (c : Char) : Bool :=
  !(isBlank c || c == ';' || c == '(' || c == ')')

/-- The texts that are one word: at least one character, and none that parts words. -/
def IsWord (text : String) : Prop :=
  text.toList ≠ [] ∧ ∀ c ∈ text.toList, isWordChar c = true

/-- A token stands in a text: the bytes of its span are those of its characters, and if it is a
word, its text is one. -/
structure Stands (text : List Char) (t : Token) : Prop where
  /-- What is in front of it and after it in the text. -/
  place : ∃ front back, text = front ++ t.display.toList ++ back ∧
    t.span = ⟨byteLength front, byteLength front + byteLength t.display.toList⟩
  /-- A word is one. -/
  word : ∀ w, t.kind = .word w → IsWord w

/-- What the scanner knows after `front` of the word that it is in: where it began, and that it
is a word so far. -/
def Mode.Stands (front : List Char) : Mode → Prop
  | word start text => IsWord text ∧ ∃ before, front = before ++ text.toList ∧
      start = byteLength before
  | _ => True

theorem display_opening (s : Span) : (Token.mk .opening s).display.toList = ['('] :=
  (rfl : "(".toList = ['('])

theorem display_closing (s : Span) : (Token.mk .closing s).display.toList = [')'] :=
  (rfl : ")".toList = [')'])

theorem isWordChar_iff {c : Char} :
    isWordChar c = true ↔ isBlank c = false ∧ c ≠ ';' ∧ c ≠ '(' ∧ c ≠ ')' := by
  simp [isWordChar, and_assoc]

/-! ### One character -/

section

variable {front : List Char} {mode : Mode} {t : Token} {c : Char}

/-- The word that ends here stands in the text. -/
theorem Mode.Stands.ended (h : mode.Stands front) (back : List Char)
    (ht : t ∈ mode.ended (byteLength front)) : t.Stands (front ++ back) := by
  cases mode with
  | between => simp [Mode.ended] at ht
  | comment => simp [Mode.ended] at ht
  | word start text =>
      obtain ⟨hword, before, rfl, rfl⟩ := h
      obtain rfl := List.mem_singleton.mp ht
      refine ⟨⟨before, back, rfl, ?_⟩, fun w hw => ?_⟩
      · rw [byteLength_append]
        rfl
      · cases hw
        exact hword

/-- A parenthesis stands where its character does. -/
theorem stands_of_singleton {kind : Kind} {back : List Char}
    (hdisplay : kind.display.toList = [c]) (hword : ∀ w, kind ≠ .word w) :
    Stands (front ++ c :: back) ⟨kind, ⟨byteLength front, byteLength front + c.utf8Size⟩⟩ := by
  refine ⟨⟨front, back, ?_, ?_⟩, fun w hw => absurd hw (hword w)⟩
  · rw [display, hdisplay, List.append_assoc, List.singleton_append]
  · rw [display, hdisplay]
    rfl

/-- What a character completes stands in the text. -/
theorem Mode.Stands.emitted (h : mode.Stands front) (back : List Char)
    (ht : t ∈ mode.emitted (byteLength front) c) : t.Stands (front ++ c :: back) := by
  unfold Mode.emitted at ht
  split at ht
  · cases ht
  split at ht
  · exact h.ended (c :: back) ht
  split at ht
  · next hopening =>
      rcases List.mem_append.mp ht with hended | hnew
      · exact h.ended (c :: back) hended
      · obtain rfl := List.mem_singleton.mp hnew
        exact stands_of_singleton (by rw [hopening]; rfl) (by simp)
  split at ht
  · next hclosing =>
      rcases List.mem_append.mp ht with hended | hnew
      · exact h.ended (c :: back) hended
      · obtain rfl := List.mem_singleton.mp hnew
        exact stands_of_singleton (by rw [hclosing]; rfl) (by simp)
  · cases ht

/-- A character of a word keeps it a word. -/
theorem Mode.Stands.extended (h : mode.Stands front) (hc : isWordChar c = true) :
    (mode.extended (byteLength front) c).Stands (front ++ [c]) := by
  have hnew : (Mode.word (byteLength front) (String.singleton c)).Stands (front ++ [c]) :=
    ⟨⟨by simp, by simpa using hc⟩, front, by simp, rfl⟩
  cases mode with
  | between => exact hnew
  | comment => exact hnew
  | word start text =>
      obtain ⟨⟨hne, hall⟩, before, rfl, rfl⟩ := h
      refine ⟨⟨by simp, fun d hd => ?_⟩, before, by simp, rfl⟩
      rw [String.toList_push, List.mem_append] at hd
      rcases hd with hd | hd
      · exact hall d hd
      · rw [List.mem_singleton.mp hd]
        exact hc

/-- Every character keeps what the scanner knows of its word. -/
theorem Mode.Stands.after (h : mode.Stands front) (c : Char) :
    (mode.after (byteLength front) c).Stands (front ++ [c]) := by
  unfold Mode.after
  split
  · split <;> trivial
  split
  · trivial
  split
  · trivial
  split
  · trivial
  · next hblank hsemicolon hparen =>
      rw [not_or] at hparen
      exact h.extended (isWordChar_iff.mpr ⟨by simpa using hblank, hsemicolon, hparen⟩)

end

/-! ### Whole texts -/

/-- What the scanner finds in the rest of a text stands in the text. -/
theorem Mode.Stands.scan {front : List Char} {mode : Mode} {t : Token} (h : mode.Stands front)
    (rest : List Char) (ht : t ∈ scan mode (byteLength front) rest) : t.Stands (front ++ rest) := by
  induction rest generalizing front mode with
  | nil => exact h.ended [] ht
  | cons c rest ih =>
      rw [scan_cons, List.mem_append] at ht
      rcases ht with hemitted | hrest
      · exact h.emitted rest hemitted
      · have hoffset : byteLength front + c.utf8Size = byteLength (front ++ [c]) := by simp
        rw [hoffset] at hrest
        have hstands := ih (h.after c) hrest
        rw [List.append_assoc] at hstands
        exact hstands

/-- **Every token of a text stands in it**, at its span. -/
theorem stands_of_mem_ofText {text : String} {t : Token} (h : t ∈ ofText text) :
    t.Stands text.toList := by
  have hbetween : Mode.between.Stands [] := trivial
  exact hbetween.scan text.toList h

/-- Outside a comment a character of a word goes to the word, and completes nothing. -/
theorem scan_cons_of_isWordChar {mode : Mode} {c : Char} (hmode : mode ≠ .comment)
    (hc : isWordChar c = true) (offset : Nat) (rest : List Char) :
    scan mode offset (c :: rest) = scan (mode.extended offset c) (offset + c.utf8Size) rest := by
  obtain ⟨hblank, hsemicolon, hopening, hclosing⟩ := isWordChar_iff.mp hc
  rw [scan_cons]
  simp [Mode.emitted, Mode.after, hmode, hblank, hsemicolon, hopening, hclosing]

/-- The characters of a word make the word longer that the scanner is in. -/
theorem scan_word_append {start : Nat} {text : String} {more : List Char}
    (h : ∀ c ∈ more, isWordChar c = true) (offset : Nat) (rest : List Char) :
    scan (.word start text) offset (more ++ rest) =
      scan (.word start (text ++ String.ofList more)) (offset + byteLength more) rest := by
  induction more generalizing offset text with
  | nil => simp
  | cons c more ih =>
      have htext : text.push c ++ String.ofList more = text ++ String.ofList (c :: more) := by
        apply String.toList_injective
        simp
      rw [List.cons_append, scan_cons_of_isWordChar (by simp) (h c (List.mem_cons_self ..)),
        Mode.extended, ih fun d hd => h d (List.mem_cons_of_mem c hd), htext, byteLength_cons,
        Nat.add_assoc]

/-- At the beginning of a word the scanner takes all of it. -/
theorem scan_isWord_append {w : String} (h : IsWord w) (offset : Nat) (rest : List Char) :
    scan .between offset (w.toList ++ rest) =
      scan (.word offset w) (offset + byteLength w.toList) rest := by
  obtain ⟨hne, hall⟩ := h
  obtain ⟨c, more, htext⟩ := List.exists_cons_of_ne_nil hne
  rw [htext] at hall ⊢
  have hword : String.singleton c ++ String.ofList more = w := by
    apply String.toList_injective
    simp [htext]
  have hextended : Mode.between.extended offset c = .word offset (String.singleton c) := rfl
  rw [List.cons_append, scan_cons_of_isWordChar (by simp) (hall c (List.mem_cons_self ..)),
    hextended, scan_word_append fun d hd => hall d (List.mem_cons_of_mem c hd), hword,
    byteLength_cons, Nat.add_assoc]

/-- **A word by itself is one token.** -/
theorem ofText_of_isWord {text : String} (h : IsWord text) :
    ofText text = [⟨.word text, ⟨0, byteLength text.toList⟩⟩] := by
  have hscan := scan_isWord_append h 0 []
  rw [List.append_nil, scan_nil, Nat.zero_add] at hscan
  exact hscan

end Token

end FlatLisp
