import FlatLisp.Proofs.Words

/-!
# What Stands Between Tokens

Between two tokens, before the first and after the last there can be blanks and comments, and a
comment runs up to the next line break or to the end of the text. Two words cannot follow each other
without a gap. A text that is laid out so has these tokens and no others: the scanner steps over a
gap and comes out where it went in, and a word ends where no character of a word comes next.

## Main definitions

* `Token.Gap`: what can stand between tokens.
* `Token.LaidOut`: a text with its tokens, one after the other, each with a gap before it.

## Main results

* `Token.Gap.scan_append`: the scanner steps over a gap.
* `Token.LaidOut.scan_eq`: the scanner finds the tokens that a text is laid out with.
-/

namespace FlatLisp

open Text

namespace Token

/-- A text does not go on with a character of a word. -/
def EndsWord (rest : List Char) : Prop :=
  ∀ c ∈ rest.head?, isWordChar c = false

/-- A text does not go on with a character of a comment. -/
def EndsComment (rest : List Char) : Prop :=
  ∀ c ∈ rest.head?, isLineBreak c = true

/-- What can stand between tokens, when `back` is the text after it: blanks and comments, each of
which runs up to the next line break or to the end of the text. -/
inductive Gap (back : List Char) : List Char → Prop
  | nil : Gap back []
  | blank {c : Char} {rest : List Char} : isBlank c = true → Gap back rest → Gap back (c :: rest)
  | comment {body rest : List Char} : (∀ c ∈ body, isLineBreak c = false) →
      EndsComment (rest ++ back) → Gap back rest → Gap back (';' :: (body ++ rest))

/-- The text of a word is one. -/
def Spelled (t : Token) : Prop :=
  ∀ w, t.kind = .word w → IsWord w

/-- A token is a word. -/
def IsWordToken (t : Token) : Prop :=
  ∃ w, t.kind = .word w

/-- A text at `offset` with its tokens: a gap before each of them, its own characters at its span,
after a word no character that could belong to it, and a gap after the last one. -/
inductive LaidOut : Nat → List Char → List Token → Prop
  | last {offset : Nat} {gap : List Char} : Gap [] gap → LaidOut offset gap []
  | token {offset : Nat} {gap rest : List Char} {t : Token} {tokens : List Token} :
      Gap (t.display.toList ++ rest) gap → t.Spelled →
      t.span = ⟨offset + byteLength gap,
        offset + byteLength gap + byteLength t.display.toList⟩ →
      (t.IsWordToken → EndsWord rest) → LaidOut t.span.stop rest tokens →
      LaidOut offset (gap ++ (t.display.toList ++ rest)) (t :: tokens)

/-! ### The first character -/

theorem isWordChar_of_isBlank {c : Char} (h : isBlank c = true) : isWordChar c = false := by
  simp [isWordChar, h]

/-- A gap does not begin like a word. -/
theorem Gap.endsWord {gap back : List Char} (h : Gap back gap) (hne : gap ≠ []) :
    EndsWord (gap ++ back) := by
  cases h with
  | nil => exact absurd rfl hne
  | blank hblank =>
      rintro c ⟨⟩
      exact isWordChar_of_isBlank hblank
  | comment =>
      rintro c ⟨⟩
      rfl

/-- A token begins with a character that is neither a blank nor the beginning of a comment, and that
belongs to a word only if the token is one. -/
theorem Spelled.exists_display {t : Token} (h : t.Spelled) :
    ∃ c more, t.display.toList = c :: more ∧ isBlank c = false ∧ c ≠ ';' ∧
      (isWordChar c = true ↔ t.IsWordToken) := by
  obtain ⟨kind, s⟩ := t
  cases kind with
  | opening => exact ⟨'(', [], display_opening s, rfl, by decide, by simp [isWordChar, IsWordToken]⟩
  | closing => exact ⟨')', [], display_closing s, rfl, by decide, by simp [isWordChar, IsWordToken]⟩
  | word w =>
      obtain ⟨hne, hall⟩ := h w rfl
      obtain ⟨c, more, hw⟩ := List.exists_cons_of_ne_nil hne
      have hc : isWordChar c = true := hall c (hw ▸ List.mem_cons_self ..)
      obtain ⟨hblank, hsemicolon, -⟩ := isWordChar_iff.mp hc
      exact ⟨c, more, hw, hblank, hsemicolon, iff_of_true hc ⟨w, rfl⟩⟩

/-! ### Stepping over a gap -/

section

variable {mode : Mode} {c : Char} {offset : Nat} {rest : List Char}

/-- Between tokens a blank completes nothing. -/
theorem scan_cons_of_isBlank (h : isBlank c = true) (offset : Nat) (rest : List Char) :
    scan .between offset (c :: rest) = scan .between (offset + c.utf8Size) rest := by
  rw [scan_cons]
  simp [Mode.emitted, Mode.after, Mode.ended, h]

/-- The characters of a comment complete nothing. -/
theorem scan_comment_append {body : List Char} (h : ∀ c ∈ body, isLineBreak c = false)
    (offset : Nat) (rest : List Char) :
    scan .comment offset (body ++ rest) = scan .comment (offset + byteLength body) rest := by
  induction body generalizing offset with
  | nil => rfl
  | cons c body ih =>
      have hc := h c (List.mem_cons_self ..)
      have hafter : Mode.comment.after offset c = .comment := by simp [Mode.after, hc]
      rw [List.cons_append, scan_cons, hafter, ih fun d hd => h d (List.mem_cons_of_mem c hd),
        byteLength_cons, Nat.add_assoc]
      rfl

/-- Where a comment ends, the scanner stands between tokens. -/
theorem scan_comment_of_endsComment (h : EndsComment rest) (offset : Nat) :
    scan .comment offset rest = scan .between offset rest := by
  cases rest with
  | nil => rfl
  | cons c rest =>
      have hc := h c rfl
      rw [scan_cons, Mode.after_lineBreak hc, scan_cons_of_isBlank (isBlank_of_isLineBreak hc)]
      rfl

/-- **The scanner steps over a gap** and stands between tokens as before. -/
theorem Gap.scan_append {gap back : List Char} (h : Gap back gap) (offset : Nat) :
    scan .between offset (gap ++ back) = scan .between (offset + byteLength gap) back := by
  induction h generalizing offset with
  | nil => rfl
  | blank hblank _ ih =>
      rw [List.cons_append, scan_cons_of_isBlank hblank, ih, byteLength_cons, Nat.add_assoc]
  | @comment body rest hbody hends _ ih =>
      have hopen : scan .between offset (';' :: (body ++ rest ++ back)) =
          scan .comment (offset + ';'.utf8Size) (body ++ rest ++ back) := scan_cons ..
      rw [List.cons_append, hopen, List.append_assoc, scan_comment_append hbody,
        scan_comment_of_endsComment hends, ih, byteLength_cons, byteLength_append]
      congr 1
      omega

/-! ### Tokens after gaps -/

/-- Where no character of a word comes next, a word ends, and the scanner stands between tokens. -/
theorem scan_of_endsWord (hmode : mode ≠ .comment) (h : EndsWord rest) (offset : Nat) :
    scan mode offset rest = mode.ended offset ++ scan .between offset rest := by
  cases rest with
  | nil => exact (List.append_nil _).symm
  | cons c rest =>
      have hc := h c rfl
      simp only [isWordChar, Bool.not_eq_false', Bool.or_eq_true, beq_iff_eq, or_assoc] at hc
      rw [scan_cons, scan_cons]
      rcases hc with hblank | rfl | rfl | rfl
      · simp [Mode.emitted, Mode.after, Mode.ended, hmode, hblank]
      all_goals simp [Mode.emitted, Mode.after, Mode.ended, hmode, isBlank]

/-- **The scanner finds a token** where it begins, and stands between tokens after it. -/
theorem Spelled.scan_append {t : Token} (h : t.Spelled)
    (hspan : t.span = ⟨offset, offset + byteLength t.display.toList⟩)
    (hends : t.IsWordToken → EndsWord rest) :
    scan .between offset (t.display.toList ++ rest) = t :: scan .between t.span.stop rest := by
  obtain ⟨kind, s⟩ := t
  cases kind with
  | opening =>
      rw [display_opening] at hspan
      obtain rfl : s = ⟨offset, offset + byteLength ['(']⟩ := hspan
      rw [display_opening, List.singleton_append, scan_cons]
      rfl
  | closing =>
      rw [display_closing] at hspan
      obtain rfl : s = ⟨offset, offset + byteLength [')']⟩ := hspan
      rw [display_closing, List.singleton_append, scan_cons]
      rfl
  | word w =>
      obtain rfl : s = ⟨offset, offset + byteLength w.toList⟩ := hspan
      show scan .between offset (w.toList ++ rest) = _
      rw [scan_isWord_append (h w rfl), scan_of_endsWord (by simp) (hends ⟨w, rfl⟩)]
      rfl

end

/-! ### Layouts -/

/-- A gap can be followed by more of it. -/
theorem Gap.append {first second back : List Char} (h : Gap (second ++ back) first)
    (hsecond : Gap back second) : Gap back (first ++ second) := by
  induction h with
  | nil => exact hsecond
  | blank hblank _ ih => exact .blank hblank ih
  | comment hbody hends _ ih =>
      rw [List.cons_append, List.append_assoc]
      rw [← List.append_assoc] at hends
      exact .comment hbody hends ih

/-- A gap in front of a text that is laid out. -/
theorem LaidOut.gap_append {offset : Nat} {gap text : List Char} {tokens : List Token}
    (h : LaidOut (offset + byteLength gap) text tokens) (hgap : Gap text gap) :
    LaidOut offset (gap ++ text) tokens := by
  cases h with
  | last hlast =>
      rw [← List.append_nil text] at hgap
      exact .last (hgap.append hlast)
  | @token _ inner rest t _ hinner hspelled hspan hends hrest =>
      rw [← List.append_assoc]
      refine .token (hgap.append hinner) hspelled ?_ hends hrest
      rw [hspan, byteLength_append, Nat.add_assoc]

/-- A token right in front of a text that is laid out. -/
theorem LaidOut.cons (kind : Kind) {offset : Nat} {rest : List Char} {tokens : List Token}
    (h : LaidOut (offset + byteLength kind.display.toList) rest tokens)
    (hword : ∀ w, kind = .word w → IsWord w ∧ EndsWord rest) :
    LaidOut offset (kind.display.toList ++ rest)
      (⟨kind, ⟨offset, offset + byteLength kind.display.toList⟩⟩ :: tokens) :=
  .token (t := ⟨kind, ⟨offset, offset + byteLength kind.display.toList⟩⟩) .nil
    (fun w hw => (hword w hw).1) rfl (fun ⟨w, hw⟩ => (hword w hw).2) h

/-- **The scanner finds the tokens that a text is laid out with.** -/
theorem LaidOut.scan_eq {offset : Nat} {text : List Char} {tokens : List Token}
    (h : LaidOut offset text tokens) : scan .between offset text = tokens := by
  induction h with
  | @last offset gap hgap =>
      have hscan := hgap.scan_append offset
      rwa [List.append_nil] at hscan
  | token hgap hspelled hspan hends _ ih =>
      rw [hgap.scan_append, hspelled.scan_append hspan hends, ih]

end Token

end FlatLisp
