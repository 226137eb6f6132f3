import FlatLisp.Proofs.Kept
import FlatLisp.Proofs.PlainValues
import FlatLisp.Proofs.Reading
import Mathlib.Data.List.TakeDrop
import Mathlib.Data.List.TakeWhile

/-!
# Texts without the White Space at their Ends

Trimming takes white space off both ends of a text, and not all white space is blank for the
reader: a no-break space, say, belongs to a word. So trimming can change what is read.

It does not if all that is taken away is blank or part of a comment: then the tokens are the same,
in other places. If something of a word is taken away, then a text that was an expression is no
longer the same one. It begins or ends with that word, so that it is this one word; and since no
literal is spelled with white space, the word stands for the symbol of its own name, and what is
left of it stands for something else.

## Main definitions

* `Text.Trims`: the parts of a text that trimming tells.
* `BlankEnds`: at its ends a text has no white space that belongs to a token.

## Main results

* `Text.Trims.tokens_eq`: a text with blank ends has the tokens that it has without them.
* `Text.Trims.ofText_eq`: it is read as the same expression, or fails with the same error.
* `Expr.blankEnds_of_ofText_eq`: a text that is the same expression without its ends has blank
  ends.
-/

namespace FlatLisp

open Text

/-! ### What is taken away -/

namespace Text

/-- A text is `rest` with white space at both ends, and `rest` has none there. -/
structure Trims (text front rest back : List Char) : Prop where
  /-- The parts make the text. -/
  text_eq : text = front ++ rest ++ back
  /-- The front is white space. -/
  front : ∀ c ∈ front, isWhite c = true
  /-- The back is white space. -/
  back : ∀ c ∈ back, isWhite c = true
  /-- The rest does not begin with white space. -/
  head : ∀ c ∈ rest.head?, isWhite c = false
  /-- The rest does not end with white space. -/
  last : ∀ c ∈ rest.getLast?, isWhite c = false

theorem exists_trims (text : List Char) : ∃ front back, Trims text front (trim text) back := by
  have htext := List.takeWhile_append_dropWhile (p := isWhite) (l := text)
  have hinner := List.takeWhile_append_dropWhile (p := isWhite)
    (l := (text.dropWhile isWhite).reverse)
  have hrest : text.dropWhile isWhite = trim text ++
      ((text.dropWhile isWhite).reverse.takeWhile isWhite).reverse := by
    rw [trim, ← List.reverse_append, hinner, List.reverse_reverse]
  refine ⟨text.takeWhile isWhite, ((text.dropWhile isWhite).reverse.takeWhile isWhite).reverse,
    ?_, fun c hc => List.mem_takeWhile_imp hc, fun c hc => ?_, fun c hc => ?_, fun c hc => ?_⟩
  · rw [List.append_assoc, ← hrest, htext]
  · exact List.mem_takeWhile_imp (List.mem_reverse.mp hc)
  · have hhead := List.head?_dropWhile_not isWhite text
    rw [hrest, List.head?_append, hc] at hhead
    exact hhead
  · have hhead := List.head?_dropWhile_not isWhite (text.dropWhile isWhite).reverse
    rw [trim, List.getLast?_reverse] at hc
    rw [hc] at hhead
    exact hhead

section

variable {front back rest before after : List Char} {c : Char}

/-- White space at the beginning of a text is in front of the first other character. -/
theorem eq_append_of_white_front (h : front ++ rest = before ++ c :: after)
    (hrest : rest ≠ []) (hhead : ∀ d ∈ rest.head?, isWhite d = false)
    (hwhite : ∀ d ∈ before ++ [c], isWhite d = true) : ∃ more, front = before ++ c :: more := by
  obtain ⟨d, rest, rfl⟩ := List.exists_cons_of_ne_nil hrest
  have hd : d ∉ before ++ [c] := by
    intro hmem
    have hboth := hwhite d hmem
    rw [hhead d rfl] at hboth
    cases hboth
  rcases List.append_eq_append_iff.mp h with ⟨middle, rfl, hmiddle⟩ | ⟨middle, rfl, hmiddle⟩
  · cases middle with
    | nil =>
        obtain ⟨rfl, -⟩ := List.cons.inj hmiddle
        simp at hd
    | cons e middle =>
        obtain ⟨rfl, -⟩ := List.cons.inj hmiddle
        simp at hd
  · cases middle with
    | nil =>
        obtain ⟨rfl, -⟩ := List.cons.inj hmiddle
        simp at hd
    | cons e middle =>
        obtain ⟨rfl, -⟩ := List.cons.inj hmiddle
        exact ⟨middle, rfl⟩

/-- White space at the end of a text is behind the last other character. -/
theorem eq_append_of_white_back (h : rest ++ back = before ++ c :: after) (hrest : rest ≠ [])
    (hlast : ∀ d ∈ rest.getLast?, isWhite d = false)
    (hwhite : ∀ d ∈ c :: after, isWhite d = true) : ∃ more, back = more ++ c :: after := by
  have hreverse := congrArg List.reverse h
  simp only [List.reverse_append, List.reverse_cons, List.append_assoc, List.singleton_append]
    at hreverse
  obtain ⟨more, hmore⟩ := eq_append_of_white_front hreverse (by simpa using hrest)
    (by simpa using hlast) fun d hd => hwhite d (by simpa [or_comm] using hd)
  refine ⟨more.reverse, ?_⟩
  rw [← List.reverse_reverse back, hmore]
  simp

end

end Text

/-- At its ends a text has no white space that belongs to a token: each character of it is a blank,
or it is part of a comment. -/
def BlankEnds (text : List Char) : Prop :=
  ∀ front c back, text = front ++ c :: back →
    ((∀ d ∈ front ++ [c], isWhite d = true) ∨ ∀ d ∈ c :: back, isWhite d = true) →
    Token.isBlank c = true ∨ Token.InComment (front ++ [c])

section

variable {text front rest back : List Char}

namespace Text.Trims

/-- No comment begins in white space. -/
theorem not_mem_of_white {part : List Char} (h : ∀ c ∈ part, isWhite c = true) : ';' ∉ part := by
  intro hmem
  have hwhite := h ';' hmem
  cases hwhite

/-- What blank ends have in front is skipped. -/
theorem skipped_front (h : Trims text front rest back) (hends : BlankEnds text)
    {before after : List Char} {c : Char} (heq : front = before ++ c :: after) :
    Token.isBlank c = true ∨ Token.InComment (before ++ [c]) := by
  subst heq
  refine hends before c (after ++ rest ++ back) ?_ (Or.inl fun d hd => h.front d ?_)
  · rw [h.text_eq]
    simp
  · rw [List.append_cons]
    exact List.mem_append_left _ hd

/-- What blank ends have at the back is skipped. -/
theorem skipped_back (h : Trims text front rest back) (hends : BlankEnds text)
    {before after : List Char} {c : Char} (heq : back = before ++ c :: after) :
    Token.isBlank c = true ∨ Token.InComment (front ++ rest ++ before ++ [c]) := by
  subst heq
  refine hends (front ++ rest ++ before) c after ?_ (Or.inr fun d hd => h.back d ?_)
  · rw [h.text_eq]
    simp
  · exact List.mem_append_right _ hd

theorem isBlank_front (h : Trims text front rest back) (hends : BlankEnds text) :
    ∀ c ∈ front, Token.isBlank c = true := by
  intro c hc
  obtain ⟨before, after, heq⟩ := List.append_of_mem hc
  refine (h.skipped_front hends heq).resolve_right fun hcomment => not_mem_of_white h.front ?_
  rw [heq, List.append_cons]
  exact List.mem_append_left _ (Token.mem_of_inComment hcomment)

/-- Without a comment in the text, what blank ends have at the back is blank, too. -/
theorem isBlank_back (h : Trims text front rest back) (hends : BlankEnds text)
    (hno : ';' ∉ rest) : ∀ c ∈ back, Token.isBlank c = true := by
  intro c hc
  obtain ⟨before, after, heq⟩ := List.append_of_mem hc
  refine (h.skipped_back hends heq).resolve_right fun hcomment => ?_
  have hmem := Token.mem_of_inComment hcomment
  rw [List.append_assoc, List.mem_append, List.mem_append] at hmem
  rcases hmem with (hfront | hrest) | hback
  · exact not_mem_of_white h.front hfront
  · exact hno hrest
  · refine not_mem_of_white h.back ?_
    rw [heq, List.append_cons]
    exact List.mem_append_left _ hback

/-- A text of white space alone has blank ends only if it is all blank. -/
theorem isBlank_of_nil (h : Trims text front [] back) (hends : BlankEnds text) :
    ∀ c ∈ text, Token.isBlank c = true := by
  rw [h.text_eq, List.append_nil]
  exact List.forall_mem_append.mpr
    ⟨h.isBlank_front hends, h.isBlank_back hends List.not_mem_nil⟩

/-- The ends of a text are blank if no character of them belongs to a token. A text of white space
alone is all ends. -/
theorem blankEnds_iff (h : Trims text front rest back) :
    BlankEnds text ↔ Token.kept false front = [] ∧
      Token.kept ((front ++ rest).foldl Token.commentAfter false) back = [] := by
  have hkept : ∀ part, Token.kept false part = [] ↔ ∀ before c after,
      part = before ++ c :: after → Token.isBlank c = true ∨ Token.InComment (before ++ [c]) :=
    fun part => @Token.kept_eq_nil_iff [] part
  constructor
  · intro hends
    rw [hkept, Token.kept_eq_nil_iff]
    exact ⟨fun before c after heq => h.skipped_front hends heq,
      fun before c after heq => h.skipped_back hends heq⟩
  rintro ⟨hfront, hback⟩ before c after heq hwhite
  by_cases hrest : rest = []
  · have hall := Token.kept_append false front back
    rw [hrest, List.append_nil] at hback
    rw [hfront, hback, List.append_nil, hkept] at hall
    refine hall before c after ?_
    rw [← heq, h.text_eq, hrest, List.append_nil]
  rw [hkept] at hfront
  rw [Token.kept_eq_nil_iff] at hback
  have htext := h.text_eq.symm.trans heq
  have hhead : (rest ++ back).head? = rest.head? := by
    obtain ⟨d, more, rfl⟩ := List.exists_cons_of_ne_nil hrest
    rfl
  have hlast : (front ++ rest).getLast? = rest.getLast? := by
    rw [List.getLast?_append, List.getLast?_eq_some_getLast hrest]
    rfl
  rcases hwhite with hwhite | hwhite
  · rw [List.append_assoc] at htext
    obtain ⟨more, rfl⟩ := eq_append_of_white_front htext (by simp [hrest])
      (hhead ▸ h.head) hwhite
    exact hfront before c more rfl
  · obtain ⟨more, rfl⟩ := eq_append_of_white_back htext (by simp [hrest])
      (hlast ▸ h.last) hwhite
    have hbefore : before = front ++ rest ++ more :=
      List.append_cancel_right (heq.symm.trans (h.text_eq.trans (List.append_assoc ..).symm))
    rw [hbefore]
    exact hback more c after rfl

/-- The characters of the tokens of a text: those of its parts. -/
theorem displays_eq (h : Trims text front rest back) :
    Token.displays (Token.ofText (String.ofList text)) =
      Token.kept false front ++ Token.displays (Token.ofText (String.ofList rest)) ++
        Token.kept ((front ++ rest).foldl Token.commentAfter false) back := by
  have hflag : front.foldl Token.commentAfter false = false := by
    rw [← Bool.not_eq_true, ← Token.inComment_iff_foldl]
    exact fun hcomment => not_mem_of_white h.front (Token.mem_of_inComment hcomment)
  rw [Token.displays_ofText, Token.displays_ofText, String.toList_ofList, String.toList_ofList,
    h.text_eq, Token.kept_append, Token.kept_append, hflag]

/-- If the ends of a text are not blank, then the characters of its tokens begin or end with white
space. -/
theorem exists_white_end (h : Trims text front rest back) (hnot : ¬BlankEnds text) :
    ∃ c, (c ∈ (Token.displays (Token.ofText (String.ofList text))).head? ∨
      c ∈ (Token.displays (Token.ofText (String.ofList text))).getLast?) ∧ isWhite c = true := by
  rw [h.blankEnds_iff] at hnot
  rw [h.displays_eq]
  rcases hbefore : Token.kept false front with _ | ⟨c, before⟩
  · obtain ⟨more, c, hafter⟩ := (List.eq_nil_or_concat
      (Token.kept ((front ++ rest).foldl Token.commentAfter false) back)).resolve_left
        fun hnil => hnot ⟨hbefore, hnil⟩
    rw [List.concat_eq_append] at hafter
    have hmem := List.mem_append_right more (List.mem_singleton_self c)
    rw [← hafter] at hmem
    refine ⟨c, Or.inr ?_, h.back c (Token.of_mem_kept hmem).1⟩
    rw [hafter, ← List.append_assoc, List.getLast?_concat]
    rfl
  · have hmem : c ∈ Token.kept false front := hbefore ▸ List.mem_cons_self ..
    exact ⟨c, Or.inl rfl, h.front c (Token.of_mem_kept hmem).1⟩

/-- **A text with blank ends has the tokens that it has without them**, further back. -/
theorem tokens_eq (h : Trims text front rest back) (hends : BlankEnds text) :
    Token.ofText (String.ofList text) =
      (Token.ofText (String.ofList rest)).map (.move (byteLength front)) := by
  obtain ⟨-, hback⟩ := h.blankEnds_iff.mp hends
  have hmode : decide (Token.Mode.between.afterText 0 (front ++ rest) = .comment) =
      (front ++ rest).foldl Token.commentAfter false := by
    rw [Bool.eq_iff_iff, decide_eq_true_iff, ← Token.inComment_iff_foldl]
    rfl
  have hskip : Token.scan .between 0 (front ++ rest ++ back) =
      Token.scan .between 0 (front ++ rest) := by
    have hwhole := Token.scan_append .between 0 (front ++ rest) []
    rw [List.append_nil, Token.scan_nil] at hwhole
    rw [Token.scan_append, Token.scan_of_kept_eq_nil (hmode ▸ hback), hwhole]
  have hmove := Token.scan_move (byteLength front) .between 0 rest
  rw [Token.ofText, Token.ofText, String.toList_ofList, String.toList_ofList, h.text_eq, hskip,
    Token.scan_append_blanks (h.isBlank_front hends)]
  exact hmove

/-- **A text with blank ends is read as it is without them**: as the same expression, or with the
same error, further back. -/
theorem ofText_eq (h : Trims text front rest back) (hends : BlankEnds text) :
    Expr.ofText (String.ofList text) =
      (Expr.ofText (String.ofList rest)).mapError (.move (byteLength front)) := by
  rw [Expr.ofText, h.tokens_eq hends, Expr.ofTokens_move]
  rfl

end Text.Trims

end

/-! ### Words with white space in them -/

namespace Decimal.Literal

variable {text : List Char} {c : Char}

/-- The characters that a literal is spelled with. -/
def isSpelling (c : Char) : Bool :=
  c.isDigit || c == '-' || c == '+' || c == '.' || c == 'e' || c == 'E'

theorem mem_splitSign (h : c ∈ text) : isSpelling c = true ∨ c ∈ (splitSign text).2 := by
  unfold splitSign
  split
  · rcases List.mem_cons.mp h with rfl | hrest
    · exact Or.inl rfl
    · exact Or.inr hrest
  · rcases List.mem_cons.mp h with rfl | hrest
    · exact Or.inl rfl
    · exact Or.inr hrest
  · exact Or.inr h

theorem mem_span (h : c ∈ text) : isSpelling c = true ∨ c ∈ (text.span Char.isDigit).2 := by
  rw [List.span_eq_takeWhile_dropWhile]
  rw [← List.takeWhile_append_dropWhile (p := Char.isDigit) (l := text)] at h
  rcases List.mem_append.mp h with hdigit | hrest
  · exact Or.inl (by simp [isSpelling, List.mem_takeWhile_imp hdigit])
  · exact Or.inr hrest

theorem mem_splitFraction (h : c ∈ text) : isSpelling c = true ∨ c ∈ (splitFraction text).2 := by
  unfold splitFraction
  split
  · rcases List.mem_cons.mp h with rfl | hrest
    · exact Or.inl rfl
    · exact mem_span hrest
  · exact Or.inr h

theorem isSpelling_of_exponent? {n : Int} (h : exponent? text = some n) (hc : c ∈ text) :
    isSpelling c = true := by
  cases text with
  | nil => cases hc
  | cons mark rest =>
      simp only [exponent?] at h
      split at h
      · next hmark =>
          simp only [Bool.and_eq_true, Bool.or_eq_true, beq_iff_eq, List.all_eq_true] at hmark
          rcases List.mem_cons.mp hc with rfl | hrest
          · rcases hmark.1.1 with rfl | rfl <;> rfl
          · rcases mem_splitSign hrest with hsign | hdigit
            · exact hsign
            · simp [isSpelling, hmark.2 c hdigit]
      · cases h

theorem isSpelling_of_ofChars? {l : Literal} (h : ofChars? text = some l) (hc : c ∈ text) :
    isSpelling c = true := by
  simp only [ofChars?] at h
  split at h
  · cases h
  obtain ⟨n, hn, -⟩ := Option.map_eq_some_iff.mp h
  rcases mem_splitSign hc with hdone | hc
  · exact hdone
  rcases mem_span hc with hdone | hc
  · exact hdone
  rcases mem_splitFraction hc with hdone | hc
  · exact hdone
  · exact isSpelling_of_exponent? hn hc

end Decimal.Literal

/-- No white space is spelled into a literal. -/
theorem Text.isWhite_of_isSpelling {c : Char} (h : Decimal.Literal.isSpelling c = true) :
    isWhite c = false := by
  simp only [Decimal.Literal.isSpelling, Bool.or_eq_true, beq_iff_eq, or_assoc] at h
  rcases h with hdigit | rfl | rfl | rfl | rfl | rfl
  · have hrange : 48 ≤ c.toNat ∧ c.toNat ≤ 57 := by
      simp only [Char.isDigit, Bool.and_eq_true, decide_eq_true_eq] at hdigit
      exact hdigit
    simp [isWhite, inRanges, whiteRanges]
    omega
  all_goals rfl

/-- A word with white space in it can only stand for a symbol. -/
theorem Atom.eq_symbol_of_white {text : String} {atom : Atom} {c : Char}
    (h : ofText? text = some atom) (hc : c ∈ text.toList) (hwhite : isWhite c = true) :
    atom = .symbol text := by
  have hliteral : Decimal.Literal.ofChars? text.toList = none := by
    rcases hread : Decimal.Literal.ofChars? text.toList with _ | literal
    · rfl
    · rw [isWhite_of_isSpelling (Decimal.Literal.isSpelling_of_ofChars? hread hc)] at hwhite
      cases hwhite
  rw [ofText?, hliteral] at h
  simp only at h
  split at h
  · cases h
  split at h
  · cases h
  have hboolean : ∀ word : String, (word.toList.all fun d => !isWhite d) = true → text ≠ word := by
    rintro _ hall rfl
    have hnone := List.all_eq_true.mp hall c hc
    rw [hwhite] at hnone
    cases hnone
  split at h
  · next htrue => exact absurd htrue (hboolean "True" rfl)
  split at h
  · next hfalse => exact absurd hfalse (hboolean "False" rfl)
  · exact (Option.some.inj h).symm

namespace Expr

/-- An expression that begins or ends with white space is a single word. -/
theorem Derives.exists_word_of_white {tokens : List Token} {e : Expr} (h : Derives tokens e)
    {c : Char} (hc : c ∈ (Token.displays tokens).head? ∨ c ∈ (Token.displays tokens).getLast?)
    (hwhite : isWhite c = true) :
    ∃ word atom s, tokens = [⟨.word word, s⟩] ∧ e = leaf atom ∧
      Atom.ofText? word = some atom := by
  have hparentheses : ∀ d, isWhite d = false → c ∉ some d := by
    rintro d hd ⟨⟩
    rw [hd] at hwhite
    cases hwhite
  cases h with
  | @word word atom s hatom => exact ⟨word, atom, s, rfl, rfl, hatom⟩
  | @nothing s t =>
      rw [Token.displays_cons, Token.displays_singleton, Token.display_opening,
        Token.display_closing] at hc
      rcases hc with hhead | hlast
      · exact absurd hhead (hparentheses '(' rfl)
      · exact absurd hlast (hparentheses ')' rfl)
  | @list word atom s t u parts hatom _ =>
      rcases hc with hhead | hlast
      · rw [Token.displays_cons, Token.display_opening] at hhead
        exact absurd hhead (hparentheses '(' rfl)
      · rw [← List.cons_append, ← List.cons_append, Token.displays_append,
          Token.displays_singleton, Token.display_closing, List.getLast?_concat] at hlast
        exact absurd hlast (hparentheses ')' rfl)

/-- A lone atom is one word, by itself or in parentheses. -/
theorem Derives.leaf_inv {tokens : List Token} {atom : Atom} (h : Derives tokens (leaf atom)) :
    (∃ word s, tokens = [⟨.word word, s⟩] ∧ Atom.ofText? word = some atom) ∨
      ∃ s more, tokens = ⟨.opening, s⟩ :: more := by
  generalize he : leaf atom = e at h
  cases h with
  | @word word atom' s hatom =>
      cases he
      exact Or.inl ⟨word, s, rfl, hatom⟩
  | @nothing s t => cases he
  | @list word atom' s t u parts hatom _ => exact Or.inr ⟨s, _, rfl⟩

/-- A text that is an expression, and whose ends are not blank, is a single word that stands for the
symbol of its own name. -/
theorem exists_symbol_of_not_blankEnds {text : List Char} {e : Expr}
    (h : ofText (String.ofList text) = .ok e) (hnot : ¬BlankEnds text) :
    ∃ word s, Token.ofText (String.ofList text) = [⟨.word word, s⟩] ∧ Token.IsWord word ∧
      e = leaf (.symbol word) := by
  obtain ⟨front, back, htrims⟩ := exists_trims text
  obtain ⟨c, hc, hwhite⟩ := htrims.exists_white_end hnot
  obtain ⟨word, atom, s, htokens, rfl, hatom⟩ :=
    (ofTokens_eq_ok_iff.mp h).exists_word_of_white hc hwhite
  have hstands := Token.stands_of_mem_ofText (htokens ▸ List.mem_singleton_self _)
  have hmem : c ∈ word.toList := by
    rw [htokens, Token.displays_singleton] at hc
    rcases hc with hhead | hlast
    · exact List.mem_of_mem_head? hhead
    · exact List.mem_of_mem_getLast? hlast
  rw [Atom.eq_symbol_of_white hatom hmem hwhite]
  exact ⟨word, s, htokens, hstands.word word rfl, rfl⟩

/-- **A text that is the same expression without its ends has blank ends.** If it had not, it would
be one word with white space at an end, and what is left of it would have to be that word. -/
theorem blankEnds_of_ofText_eq {text front rest back : List Char} {e : Expr}
    (h : Trims text front rest back) (htext : ofText (String.ofList text) = .ok e)
    (hsame : ofText (String.ofList rest) = .ok e) : BlankEnds text := by
  by_contra hnot
  obtain ⟨word, s, htokens, hword, rfl⟩ := exists_symbol_of_not_blankEnds htext hnot
  have hletters := h.displays_eq
  rw [htokens, Token.displays_singleton] at hletters
  rcases (ofTokens_eq_ok_iff.mp hsame).leaf_inv with ⟨word', s', htokens', hatom⟩ |
    ⟨s', more, htokens'⟩
  · obtain rfl := Atom.eq_of_ofText? hatom
    rw [htokens', Token.displays_singleton] at hletters
    have hlength := congrArg List.length hletters
    simp only [List.length_append, Token.display] at hlength
    exact hnot (h.blankEnds_iff.mpr ⟨List.eq_nil_of_length_eq_zero (by omega),
      List.eq_nil_of_length_eq_zero (by omega)⟩)
  · have hopening : '(' ∈ word.toList := by
      show '(' ∈ (Token.mk (.word word) s).display.toList
      rw [hletters, htokens', Token.displays_cons, Token.display_opening]
      simp
    cases hword.2 '(' hopening

end Expr

end FlatLisp
