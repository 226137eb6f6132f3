import FlatLisp.Proofs.EntryScanners

/-!
# The Characters of Tokens

Every character of a text either belongs to a token or is skipped: blanks are, and comments. Which
one it is can be told by a flag for comments alone. The tokens of a text, put one after the other,
are the characters that are kept, in their order.

So a part of a text in which nothing is kept is a part without tokens. Blanks at the beginning only
move the tokens, and such a part at the end completes the word before it, like the end of the text.

## Main definitions

* `Token.kept`: the characters of a text that belong to tokens.
* `Token.displays`: the characters of some tokens.

## Main results

* `Token.kept_eq_nil_iff`: nothing is kept of blanks and comments, and something of all else.
* `Token.displays_scan`: tokens are made of the characters that are kept.
* `Token.scan_of_kept_eq_nil`: a part in which nothing is kept has no tokens.
-/

namespace FlatLisp

open Text

namespace Token

/-! ### What is kept -/

/-- Whether the reader is in a comment after a character. -/
def commentAfter (comment : Bool) (c : Char) : Bool :=
  (comment || c == ';') && !isLineBreak c

/-- The characters of a text that belong to tokens, if the text begins in a comment or not. -/
def kept (comment : Bool) : List Char → List Char
  | [] => []
  | c :: rest =>
    if comment || isBlank c || c == ';' then kept (commentAfter comment c) rest
    else c :: kept (commentAfter comment c) rest

theorem kept_append (comment : Bool) (front back : List Char) :
    kept comment (front ++ back) =
      kept comment front ++ kept (front.foldl commentAfter comment) back := by
  induction front generalizing comment with
  | nil => rfl
  | cons c front ih =>
      rw [List.cons_append, kept, kept, List.foldl_cons]
      split
      · exact ih _
      · rw [List.cons_append, ih]

/-- A character that belongs to a token is a character of the text, and it is no blank. -/
theorem of_mem_kept {comment : Bool} {text : List Char} {c : Char} (h : c ∈ kept comment text) :
    c ∈ text ∧ isBlank c = false := by
  induction text generalizing comment with
  | nil => cases h
  | cons d rest ih =>
      rw [kept] at h
      split at h
      · exact ⟨List.mem_cons_of_mem d (ih h).1, (ih h).2⟩
      · next hskip =>
          rcases List.mem_cons.mp h with rfl | hrest
          · simp only [Bool.or_eq_true, not_or, Bool.not_eq_true] at hskip
            exact ⟨List.mem_cons_self .., hskip.1.2⟩
          · exact ⟨List.mem_cons_of_mem d (ih hrest).1, (ih hrest).2⟩

theorem inComment_iff_foldl {text : List Char} :
    InComment text ↔ text.foldl commentAfter false = true := by
  induction text using List.reverseRecOn with
  | nil => simp [not_inComment_nil]
  | append_singleton front c ih =>
      rw [inComment_concat_iff, ih, List.foldl_append]
      simp [commentAfter]

/-- A comment begins somewhere. -/
theorem mem_of_inComment {text : List Char} (h : InComment text) : ';' ∈ text := by
  induction text using List.reverseRecOn with
  | nil => exact absurd h not_inComment_nil
  | append_singleton front c ih =>
      rcases (inComment_concat_iff.mp h).1 with hfront | rfl
      · exact List.mem_append_left _ (ih hfront)
      · simp

/-- A character is skipped when it is a blank or part of a comment. A line break that ends a comment
is a blank. -/
theorem skipped_iff {front : List Char} {c : Char} :
    (front.foldl commentAfter false || isBlank c || c == ';') = true ↔
      isBlank c = true ∨ InComment (front ++ [c]) := by
  rw [inComment_concat_iff, inComment_iff_foldl, Bool.or_eq_true, Bool.or_eq_true, beq_iff_eq]
  rcases hbreak : isLineBreak c with _ | _
  · simp only [and_true]
    tauto
  · simp [isBlank_of_isLineBreak hbreak]

/-- No character of a part of a text belongs to a token when each of them is a blank or is skipped
as part of a comment. -/
theorem kept_eq_nil_iff {front part : List Char} :
    kept (front.foldl commentAfter false) part = [] ↔
      ∀ before c after, part = before ++ c :: after →
        isBlank c = true ∨ InComment (front ++ before ++ [c]) := by
  induction part generalizing front with
  | nil => simp [kept]
  | cons d part ih =>
      have hflag : commentAfter (front.foldl commentAfter false) d =
          (front ++ [d]).foldl commentAfter false := by simp
      rw [kept]
      constructor
      · intro h before c after heq
        split at h
        · next hskip =>
            cases before with
            | nil =>
                obtain ⟨rfl, rfl⟩ := List.cons.inj heq
                rw [List.append_nil]
                exact skipped_iff.mp hskip
            | cons e before =>
                obtain ⟨rfl, rfl⟩ := List.cons.inj heq
                rw [hflag, ih] at h
                have hrest := h before c after rfl
                rwa [List.append_assoc front, List.singleton_append] at hrest
        · cases h
      · intro h
        have hskip := skipped_iff.mpr (by simpa using h [] d part rfl)
        rw [if_pos hskip, hflag, ih]
        intro before c after heq
        have hrest := h (d :: before) c after (congrArg _ heq)
        rwa [List.append_assoc front, List.singleton_append]

/-! ### What tokens are made of -/

/-- The characters of some tokens. -/
def displays (tokens : List Token) : List Char :=
  tokens.flatMap fun t => t.display.toList

/-- The characters of the word that the scanner is in. -/
def Mode.begun : Mode → List Char
  | word _ text => text.toList
  | _ => []

theorem displays_append (front back : List Token) :
    displays (front ++ back) = displays front ++ displays back :=
  List.flatMap_append

theorem displays_singleton (t : Token) : displays [t] = t.display.toList :=
  List.append_nil _

theorem displays_cons (t : Token) (rest : List Token) :
    displays (t :: rest) = t.display.toList ++ displays rest :=
  List.flatMap_cons

theorem Mode.displays_ended (mode : Mode) (offset : Nat) :
    displays (mode.ended offset) = mode.begun := by
  cases mode with
  | between => rfl
  | comment => rfl
  | word start text => exact List.append_nil _

theorem Mode.begun_extended (mode : Mode) (offset : Nat) (c : Char) :
    (mode.extended offset c).begun = mode.begun ++ [c] := by
  cases mode <;> simp [extended, begun]

theorem Mode.decide_after_eq_comment (mode : Mode) (offset : Nat) (c : Char) :
    decide (mode.after offset c = .comment) = commentAfter (decide (mode = .comment)) c := by
  rw [Bool.eq_iff_iff, decide_eq_true_iff, Mode.after_eq_comment_iff, commentAfter]
  simp

/-- A character that is not skipped goes to a token. -/
theorem Mode.displays_emitted (mode : Mode) (offset : Nat) (c : Char) :
    displays (mode.emitted offset c) ++ (mode.after offset c).begun =
      mode.begun ++ kept (decide (mode = .comment)) [c] := by
  have hnil : ∀ comment, kept comment [] = [] := fun _ => rfl
  rw [kept, hnil]
  by_cases hmode : mode = .comment
  · subst hmode
    have hafter : (Mode.comment.after offset c).begun = [] := by
      rw [after, if_pos rfl]
      split <;> rfl
    rw [hafter]
    simp [emitted, displays, begun]
  rw [emitted, after, if_neg hmode, if_neg hmode]
  by_cases hblank : isBlank c = true
  · simp [hmode, hblank, displays_ended, begun]
  by_cases hsemicolon : c = ';'
  · simp [hmode, hsemicolon, isBlank, displays_ended, begun]
  by_cases hopening : c = '('
  · subst hopening
    simp [hmode, isBlank, displays_append, displays_ended, displays_singleton,
      display_opening, begun]
  by_cases hclosing : c = ')'
  · subst hclosing
    simp [hmode, isBlank, displays_append, displays_ended, displays_singleton,
      display_closing, begun]
  · simp [hmode, hblank, hsemicolon, hopening, hclosing, begun_extended, displays]

/-- **Tokens are made of the characters that are kept.** -/
theorem displays_scan (mode : Mode) (offset : Nat) (text : List Char) :
    displays (scan mode offset text) = mode.begun ++ kept (decide (mode = .comment)) text := by
  induction text generalizing mode offset with
  | nil => rw [scan_nil, Mode.displays_ended, kept, List.append_nil]
  | cons c rest ih =>
      have hkept := kept_append (decide (mode = .comment)) [c] rest
      rw [List.singleton_append, List.foldl_cons, List.foldl_nil] at hkept
      rw [scan_cons, displays_append, ih, Mode.decide_after_eq_comment, ← List.append_assoc,
        Mode.displays_emitted, List.append_assoc, hkept]

theorem displays_ofText (text : String) : displays (ofText text) = kept false text.toList :=
  displays_scan .between 0 text.toList

/-! ### Parts without tokens -/

section

variable {mode : Mode} {c : Char}

/-- A character that is skipped completes what the end of the text would complete. -/
theorem Mode.emitted_of_skipped (h : (decide (mode = .comment) || isBlank c || c == ';') = true)
    (offset : Nat) : mode.emitted offset c = mode.ended offset := by
  rw [emitted]
  split
  · next hmode =>
      subst hmode
      rfl
  · next hmode =>
      rw [if_pos]
      simpa [hmode] using h

/-- After a character that is skipped, the scanner is in no word. -/
theorem Mode.ended_after_of_skipped
    (h : (decide (mode = .comment) || isBlank c || c == ';') = true) (offset stop : Nat) :
    (mode.after offset c).ended stop = [] := by
  rw [after]
  split
  · split <;> rfl
  split
  · rfl
  split
  · rfl
  · next hmode hblank hsemicolon => simp [hmode, hblank, hsemicolon] at h

end

/-- Blanks in front of a text complete nothing. -/
theorem scan_append_blanks {front : List Char} (h : ∀ c ∈ front, isBlank c = true) (offset : Nat)
    (rest : List Char) :
    scan .between offset (front ++ rest) = scan .between (offset + byteLength front) rest := by
  induction front generalizing offset with
  | nil => rfl
  | cons c front ih =>
      have hc := h c (List.mem_cons_self ..)
      have hafter : Mode.between.after offset c = .between := by simp [Mode.after, hc]
      rw [List.cons_append, scan_cons, Mode.emitted_of_skipped (by simp [hc]), hafter,
        ih fun d hd => h d (List.mem_cons_of_mem c hd), byteLength_cons, Nat.add_assoc]
      rfl

/-- A part at the end of a text without a character that belongs to a token completes what the end
of the text would complete. -/
theorem scan_of_kept_eq_nil {mode : Mode} {back : List Char}
    (h : kept (decide (mode = .comment)) back = []) (offset : Nat) :
    scan mode offset back = mode.ended offset := by
  induction back generalizing mode offset with
  | nil => rfl
  | cons c back ih =>
      rw [kept] at h
      split at h
      · next hskip =>
          rw [← Mode.decide_after_eq_comment mode offset] at h
          rw [scan_cons, Mode.emitted_of_skipped hskip, ih h, Mode.ended_after_of_skipped hskip,
            List.append_nil]
      · cases h

end Token

end FlatLisp
