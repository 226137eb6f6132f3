import FlatLisp.Entry.Highlight
import FlatLisp.Entry.Verdict
import FlatLisp.Proofs.Nesting
import Mathlib.Data.List.Induction

/-!
# What Is Said of an Entry and How It Is Read

While a text is entered, two scanners look at it that know nothing of tokens: one gives the
verdict on its parentheses, the other colours it. Both are meant to see the same parentheses and
the same comments as the reader. They do, as long as comments end where the reader ends them: for
the reader a comment ends at a line feed or a carriage return, for the other two at a line feed
only.

So the three agree on a text if and only if each carriage return that ends a comment has nothing
but line breaks and comments after it on its line, up to the next line feed. A carriage return
right before a line feed does no harm.

Each scanner is a run over the text with a flag for comments, and the flags are compared first.
Where they agree, the verdict is the number of open parentheses that `Token.depth?` gives for the
tokens.

## Main definitions

* `Token.InComment`: the reader skips the last character of a text as part of a comment.
* `Entry.comment`: the scanners of an entry are in a comment after a text.
* `Highlight.roleOf`, `Highlight.stackAfter`: one step of the scanner that colours.
* `LineFeedsEndComments`: the condition on the text.
* `ScannersAgree`: what agreement is.

## Main results

* `Verdict.scan_suits`: the verdict goes with the number of open parentheses.
* `scannersAgree_iff`: the scanners agree exactly under the condition.
-/

namespace FlatLisp

/-! ### Comments -/

namespace Token

/-- The scanner stands in a comment after a text. So the last character of the text is skipped as
part of a comment. -/
def InComment (text : List Char) : Prop :=
  Mode.between.afterText 0 text = .comment

/-- A comment begins at a semicolon and goes on up to a line break. -/
theorem Mode.after_eq_comment_iff {mode : Mode} {offset : Nat} {c : Char} :
    mode.after offset c = .comment ↔ (mode = .comment ∨ c = ';') ∧ isLineBreak c = false := by
  by_cases hmode : mode = .comment
  · rcases hbreak : isLineBreak c with _ | _ <;> simp [after, hmode, hbreak]
  by_cases hsemicolon : c = ';'
  · subst hsemicolon
    simp [after, hmode, isBlank, isLineBreak]
  · refine iff_of_false ?_ (by simp [hmode, hsemicolon])
    rw [after, if_neg hmode, if_neg hsemicolon]
    split
    · simp
    split
    · simp
    · cases mode <;> simp [extended]

theorem not_inComment_nil : ¬InComment [] := by
  intro h
  cases h

theorem inComment_concat_iff {front : List Char} {c : Char} :
    InComment (front ++ [c]) ↔ (InComment front ∨ c = ';') ∧ isLineBreak c = false := by
  rw [InComment, Mode.afterText_append]
  exact Mode.after_eq_comment_iff

end Token

namespace Entry

/-- Whether the scanners of an entry are in a comment after a character. -/
def commentAfter (comment : Bool) (c : Char) : Bool :=
  (comment || c == ';') && c != '\n'

/-- Whether the scanners of an entry are in a comment after a text. -/
def comment (text : List Char) : Bool :=
  text.foldl commentAfter false

theorem comment_concat (front : List Char) (c : Char) :
    comment (front ++ [c]) = commentAfter (comment front) c := by
  rw [comment, List.foldl_append]
  rfl

/-- A comment begins at a semicolon, and ends at a line feed only. -/
theorem comment_concat_iff {front : List Char} {c : Char} :
    comment (front ++ [c]) = true ↔ (comment front = true ∨ c = ';') ∧ c ≠ '\n' := by
  rw [comment_concat, commentAfter, Bool.and_eq_true, Bool.or_eq_true, beq_iff_eq, bne_iff_ne]

/-- A comment of the reader is one of the entry, which ends later if at all. -/
theorem comment_of_inComment {text : List Char} (h : Token.InComment text) :
    comment text = true := by
  induction text using List.reverseRecOn with
  | nil => exact absurd h Token.not_inComment_nil
  | append_singleton front c ih =>
      obtain ⟨hfront, hbreak⟩ := Token.inComment_concat_iff.mp h
      have hc : c ≠ '\n' := by
        rintro rfl
        cases hbreak
      exact comment_concat_iff.mpr ⟨hfront.imp_left ih, hc⟩

/-- A comment of an entry goes on up to the next line feed. -/
theorem comment_append {front middle : List Char} (h : comment front = true)
    (hmiddle : '\n' ∉ middle) : comment (front ++ middle) = true := by
  induction middle using List.reverseRecOn with
  | nil => rwa [List.append_nil]
  | append_singleton middle c ih =>
      rw [List.mem_append, List.mem_singleton, not_or] at hmiddle
      rw [← List.append_assoc]
      exact comment_concat_iff.mpr ⟨Or.inl (ih hmiddle.1), Ne.symm hmiddle.2⟩

/-- Where an entry is in a comment and the reader is not, a carriage return has ended the comment
for the reader, and no line feed has come since. -/
theorem exists_carriageReturn {front : List Char} (h : comment front = true)
    (hnot : ¬Token.InComment front) :
    ∃ start middle, front = start ++ '\r' :: middle ∧ Token.InComment start ∧ '\n' ∉ middle := by
  induction front using List.reverseRecOn with
  | nil => cases h
  | append_singleton front c ih =>
      rw [Token.inComment_concat_iff] at hnot
      obtain ⟨hbefore, hc⟩ := comment_concat_iff.mp h
      by_cases hin : Token.InComment front
      · have hbreak : Token.isLineBreak c = true := by
          simpa [hin] using hnot
        obtain rfl : c = '\r' := by
          simpa [Token.isLineBreak, hc] using hbreak
        exact ⟨front, [], rfl, hin, by simp⟩
      · have hfront : comment front = true := by
          rcases hbefore with hbefore | rfl
          · exact hbefore
          · exact absurd ⟨Or.inr rfl, rfl⟩ hnot
        obtain ⟨start, middle, rfl, hstart, hmiddle⟩ := ih hfront hin
        refine ⟨start, middle ++ [c], by simp, hstart, ?_⟩
        rw [List.mem_append, List.mem_singleton, not_or]
        exact ⟨hmiddle, Ne.symm hc⟩

end Entry

/-- Each carriage return that ends a comment has nothing but line breaks and comments after it, up
to the next line feed. -/
def LineFeedsEndComments (text : List Char) : Prop :=
  ∀ front middle c back, text = front ++ '\r' :: middle ++ c :: back → Token.InComment front →
    '\n' ∉ middle → Token.isLineBreak c = false →
    Token.InComment (front ++ '\r' :: middle ++ [c])

/-- The scanners of an entry and the reader see the same comments. -/
def SameComments (text : List Char) : Prop :=
  ∀ front c back, text = front ++ c :: back → Token.isLineBreak c = false →
    (Entry.comment (front ++ [c]) = true ↔ Token.InComment (front ++ [c]))

/-- The condition on the text is the one for the same comments. -/
theorem sameComments_iff {text : List Char} : SameComments text ↔ LineFeedsEndComments text := by
  constructor
  · intro h front middle c back htext hfront hmiddle hbreak
    have hcomment : Entry.comment (front ++ '\r' :: middle) = true := by
      refine Entry.comment_append (Entry.comment_of_inComment hfront) ?_
      rw [List.mem_cons, not_or]
      exact ⟨by decide, hmiddle⟩
    have hc : c ≠ '\n' := by
      rintro rfl
      cases hbreak
    exact (h _ c back htext hbreak).mp (Entry.comment_concat_iff.mpr ⟨Or.inl hcomment, hc⟩)
  · intro h front c back htext hbreak
    refine ⟨fun hcomment => ?_, Entry.comment_of_inComment⟩
    rw [Token.inComment_concat_iff]
    refine ⟨?_, hbreak⟩
    rcases (Entry.comment_concat_iff.mp hcomment).1 with hfront | hsemicolon
    · by_cases hin : Token.InComment front
      · exact Or.inl hin
      · obtain ⟨start, middle, rfl, hstart, hmiddle⟩ := Entry.exists_carriageReturn hfront hin
        have hlast := h start middle c back htext hstart hmiddle hbreak
        exact (Token.inComment_concat_iff.mp hlast).1
    · exact Or.inr hsemicolon

/-! ### The verdict -/

namespace Token

variable {mode : Mode} {c : Char}

theorem depth?_ended (mode : Mode) (offset depth : Nat) :
    depth? depth (mode.ended offset) = some depth := by
  cases mode <;> rfl

/-- A character that is no parenthesis, or stands in a comment, leaves the depth alone. -/
theorem depth?_scan_skip (h : mode = .comment ∨ c ≠ '(' ∧ c ≠ ')') (offset depth : Nat)
    (rest : List Char) :
    depth? depth (scan mode offset (c :: rest)) =
      depth? depth (scan (mode.after offset c) (offset + c.utf8Size) rest) := by
  have hemitted : depth? depth (mode.emitted offset c) = some depth := by
    unfold Mode.emitted
    split
    · rfl
    split
    · exact depth?_ended mode offset depth
    · next hmode _ =>
        obtain ⟨hopening, hclosing⟩ := h.resolve_left hmode
        rw [if_neg hopening, if_neg hclosing]
        rfl
  rw [scan_cons, depth?_append, hemitted, Option.bind_some]

theorem depth?_scan_opening (h : mode ≠ .comment) (offset depth : Nat) (rest : List Char) :
    depth? depth (scan mode offset ('(' :: rest)) =
      depth? (depth + 1) (scan (mode.after offset '(') (offset + '('.utf8Size) rest) := by
  have hemitted : mode.emitted offset '(' =
      mode.ended offset ++ [⟨.opening, ⟨offset, offset + '('.utf8Size⟩⟩] := by
    simp [Mode.emitted, h, isBlank]
  rw [scan_cons, hemitted, depth?_append, depth?_append, depth?_ended]
  rfl

theorem depth?_scan_closing (h : mode ≠ .comment) (offset depth : Nat) (rest : List Char) :
    depth? depth (scan mode offset (')' :: rest)) =
      (Kind.closing.depth? depth).bind
        (depth? · (scan (mode.after offset ')') (offset + ')'.utf8Size) rest)) := by
  have hemitted : mode.emitted offset ')' =
      mode.ended offset ++ [⟨.closing, ⟨offset, offset + ')'.utf8Size⟩⟩] := by
    simp [Mode.emitted, h, isBlank]
  rw [scan_cons, hemitted, depth?_append, depth?_append, depth?_ended, Option.bind_some,
    depth?_cons]
  rcases depth with _ | depth <;> rfl

end Token

namespace Verdict

/-- The verdict that goes with the number of open parentheses, none if one closes nothing. -/
def Suits : Verdict → Option Nat → Prop
  | unmatched _, none => True
  | complete, some 0 => True
  | incomplete, some (_ + 1) => True
  | _, _ => False

section

variable {verdict : Verdict} {depth : Option Nat}

theorem Suits.unmatched_iff (h : verdict.Suits depth) :
    (∃ position, verdict = unmatched position) ↔ depth = none := by
  rcases verdict with _ | _ | position <;> rcases depth with _ | _ | depth <;>
    simp_all [Suits]

theorem Suits.incomplete_iff (h : verdict.Suits depth) :
    verdict = incomplete ↔ ∃ n, depth = some (n + 1) := by
  rcases verdict with _ | _ | position <;> rcases depth with _ | _ | depth <;>
    simp_all [Suits]

theorem Suits.complete_iff (h : verdict.Suits depth) : verdict = complete ↔ depth = some 0 := by
  rcases verdict with _ | _ | position <;> rcases depth with _ | _ | depth <;>
    simp_all [Suits]

end

/-- A character that is no parenthesis, or stands in a comment, leaves the depth alone. -/
theorem scan_skip {comment : Bool} {c : Char} (h : comment = true ∨ c ≠ '(' ∧ c ≠ ')')
    (depth position : Nat) (rest : List Char) :
    scan comment depth position (c :: rest) =
      scan (Entry.commentAfter comment c) depth (position + 1) rest := by
  rcases comment with _ | _
  · obtain ⟨hopening, hclosing⟩ := h.resolve_left (by simp)
    by_cases hsemicolon : c = ';'
    · subst hsemicolon
      simp [scan, Entry.commentAfter]
    · have hafter : Entry.commentAfter false c = false := by
        simp [Entry.commentAfter, hsemicolon]
      simp [scan, hafter, hsemicolon, hopening, hclosing]
  · simp [scan, Entry.commentAfter]

theorem scan_opening (depth position : Nat) (rest : List Char) :
    scan false depth position ('(' :: rest) = scan false (depth + 1) (position + 1) rest := by
  simp [scan]

theorem scan_closing_zero (position : Nat) (rest : List Char) :
    scan false 0 position (')' :: rest) = unmatched position := by
  simp [scan]

theorem scan_closing_succ (depth position : Nat) (rest : List Char) :
    scan false (depth + 1) position (')' :: rest) = scan false depth (position + 1) rest := by
  simp [scan]

/-- **The verdict goes with the number of open parentheses** of the tokens, where the scanners see
the same comments. The induction is on the rest of the text, and `front` is what both have behind
them. -/
theorem scan_suits {front rest : List Char} (h : SameComments (front ++ rest))
    (depth position : Nat) :
    (scan (Entry.comment front) depth position rest).Suits
      (Token.depth? depth
        (Token.scan (Token.Mode.between.afterText 0 front) (Text.byteLength front) rest)) := by
  induction rest generalizing front depth position with
  | nil =>
      rw [Token.scan_nil, Token.depth?_ended]
      rcases depth with _ | depth <;> trivial
  | cons c rest ih =>
      have hnext (depth : Nat) := ih (by rwa [List.append_cons] at h) depth (position + 1)
      rw [Entry.comment_concat, Token.Mode.afterText_append, Text.byteLength_append,
        Nat.zero_add] at hnext
      by_cases hskip : Token.InComment front ∨ c ≠ '(' ∧ c ≠ ')'
      · rw [scan_skip (hskip.imp_left Entry.comment_of_inComment), Token.depth?_scan_skip hskip]
        exact hnext depth
      rw [not_or, not_and_or, not_ne_iff, not_ne_iff] at hskip
      obtain ⟨hin, hparenthesis⟩ := hskip
      -- The entry may see a comment where the reader sees none, but not before a parenthesis.
      have hcomment : Entry.comment front = false := by
        have hsame := h front c rest rfl
        rw [Entry.comment_concat, Token.inComment_concat_iff] at hsame
        rcases hparenthesis with rfl | rfl <;>
          simpa [Entry.commentAfter, Token.isLineBreak, hin] using hsame
      rw [hcomment] at hnext ⊢
      rcases hparenthesis with rfl | rfl
      · rw [scan_opening, Token.depth?_scan_opening hin]
        exact hnext (depth + 1)
      · rw [Token.depth?_scan_closing hin]
        rcases depth with _ | depth
        · rw [scan_closing_zero]
          trivial
        · rw [scan_closing_succ]
          exact hnext depth

theorem ofText_suits {text : String} (h : SameComments text.toList) :
    (ofText text.toList).Suits (Token.depth? 0 (Token.ofText text)) := by
  have hall : SameComments ([] ++ text.toList) := h
  exact scan_suits hall 0 0

end Verdict

/-! ### Colours -/

namespace Highlight

/-- What a character is that comes next in its line. -/
def roleOf (comment : Bool) (stack : List Nat) (c : Char) : Role :=
  if comment || c == ';' then .comment
  else if c = ')' then
    match stack with
    | [] => .unmatched
    | opening :: _ => .closes opening
  else .other

/-- The opening parentheses that wait for a partner after the character at `offset`. -/
def stackAfter (comment : Bool) (stack : List Nat) (offset : Nat) (c : Char) : List Nat :=
  if comment || c == ';' then stack
  else if c = '(' then offset :: stack
  else if c = ')' then stack.tail
  else stack

/-- The opening parentheses that wait for a partner after a text. -/
def waitingFrom (comment : Bool) (stack : List Nat) (offset : Nat) : List Char → List Nat
  | [] => stack
  | c :: rest =>
    waitingFrom (Entry.commentAfter comment c) (stackAfter comment stack offset c)
      (offset + c.utf8Size) rest

section

variable (comment : Bool) (stack : List Nat) (offset : Nat)

/-- Placing a character, and then the rest of the line after it. -/
theorem place_cons (c : Char) (rest : List Char) :
    place comment stack offset (c :: rest) =
      ⟨c, offset, roleOf comment stack c⟩ ::
        place (Entry.commentAfter comment c) (stackAfter comment stack offset c)
          (offset + c.utf8Size) rest := by
  cases hcomment : comment || c == ';' with
  | true => simp [place, roleOf, stackAfter, Entry.commentAfter, hcomment]
  | false =>
      obtain ⟨rfl, hsemicolon⟩ := Bool.or_eq_false_iff.mp hcomment
      by_cases hopening : c = '('
      · subst hopening
        simp [place, roleOf, stackAfter, Entry.commentAfter]
      by_cases hclosing : c = ')'
      · subst hclosing
        rcases stack with _ | ⟨opening, stack⟩ <;>
          simp [place, roleOf, stackAfter, Entry.commentAfter]
      · simp [place, roleOf, stackAfter, Entry.commentAfter, hcomment, hopening, hclosing]

/-- Placing a line, and then the rest after it. -/
theorem place_append (front back : List Char) :
    place comment stack offset (front ++ back) =
      place comment stack offset front ++
        place (front.foldl Entry.commentAfter comment) (waitingFrom comment stack offset front)
          (offset + Text.byteLength front) back := by
  induction front generalizing comment stack offset with
  | nil => rfl
  | cons c front ih =>
      rw [List.cons_append, place_cons, place_cons, ih, Text.byteLength_cons, Nat.add_assoc]
      rfl

/-- A character of a line in its place. -/
theorem getElem?_place (front : List Char) (c : Char) (back : List Char) :
    (place false [] 0 (front ++ c :: back))[front.length]? =
      some ⟨c, Text.byteLength front,
        roleOf (Entry.comment front) (waitingFrom false [] 0 front) c⟩ := by
  have hlength : (place false [] 0 front).length = front.length := by
    rw [← List.length_map Placed.char, map_char_place]
  rw [place_append, place_cons, Nat.zero_add, List.getElem?_append_right (by omega), hlength,
    Nat.sub_self]
  rfl

end

theorem roleOf_eq_comment_iff {comment : Bool} {stack : List Nat} {c : Char} :
    roleOf comment stack c = .comment ↔ comment = true ∨ c = ';' := by
  unfold roleOf
  split
  · simp_all
  · split
    · split <;> simp_all
    · simp_all

theorem style_eq_comment_iff (pair : Option (Nat × Nat)) (p : Placed) :
    p.style pair = .comment ↔ p.role = .comment := by
  unfold Placed.style
  rcases p.role with _ | _ | opening | _
  · simp
  · simp
  all_goals
    rcases pair with _ | ⟨opening, closing⟩
    · simp
    · simp only [reduceCtorEq, iff_false]
      split
      · simp
      · split <;> simp

/-- A character that is no line break is shown in the colour of comments if the entry is in one
after it, wherever the cursor is. -/
theorem styles_eq_comment_iff (cursor : Nat) (front : List Char) {c : Char} (back : List Char)
    (hbreak : Token.isLineBreak c = false) :
    ∃ style, (styles (front ++ c :: back) cursor)[front.length]? = some (c, style) ∧
      (style = .comment ↔ Entry.comment (front ++ [c]) = true) := by
  have hcomment : Entry.comment (front ++ [c]) = true ↔ Entry.comment front = true ∨ c = ';' := by
    have hchar : c ≠ '\n' := by
      rintro rfl
      cases hbreak
    rw [Entry.comment_concat_iff, and_iff_left hchar]
  unfold styles
  dsimp only
  rw [List.getElem?_map, getElem?_place, Option.map_some, hcomment]
  exact ⟨_, rfl, (style_eq_comment_iff _ _).trans roleOf_eq_comment_iff⟩

end Highlight

/-! ### All three -/

/-- The scanners of an entry and the reader agree on a text: on its parentheses, and on its
comments. And what the verdict promises of reading holds. -/
structure ScannersAgree (text : String) : Prop where
  /-- An entry is refused if a closing parenthesis has no partner. -/
  unmatched : (∃ position, Verdict.ofText text.toList = .unmatched position) ↔
    Token.Unmatched (Token.ofText text)
  /-- More is to come if all have, and there are more opening parentheses than closing ones. -/
  incomplete : Verdict.ofText text.toList = .incomplete ↔
    ¬Token.Unmatched (Token.ofText text) ∧
      Token.count .closing (Token.ofText text) < Token.count .opening (Token.ofText text)
  /-- Otherwise the entry is complete. -/
  complete : Verdict.ofText text.toList = .complete ↔
    ¬Token.Unmatched (Token.ofText text) ∧
      ¬Token.count .closing (Token.ofText text) < Token.count .opening (Token.ofText text)
  /-- A character that is no line break is shown in the colour of comments if the reader skips it
  as part of one. -/
  comments : ∀ cursor front c back, text.toList = front ++ c :: back →
    Token.isLineBreak c = false →
    ∃ style, (Highlight.styles text.toList cursor)[front.length]? = some (c, style) ∧
      (style = .comment ↔ Token.InComment (front ++ [c]))
  /-- A complete entry with a token in it does not end too early. -/
  ends : Verdict.ofText text.toList = .complete → Token.ofText text ≠ [] →
    ∀ expected, Expr.ofText text ≠ .error (.unexpectedEnd expected)
  /-- An entry that is not complete is no expression. -/
  fails : Verdict.ofText text.toList ≠ .complete → ∀ e, Expr.ofText text ≠ .ok e

/-- **The scanners of an entry agree with the reader** exactly on the texts in which each carriage
return that ends a comment has nothing but line breaks and comments after it, up to the next line
feed. -/
theorem scannersAgree_iff (text : String) :
    ScannersAgree text ↔ LineFeedsEndComments text.toList := by
  rw [← sameComments_iff]
  constructor
  · intro h front c back htext hbreak
    obtain ⟨style, hstyle, hreader⟩ := h.comments 0 front c back htext hbreak
    obtain ⟨style', hstyle', hentry⟩ := Highlight.styles_eq_comment_iff 0 front back hbreak
    rw [htext, hstyle'] at hstyle
    cases hstyle
    exact hentry.symm.trans hreader
  · intro h
    have hsuits := Verdict.ofText_suits h
    refine ⟨?_, ?_, ?_, fun cursor front c back htext hbreak => ?_,
      fun hcomplete hne expected hend => ?_, fun hnot e hread => hnot ?_⟩
    · rw [hsuits.unmatched_iff, Token.unmatched_iff_depth?_eq_none]
    · rw [hsuits.incomplete_iff, Token.exists_depth?_eq_succ_iff]
    · rw [hsuits.complete_iff, Token.depth?_eq_zero_iff]
    · obtain ⟨style, hstyle, hentry⟩ := Highlight.styles_eq_comment_iff cursor front back hbreak
      rw [htext]
      exact ⟨style, hstyle, hentry.trans (h front c back htext hbreak)⟩
    · obtain ⟨n, hn⟩ := Expr.depth?_of_unexpectedEnd hend hne
      rw [hsuits.complete_iff.mp hcomplete] at hn
      cases hn
    · rw [hsuits.complete_iff]
      exact (Expr.ofTokens_eq_ok_iff.mp hread).balanced.depth?_eq 0

/-- After a carriage return the reader is out of the comment and the scanners of an entry are
not: they do not see that the list is closed. -/
theorem not_scannersAgree_carriageReturn : ¬ScannersAgree "(;\r)" := by
  intro h
  have hincomplete : Verdict.ofText "(;\r)".toList = .incomplete := by decide
  have hcount := (h.incomplete.mp hincomplete).2
  exact absurd hcount (by decide)

end FlatLisp
