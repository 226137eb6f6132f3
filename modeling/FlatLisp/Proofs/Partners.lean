import FlatLisp.Proofs.EntryScanners

/-!
# Partners

Parentheses outside comments belong together by nesting: between the two there is a text in which
each parenthesis has its partner, too. This module says so without a stack, by a grammar of such
texts (`Entry.Balanced`), and shows that the highlighter, which has a stack, sees the same pairs,
and the same closing parentheses that have no partner.

The innermost parenthesis that waits for its partner is the one after which there is a balanced
text, if it is in no comment. That it waits is a run over the balanced text, which leaves the stack
alone (`Highlight.waiting_pair`). That nothing else waits is shown by induction on the length of the
text before, from its last character: a closing parenthesis takes back two balanced texts and the
parenthesis between them, and the line feed of a comment takes back the whole comment
(`Highlight.innermost_of_waiting`).

## Main definitions

* `Entry.InComment`: the character after a text stands in a comment.
* `Entry.Balanced`: texts in which each parenthesis has its partner.
* `Entry.Partners`: two parentheses of a line that belong together.
* `Entry.Unmatched`: a closing parenthesis without a partner.
* `Entry.Lit`: partners of which one stands right before the cursor.
* `Highlight.Style.Fits`: the style that a character is to have.

## Main results

* `Entry.Partners.eq_of_meet`: a parenthesis has one partner.
* `Highlight.pairAt?_eq_some_iff`: the highlighter finds the partners.
* `Highlight.exists_style_fits`: how each character of a line is shown.
-/

namespace FlatLisp

open Text

namespace Entry

/-- The character `c` after `front` stands in a comment. It is the semicolon that begins one, or
there is a semicolon before it with no line feed in between. -/
def InComment (front : List Char) (c : Char) : Prop :=
  c = ';' ∨ ∃ before body, front = before ++ ';' :: body ∧ '\n' ∉ body

/-- Texts in which each parenthesis outside comments has its partner, and each comment its end. -/
inductive Balanced : List Char → Prop
  | nil : Balanced []
  | other {c : Char} {rest : List Char} :
      c ≠ ';' → c ≠ '(' → c ≠ ')' → Balanced rest → Balanced (c :: rest)
  | comment {body rest : List Char} :
      '\n' ∉ body → Balanced rest → Balanced (';' :: (body ++ '\n' :: rest))
  | pair {inside rest : List Char} :
      Balanced inside → Balanced rest → Balanced ('(' :: (inside ++ ')' :: rest))

/-- After `front` the parenthesis at the byte offset `opening` is the next to be closed: it is in no
comment, and what comes after it is balanced. -/
def Waits (front : List Char) (opening : Nat) : Prop :=
  ∃ before inside, front = before ++ '(' :: inside ∧ ¬InComment before '(' ∧ Balanced inside ∧
    opening = byteLength before

/-- The parentheses at these byte offsets belong together. -/
def Partners (line : List Char) (opening closing : Nat) : Prop :=
  ∃ front back, line = front ++ ')' :: back ∧ ¬InComment front ')' ∧ Waits front opening ∧
    closing = byteLength front

/-- The character `c` after `front` is a closing parenthesis outside comments, and there is none for
it to close. -/
def Unmatched (front : List Char) (c : Char) : Prop :=
  c = ')' ∧ ¬InComment front c ∧ ∀ opening, ¬Waits front opening

/-- These parentheses belong together, and one of them stands right before the cursor. -/
def Lit (line : List Char) (cursor opening closing : Nat) : Prop :=
  Partners line opening closing ∧ (cursor = opening + 1 ∨ cursor = closing + 1)

/-! ### Comments -/

section

variable {front : List Char} {c : Char}

/-- Where an entry is in a comment, the comment has begun at a semicolon that was in none. -/
theorem exists_comment (h : comment front = true) :
    ∃ before body, front = before ++ ';' :: body ∧ '\n' ∉ body ∧ comment before = false := by
  induction front using List.reverseRecOn with
  | nil => cases h
  | append_singleton front c ih =>
      obtain ⟨hbegun, hchar⟩ := comment_concat_iff.mp h
      rcases hfront : comment front with _ | _
      · obtain rfl : c = ';' := hbegun.resolve_left (by simp [hfront])
        exact ⟨front, [], rfl, by simp, hfront⟩
      · obtain ⟨before, body, rfl, hbody, hbefore⟩ := ih hfront
        exact ⟨before, body ++ [c], by simp, by simp [hbody, Ne.symm hchar], hbefore⟩

theorem inComment_iff : InComment front c ↔ comment front = true ∨ c = ';' := by
  rw [InComment, or_comm]
  refine or_congr_left ⟨?_, fun h => ?_⟩
  · rintro ⟨before, body, rfl, hbody⟩
    have hbegun : comment (before ++ [';']) = true :=
      comment_concat_iff.mpr ⟨Or.inr rfl, by decide⟩
    rw [List.append_cons]
    exact comment_append hbegun hbody
  · obtain ⟨before, body, hfront, hbody, -⟩ := exists_comment h
    exact ⟨before, body, hfront, hbody⟩

/-- A parenthesis begins no comment. -/
theorem not_inComment_iff (h : c ≠ ';') : ¬InComment front c ↔ comment front = false := by
  simp [inComment_iff, h]

end

/-! ### Balanced texts -/

theorem Balanced.append {front back : List Char} (h : Balanced front) (h' : Balanced back) :
    Balanced (front ++ back) := by
  induction h with
  | nil => exact h'
  | other hsemicolon hopening hclosing _ ih => exact .other hsemicolon hopening hclosing ih
  | comment hbody _ ih =>
      rw [List.cons_append, List.append_assoc]
      exact .comment hbody ih
  | pair hinside _ _ ih =>
      rw [List.cons_append, List.append_assoc]
      exact .pair hinside ih

/-! ### A balanced text is passed over -/

theorem foldl_commentAfter_of_not_mem {body : List Char} (h : '\n' ∉ body) :
    body.foldl commentAfter true = true := by
  have hbegun : comment [';'] = true := rfl
  exact comment_append hbegun h

/-- After a balanced text that begins outside comments there is no comment. -/
theorem Balanced.foldl_commentAfter {inside : List Char} (h : Balanced inside) :
    inside.foldl commentAfter false = false := by
  induction h with
  | nil => rfl
  | @other c rest hsemicolon _ _ _ ih =>
      have hafter : commentAfter false c = false := by
        simp [commentAfter, hsemicolon]
      rw [List.foldl_cons, hafter, ih]
  | @comment body rest hbody _ ih =>
      have hsemicolon : commentAfter false ';' = true := rfl
      rw [List.foldl_cons, hsemicolon, List.foldl_append, foldl_commentAfter_of_not_mem hbody]
      exact ih
  | pair _ _ ihinside ihrest =>
      have hopening : commentAfter false '(' = false := rfl
      rw [List.foldl_cons, hopening, List.foldl_append, ihinside]
      exact ihrest

end Entry

namespace Highlight

open Entry

/-- A comment leaves the stack alone. -/
theorem waitingFrom_comment {body : List Char} (h : '\n' ∉ body) (stack : List Nat) (offset : Nat) :
    waitingFrom true stack offset body = stack := by
  induction body generalizing offset with
  | nil => rfl
  | cons c body ih =>
      rw [List.mem_cons, not_or] at h
      have hafter : commentAfter true c = true := by
        simp [commentAfter, Ne.symm h.1]
      rw [waitingFrom, hafter]
      exact ih h.2 (offset + c.utf8Size)

theorem waitingFrom_append (comment : Bool) (stack : List Nat) (offset : Nat)
    (front back : List Char) :
    waitingFrom comment stack offset (front ++ back) =
      waitingFrom (front.foldl commentAfter comment) (waitingFrom comment stack offset front)
        (offset + byteLength front) back := by
  induction front generalizing comment stack offset with
  | nil => rfl
  | cons c front ih =>
      rw [List.cons_append, waitingFrom, ih, byteLength_cons, Nat.add_assoc]
      rfl

/-- A balanced text leaves the stack alone. -/
theorem waitingFrom_balanced {inside : List Char} (h : Balanced inside) (stack : List Nat)
    (offset : Nat) : waitingFrom false stack offset inside = stack := by
  induction h generalizing stack offset with
  | nil => rfl
  | @other c inside hsemicolon hopening hclosing _ ih =>
      have hafter : commentAfter false c = false := by
        simp [commentAfter, hsemicolon]
      have hstack : stackAfter false stack offset c = stack := by
        simp [stackAfter, hopening, hclosing]
      rw [waitingFrom, hafter, hstack]
      exact ih stack (offset + c.utf8Size)
  | @comment body inside hbody _ ih =>
      have hsemicolon : commentAfter false ';' = true ∧ stackAfter false stack offset ';' = stack :=
        ⟨rfl, rfl⟩
      rw [waitingFrom, hsemicolon.1, hsemicolon.2, waitingFrom_append,
        foldl_commentAfter_of_not_mem hbody, waitingFrom_comment hbody]
      exact ih stack _
  | @pair inside rest hinside _ ihinside ihrest =>
      have hopening : commentAfter false '(' = false ∧
          stackAfter false stack offset '(' = offset :: stack := ⟨rfl, rfl⟩
      rw [waitingFrom, hopening.1, hopening.2, waitingFrom_append, hinside.foldl_commentAfter,
        ihinside]
      exact ihrest stack _

theorem mem_stackAfter {comment : Bool} {stack : List Nat} {offset opening : Nat} {c : Char}
    (h : opening ∈ stackAfter comment stack offset c) :
    opening ∈ stack ∨ c = '(' ∧ opening = offset := by
  unfold stackAfter at h
  split at h
  · exact .inl h
  · split at h
    · next hopening => exact (List.mem_cons.mp h).symm.imp_right fun heq => ⟨hopening, heq⟩
    · split at h
      · exact .inl (List.mem_of_mem_tail h)
      · exact .inl h

/-- What waits after a text has waited before it, or stands in it. -/
theorem mem_waitingFrom {comment : Bool} {stack : List Nat} {offset opening : Nat}
    {text : List Char} (h : opening ∈ waitingFrom comment stack offset text) :
    opening ∈ stack ∨ offset ≤ opening := by
  induction text generalizing comment stack offset with
  | nil => exact .inl h
  | cons c rest ih =>
      rcases ih h with hstack | hlater
      · exact (mem_stackAfter hstack).imp_right fun hnew => Nat.le_of_eq hnew.2.symm
      · exact .inr (Nat.le_trans (Nat.le_add_right ..) hlater)

/-- A balanced text that goes on with a closing parenthesis is not balanced again: the parenthesis
takes away one that waited before. -/
theorem not_balanced_closing {inside : List Char} (h : Balanced inside) (more : List Char) :
    ¬Balanced (inside ++ ')' :: more) := by
  intro hmore
  have hkept : waitingFrom false [0] 1 (inside ++ ')' :: more) = [0] :=
    waitingFrom_balanced hmore [0] 1
  have hclosing (closing : Nat) : commentAfter false ')' = false ∧
      stackAfter false [0] closing ')' = [] := ⟨rfl, rfl⟩
  rw [waitingFrom_append, h.foldl_commentAfter, waitingFrom_balanced h, waitingFrom,
    (hclosing 0).1, (hclosing _).2] at hkept
  have hmem : 0 ∈ waitingFrom false [] (1 + byteLength inside + ')'.utf8Size) more :=
    hkept ▸ List.mem_singleton.mpr rfl
  rcases mem_waitingFrom hmem with hnone | hlater
  · cases hnone
  · omega

/-- The parentheses that wait for their partners after a text. -/
def waiting (front : List Char) : List Nat :=
  waitingFrom false [] 0 front

theorem waiting_concat (front : List Char) (c : Char) :
    waiting (front ++ [c]) = stackAfter (comment front) (waiting front) (byteLength front) c := by
  rw [waiting, waitingFrom_append, Nat.zero_add]
  rfl

/-- **After a balanced text the parenthesis before it waits**, on top of what waited before. -/
theorem waiting_pair {before inside : List Char} (h : comment before = false)
    (hinside : Balanced inside) :
    waiting (before ++ '(' :: inside) = byteLength before :: waiting before := by
  have hopening : waiting (before ++ ['(']) = byteLength before :: waiting before := by
    rw [waiting_concat, h]
    rfl
  have hcomment : comment (before ++ ['(']) = false := by
    rw [comment_concat, h]
    rfl
  rw [List.append_cons, waiting, waitingFrom_append, ← comment, ← waiting, hcomment, hopening]
  exact waitingFrom_balanced hinside _ _

/-- In a comment what waits has waited when the comment began. -/
theorem waiting_comment {start body : List Char} (h : comment start = false) (hbody : '\n' ∉ body) :
    waiting (start ++ ';' :: body) = waiting start := by
  have hsemicolon : waiting (start ++ [';']) = waiting start := by
    rw [waiting_concat, h]
    rfl
  have hcomment : comment (start ++ [';']) = true := by
    rw [comment_concat, h]
    rfl
  rw [List.append_cons, waiting, waitingFrom_append, ← comment, ← waiting, hcomment, hsemicolon]
  exact waitingFrom_comment hbody _ _

/-- The innermost parenthesis that waits after `front` is the one at `opening`. What comes after it
is balanced, and `outer` waits before it. -/
def Innermost (front : List Char) (opening : Nat) (outer : List Nat) : Prop :=
  ∃ before inside, front = before ++ '(' :: inside ∧ comment before = false ∧ Balanced inside ∧
    opening = byteLength before ∧ waiting before = outer

/-- A balanced text does not change which parenthesis is the innermost one. -/
theorem Innermost.append {front more : List Char} {opening : Nat} {outer : List Nat}
    (h : Innermost front opening outer) (hmore : Balanced more) :
    Innermost (front ++ more) opening outer := by
  obtain ⟨before, inside, rfl, hcomment, hinside, hopening, houter⟩ := h
  exact ⟨before, inside ++ more, by simp, hcomment, hinside.append hmore, hopening, houter⟩

/-- **Where a parenthesis waits, there is a balanced text after it.** The induction is on the length
of the text, and the cases are on its last character. -/
theorem innermost_of_waiting {front : List Char} {opening : Nat} {outer : List Nat}
    (hcomment : comment front = false) (h : waiting front = opening :: outer) :
    Innermost front opening outer := by
  induction hlength : front.length using Nat.strongRecOn generalizing front opening outer with
  | ind length ih =>
      subst hlength
      rcases List.eq_nil_or_concat front with rfl | ⟨front, c, rfl⟩
      · cases h
      rw [List.concat_eq_append] at hcomment h ih ⊢
      rw [waiting_concat] at h
      rw [comment_concat] at hcomment
      rcases hfront : comment front with _ | _
      · have hsemicolon : c ≠ ';' := by
          rintro rfl
          simp [commentAfter] at hcomment
        rw [hfront] at h
        by_cases hopening : c = '('
        · subst hopening
          obtain ⟨rfl, rfl⟩ := List.cons.inj h
          exact ⟨front, [], rfl, hfront, .nil, rfl, rfl⟩
        by_cases hclosing : c = ')'
        · subst hclosing
          have htail : (waiting front).tail = opening :: outer := h
          obtain ⟨closed, rest, hwaiting⟩ : ∃ closed rest, waiting front = closed :: rest := by
            rcases hwaiting : waiting front with _ | ⟨closed, rest⟩
            · rw [hwaiting] at htail
              cases htail
            · exact ⟨closed, rest, rfl⟩
          rw [hwaiting, List.tail_cons] at htail
          obtain ⟨middle, inner, rfl, hmiddle, hinner, -, hbefore⟩ :=
            ih _ (by simp) hfront hwaiting rfl
          have hinnermost := ih _ (by simp) hmiddle (hbefore.trans htail) rfl
          rw [List.append_assoc, List.cons_append]
          exact hinnermost.append (.pair hinner .nil)
        · have hstack : stackAfter false (waiting front) (byteLength front) c = waiting front := by
            simp [stackAfter, hsemicolon, hopening, hclosing]
          rw [hstack] at h
          exact (ih _ (by simp) hfront h rfl).append (.other hsemicolon hopening hclosing .nil)
      -- Only the line feed ends a comment.
      · rw [hfront] at h hcomment
        obtain rfl : c = '\n' := by
          simpa [commentAfter] using hcomment
        obtain ⟨start, body, rfl, hbody, hstart⟩ := exists_comment hfront
        have hwaiting : waiting start = opening :: outer :=
          (waiting_comment hstart hbody).symm.trans h
        rw [List.append_assoc, List.cons_append]
        exact (ih _ (by simp) hstart hwaiting rfl).append (.comment hbody .nil)

/-- The innermost parenthesis that waits is the one with a balanced text after it. -/
theorem waits_iff {front : List Char} (hcomment : comment front = false) {opening : Nat} :
    Waits front opening ↔ ∃ outer, waiting front = opening :: outer := by
  constructor
  · rintro ⟨before, inside, rfl, hbefore, hinside, rfl⟩
    rw [not_inComment_iff (by decide)] at hbefore
    exact ⟨_, waiting_pair hbefore hinside⟩
  · rintro ⟨outer, houter⟩
    obtain ⟨before, inside, hfront, hbefore, hinside, hopening, -⟩ :=
      innermost_of_waiting hcomment houter
    exact ⟨before, inside, hfront, (not_inComment_iff (by decide)).mpr hbefore, hinside, hopening⟩

/-! ### Roles -/

section

variable {front : List Char} {c : Char}

/-- Outside comments only a closing parenthesis has a role. -/
theorem roleOf_of_ne (h : ¬InComment front c) (hclosing : c ≠ ')') (stack : List Nat) :
    roleOf (comment front) stack c = .other := by
  rw [inComment_iff, not_or, Bool.not_eq_true] at h
  simp [roleOf, h.1, h.2, hclosing]

theorem roleOf_eq_closes_iff {opening : Nat} :
    roleOf (comment front) (waiting front) c = .closes opening ↔
      c = ')' ∧ ¬InComment front c ∧ Waits front opening := by
  by_cases hin : InComment front c
  · simp [roleOf_eq_comment_iff.mpr (inComment_iff.mp hin), hin]
  by_cases hclosing : c = ')'
  · subst hclosing
    have hcomment := (not_inComment_iff (by decide)).mp hin
    rw [waits_iff hcomment, hcomment]
    rcases waiting front with _ | ⟨innermost, outer⟩ <;> simp [roleOf, hin]
  · simp [roleOf_of_ne hin hclosing, hclosing]

theorem roleOf_eq_unmatched_iff :
    roleOf (comment front) (waiting front) c = .unmatched ↔ Unmatched front c := by
  unfold Unmatched
  by_cases hin : InComment front c
  · simp [roleOf_eq_comment_iff.mpr (inComment_iff.mp hin), hin]
  by_cases hclosing : c = ')'
  · subst hclosing
    have hcomment := (not_inComment_iff (by decide)).mp hin
    simp only [waits_iff hcomment, hcomment]
    rcases waiting front with _ | ⟨innermost, outer⟩ <;> simp [roleOf, hin]
  · simp [roleOf_of_ne hin hclosing, hclosing]

end

/-- What stands in a line, each character in its place. -/
theorem mem_place_iff {text : List Char} {p : Placed} :
    p ∈ place false [] 0 text ↔ ∃ front c back, text = front ++ c :: back ∧
      p = ⟨c, byteLength front, roleOf (comment front) (waiting front) c⟩ := by
  constructor
  · intro h
    obtain ⟨i, hi⟩ := List.getElem?_of_mem h
    have hlength : i < text.length := by
      have hplaced := (List.getElem?_eq_some_iff.mp hi).1
      rwa [← List.length_map Placed.char, map_char_place] at hplaced
    have htext : text = text.take i ++ text[i] :: text.drop (i + 1) := by
      rw [← List.drop_eq_getElem_cons hlength, List.take_append_drop]
    refine ⟨_, _, _, htext, ?_⟩
    have hplace := getElem?_place (text.take i) text[i] (text.drop (i + 1))
    rw [← htext, List.length_take_of_le (Nat.le_of_lt hlength), hi] at hplace
    exact Option.some.inj hplace
  · rintro ⟨front, c, back, rfl, rfl⟩
    exact List.mem_of_getElem? (getElem?_place front c back)

/-! ### Pairs -/

end Highlight

namespace Entry

variable {line : List Char} {opening closing opening' closing' : Nat}

/-- The partners in a line, as the highlighter has them. -/
theorem partners_iff : Partners line opening closing ↔
    ∃ p ∈ Highlight.place false [] 0 line, p.role = .closes opening ∧ p.offset = closing := by
  constructor
  · rintro ⟨front, back, hline, hin, hwaits, rfl⟩
    exact ⟨_, Highlight.mem_place_iff.mpr ⟨front, ')', back, hline, rfl⟩,
      Highlight.roleOf_eq_closes_iff.mpr ⟨rfl, hin, hwaits⟩, rfl⟩
  · rintro ⟨p, hp, hrole, rfl⟩
    obtain ⟨front, c, back, hline, rfl⟩ := Highlight.mem_place_iff.mp hp
    obtain ⟨rfl, hin, hwaits⟩ := Highlight.roleOf_eq_closes_iff.mp hrole
    exact ⟨front, back, hline, hin, hwaits, rfl⟩

/-- Where the opening partner stands. -/
theorem Partners.exists_opening (h : Partners line opening closing) :
    ∃ before inside back, line = before ++ '(' :: (inside ++ ')' :: back) ∧
      ¬InComment before '(' ∧ Balanced inside ∧ opening = byteLength before ∧
      closing = byteLength (before ++ '(' :: inside) := by
  obtain ⟨_, back, rfl, -, ⟨before, inside, rfl, hbefore, hinside, rfl⟩, rfl⟩ := h
  exact ⟨before, inside, back, by simp, hbefore, hinside, rfl, rfl⟩

theorem Partners.lt (h : Partners line opening closing) : opening < closing := by
  obtain ⟨before, inside, back, -, -, -, rfl, rfl⟩ := h.exists_opening
  have hpos := '('.utf8Size_pos
  rw [byteLength_append, byteLength_cons]
  omega

theorem Partners.closing_lt (h : Partners line opening closing) : closing < byteLength line := by
  obtain ⟨front, back, rfl, -, -, rfl⟩ := h
  have hpos := ')'.utf8Size_pos
  rw [byteLength_append, byteLength_cons]
  omega

/-- Partners stay partners when the line goes on. -/
theorem Partners.append (h : Partners line opening closing) (more : List Char) :
    Partners (line ++ more) opening closing := by
  obtain ⟨front, back, rfl, hin, hwaits, hclosing⟩ := h
  exact ⟨front, back ++ more, by simp, hin, hwaits, hclosing⟩

/-- A balanced text between two parentheses is told by where it begins. -/
theorem Balanced.unique {inside inside' back back' : List Char} (h : Balanced inside)
    (h' : Balanced inside') (hsame : inside ++ ')' :: back = inside' ++ ')' :: back') :
    inside = inside' := by
  rcases List.append_eq_append_iff.mp hsame with ⟨between, rfl, hback⟩ | ⟨between, rfl, hback⟩
  · rcases between with _ | ⟨c, more⟩
    · rw [List.append_nil]
    · obtain ⟨rfl, -⟩ := List.cons.inj hback
      exact absurd h' (Highlight.not_balanced_closing h more)
  · rcases between with _ | ⟨c, more⟩
    · rw [List.append_nil]
    · obtain ⟨rfl, -⟩ := List.cons.inj hback
      exact absurd h (Highlight.not_balanced_closing h' more)

/-- An opening parenthesis is closed once. -/
theorem Partners.closing_unique (h : Partners line opening closing)
    (h' : Partners line opening closing') : closing = closing' := by
  obtain ⟨before, inside, back, rfl, -, hinside, rfl, rfl⟩ := h.exists_opening
  obtain ⟨before', inside', back', hline, -, hinside', hopening, rfl⟩ := h'.exists_opening
  obtain ⟨rfl, hrest⟩ := append_inj_of_byteLength hline hopening
  rw [hinside.unique hinside' (List.cons.inj hrest).2]

/-- A closing parenthesis closes one. -/
theorem Partners.opening_unique (h : Partners line opening closing)
    (h' : Partners line opening' closing) : opening = opening' := by
  obtain ⟨front, back, rfl, hin, hwaits, rfl⟩ := h
  obtain ⟨front', back', hline, -, hwaits', hclosing⟩ := h'
  obtain ⟨rfl, -⟩ := append_inj_of_byteLength hline hclosing
  have hcomment := (not_inComment_iff (by decide)).mp hin
  obtain ⟨outer, houter⟩ := (Highlight.waits_iff hcomment).mp hwaits
  obtain ⟨outer', houter'⟩ := (Highlight.waits_iff hcomment).mp hwaits'
  exact (List.cons.inj (houter.symm.trans houter')).1

/-- An opening parenthesis is no closing one. -/
theorem Partners.ne (h : Partners line opening closing) (h' : Partners line opening' closing') :
    opening ≠ closing' := by
  intro heq
  obtain ⟨before, inside, back, rfl, -, -, rfl, -⟩ := h.exists_opening
  obtain ⟨front, back', hline, -, -, rfl⟩ := h'
  obtain ⟨-, hchar⟩ := append_inj_of_byteLength hline heq
  cases (List.cons.inj hchar).1

/-- **A parenthesis has one partner.** -/
theorem Partners.eq_of_meet {cursor : Nat} (h : Partners line opening closing)
    (h' : Partners line opening' closing') (hmeet : opening = cursor ∨ closing = cursor)
    (hmeet' : opening' = cursor ∨ closing' = cursor) : opening = opening' ∧ closing = closing' := by
  rcases hmeet with rfl | rfl
  · rcases hmeet' with rfl | heq
    · exact ⟨rfl, h.closing_unique h'⟩
    · exact absurd heq.symm (h.ne h')
  · rcases hmeet' with heq | rfl
    · exact absurd heq (h'.ne h)
    · exact ⟨h.opening_unique h', rfl⟩

/-- At most one pair is lit. -/
theorem Lit.unique {cursor : Nat} (h : Lit line cursor opening closing)
    (h' : Lit line cursor opening' closing') : opening = opening' ∧ closing = closing' := by
  have hmeet := h.2
  have hmeet' := h'.2
  exact @Partners.eq_of_meet _ _ _ _ _ (cursor - 1) h.1 h'.1 (by omega) (by omega)

end Entry

namespace Highlight

open Entry

variable {line : List Char} {cursor opening closing : Nat}

/-- The pair that the highlighter finds is the partners of which one stands there. -/
theorem pairAt?_eq_some_iff :
    pairAt? cursor (place false [] 0 line) = some (opening, closing) ↔
      Partners line opening closing ∧ (opening = cursor ∨ closing = cursor) := by
  have hsound {opening closing}
      (h : pairAt? cursor (place false [] 0 line) = some (opening, closing)) :
      Partners line opening closing ∧ (opening = cursor ∨ closing = cursor) := by
    obtain ⟨p, hp, hpair⟩ := List.exists_of_findSome?_eq_some h
    rcases hrole : p.role with _ | _ | o | _ <;> rw [hrole] at hpair
    case closes =>
      dsimp only at hpair
      split at hpair
      · next hmeet =>
          obtain ⟨rfl, rfl⟩ := Prod.mk.inj (Option.some.inj hpair)
          exact ⟨partners_iff.mpr ⟨p, hp, hrole, rfl⟩, by simpa using hmeet⟩
      · cases hpair
    all_goals cases hpair
  refine ⟨hsound, fun ⟨hpartners, hmeet⟩ => ?_⟩
  obtain ⟨p, hp, hrole, hoffset⟩ := partners_iff.mp hpartners
  rcases hfound : pairAt? cursor (place false [] 0 line) with _ | ⟨opening', closing'⟩
  · have hnone := List.findSome?_eq_none_iff.mp hfound p hp
    simp [hrole, hoffset, hmeet] at hnone
  · obtain ⟨hpartners', hmeet'⟩ := hsound hfound
    obtain ⟨rfl, rfl⟩ := hpartners.eq_of_meet hpartners' hmeet hmeet'
    rfl

/-- The pair of parentheses that is lit in a line. -/
def lit? (cursor : Nat) (line : List Placed) : Option (Nat × Nat) :=
  match cursor with
  | 0 => none
  | before + 1 => pairAt? before line

theorem lit?_eq_some_iff :
    lit? cursor (place false [] 0 line) = some (opening, closing) ↔
      Lit line cursor opening closing := by
  cases cursor with
  | zero => simp [lit?, Lit]
  | succ before => simp [lit?, Lit, pairAt?_eq_some_iff, eq_comm (a := before)]

theorem styles_eq_map (line : List Char) (cursor : Nat) :
    styles line cursor = (place false [] 0 line).map fun p =>
      (p.char, p.style (lit? cursor (place false [] 0 line))) := rfl

/-! ### Styles -/

section

variable {p : Placed} {pair : Option (Nat × Nat)}

theorem style_eq_unmatched_iff : p.style pair = .unmatched ↔ p.role = .unmatched := by
  unfold Placed.style
  rcases p.role with _ | _ | opening | _
  · simp
  · simp
  all_goals
    rcases pair with _ | ⟨opening, closing⟩
    · simp
    · simp
      grind

theorem style_eq_opening_iff : p.style pair = .opening ↔
    p.role ≠ .comment ∧ p.role ≠ .unmatched ∧ ∃ closing, pair = some (p.offset, closing) := by
  unfold Placed.style
  rcases p.role with _ | _ | opening | _
  · simp
  · simp
  all_goals
    rcases pair with _ | ⟨opening, closing⟩
    · simp
    · simp
      grind

theorem style_eq_closing_iff : p.style pair = .closing ↔
    p.role ≠ .comment ∧ p.role ≠ .unmatched ∧
      ∃ opening, pair = some (opening, p.offset) ∧ opening ≠ p.offset := by
  unfold Placed.style
  rcases p.role with _ | _ | opening | _
  · simp
  · simp
  all_goals
    rcases pair with _ | ⟨opening, closing⟩
    · simp
    · simp
      grind

end

/-- How the character `c` after `front` is to be shown in its line: grey in a comment, red if it
closes nothing, blue if it is one of the partners that are lit, and as it is otherwise. -/
structure Style.Fits (line : List Char) (cursor : Nat) (front : List Char) (c : Char)
    (style : Style) : Prop where
  comment : style = .comment ↔ InComment front c
  unmatched : style = .unmatched ↔ Unmatched front c
  opening : style = .opening ↔ ∃ closing, Lit line cursor (byteLength front) closing
  closing : style = .closing ↔ ∃ opening, Lit line cursor opening (byteLength front)
  bare : style = .bare ↔ ¬InComment front c ∧ ¬Unmatched front c ∧
    (∀ closing, ¬Lit line cursor (byteLength front) closing) ∧
      ∀ opening, ¬Lit line cursor opening (byteLength front)

section

variable {front : List Char} {c : Char} {back : List Char}

/-- What is shown as an opening partner is one that is lit. -/
theorem style_eq_opening_iff_lit (hline : line = front ++ c :: back) :
    Placed.style (lit? cursor (place false [] 0 line))
        ⟨c, byteLength front, roleOf (comment front) (waiting front) c⟩ = .opening ↔
      ∃ closing, Lit line cursor (byteLength front) closing := by
  rw [style_eq_opening_iff]
  constructor
  · rintro ⟨-, -, closing, hlit⟩
    exact ⟨closing, lit?_eq_some_iff.mp hlit⟩
  · rintro ⟨closing, hlit⟩
    obtain ⟨before, inside, rest, hbefore, hin, -, hoffset, -⟩ := hlit.1.exists_opening
    obtain ⟨rfl, hchar⟩ := append_inj_of_byteLength (hline.symm.trans hbefore) hoffset
    obtain ⟨rfl, -⟩ := List.cons.inj hchar
    rw [roleOf_of_ne hin (by decide)]
    exact ⟨by simp, by simp, closing, lit?_eq_some_iff.mpr hlit⟩

/-- What is shown as a closing partner is one that is lit. -/
theorem style_eq_closing_iff_lit (hline : line = front ++ c :: back) :
    Placed.style (lit? cursor (place false [] 0 line))
        ⟨c, byteLength front, roleOf (comment front) (waiting front) c⟩ = .closing ↔
      ∃ opening, Lit line cursor opening (byteLength front) := by
  rw [style_eq_closing_iff]
  constructor
  · rintro ⟨-, -, opening, hlit, -⟩
    exact ⟨opening, lit?_eq_some_iff.mp hlit⟩
  · rintro ⟨opening, hlit⟩
    obtain ⟨before, rest, hbefore, hin, hwaits, hoffset⟩ := hlit.1
    obtain ⟨rfl, hchar⟩ := append_inj_of_byteLength (hline.symm.trans hbefore) hoffset
    obtain ⟨rfl, -⟩ := List.cons.inj hchar
    rw [roleOf_eq_closes_iff.mpr ⟨rfl, hin, hwaits⟩]
    exact ⟨by simp, by simp, opening, lit?_eq_some_iff.mpr hlit, Nat.ne_of_lt hlit.1.lt⟩

/-- **How each character of a line is shown.** -/
theorem exists_style_fits (hline : line = front ++ c :: back) :
    ∃ style, (styles line cursor)[front.length]? = some (c, style) ∧
      style.Fits line cursor front c := by
  have hplace : (place false [] 0 line)[front.length]? =
      some ⟨c, byteLength front, roleOf (comment front) (waiting front) c⟩ := by
    rw [hline]
    exact getElem?_place front c back
  have hopening := @style_eq_opening_iff_lit _ cursor _ _ _ hline
  have hclosing := @style_eq_closing_iff_lit _ cursor _ _ _ hline
  have hcomment : Placed.style (lit? cursor (place false [] 0 line))
      ⟨c, byteLength front, roleOf (comment front) (waiting front) c⟩ = .comment ↔
        InComment front c := by
    rw [style_eq_comment_iff, roleOf_eq_comment_iff, inComment_iff]
  have hunmatched : Placed.style (lit? cursor (place false [] 0 line))
      ⟨c, byteLength front, roleOf (comment front) (waiting front) c⟩ = .unmatched ↔
        Unmatched front c := by
    rw [style_eq_unmatched_iff, roleOf_eq_unmatched_iff]
  refine ⟨_, by rw [styles_eq_map, List.getElem?_map, hplace]; rfl, hcomment, hunmatched, hopening,
    hclosing, ?_⟩
  rw [← hcomment, ← hunmatched, ← not_exists, ← not_exists, ← hopening, ← hclosing]
  cases Placed.style (lit? cursor (place false [] 0 line))
    ⟨c, byteLength front, roleOf (comment front) (waiting front) c⟩ <;> simp

end

end Highlight

end FlatLisp
