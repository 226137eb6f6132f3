import FlatLisp.Proofs.Gaps
import Mathlib.Data.List.TakeWhile
import Mathlib.Logic.ExistsUnique

/-!
# The Tokens of a Text

The scanner reads a character at a time. Its tokens can be told in two other ways, neither of which
knows of its modes.

One says where the tokens are. They stand in the text one after the other, each at its span and not
empty; what is left of the text around them is blanks and comments; and no two words touch. There is
one row of tokens for which this holds.

The other says how to find them, by five patterns. At each place the longest piece of text that any
of the patterns matches is taken, a token or something to skip, and the next piece begins where this
one ends. Every character begins a match, of one pattern only, so that there is always a piece to
take and never an error.

## Main definitions

* `Token.Tokenizes`: the tokens are in their places, and nothing is between them but blanks and
  comments.
* `Token.Pattern`: what a lexeme begins with and goes on with.
* `Token.Lexes`: a text is taken apart by longest matches.

## Main results

* `Token.Pattern.existsUnique_longest`: every text that is not empty begins with one longest match.
* `Token.laidOut_iff`, `Token.lexes_iff`: the scanner finds what the patterns match.
* `Token.tokenizes_iff_laidOut`: tokens in their places make a layout, and the other way round.
* `Token.ofText_unique`: the tokens of a text are the only ones.
-/

namespace FlatLisp

open Text

namespace Token

/-- The tokens of a text: each in its place, all in order, and between them, before the first and
after the last blanks and comments only. -/
structure Tokenizes (text : List Char) (tokens : List Token) : Prop where
  /-- Each token stands in the text, from a character on and up to a character, and is the text of
  its span: a parenthesis, or a word in which nothing parts words. -/
  stands : ∀ t ∈ tokens, t.Stands text
  /-- No span is empty. -/
  nonempty : ∀ t ∈ tokens, t.span.start < t.span.stop
  /-- Each token ends before the later ones begin. -/
  ordered : tokens.Pairwise fun t u => t.span.stop ≤ u.span.start
  /-- No two words touch. -/
  apart : tokens.Pairwise fun t u => t.IsWordToken → u.IsWordToken → t.span.stop ≠ u.span.start
  /-- A part of the text that begins with the text or behind a token, that ends with the text or in
  front of a token, and in which no token stands, is made of blanks and comments. -/
  gaps : ∀ front gap back, text = front ++ (gap ++ back) →
    (front = [] ∨ ∃ t ∈ tokens, t.span.stop = byteLength front) →
    (back = [] ∨ ∃ t ∈ tokens, t.span.start = byteLength (front ++ gap)) →
    (∀ t ∈ tokens, t.span.stop ≤ byteLength front ∨ byteLength (front ++ gap) ≤ t.span.start) →
    Gap back gap

/-- The patterns that a text is taken apart by. -/
inductive Pattern where
  /-- Blanks. -/
  | blanks
  /-- A comment. -/
  | comment
  /-- An opening parenthesis. -/
  | opening
  /-- A closing parenthesis. -/
  | closing
  /-- A word. -/
  | word
deriving DecidableEq

namespace Pattern

/-- The pattern that matches begin with this character. -/
def ofFirst (c : Char) : Pattern :=
  if isBlank c then blanks
  else if c = ';' then comment
  else if c = '(' then opening
  else if c = ')' then closing
  else word

/-- What a match begins with. -/
def first : Pattern → Char → Bool
  | blanks, c => isBlank c
  | comment, c => c == ';'
  | opening, c => c == '('
  | closing, c => c == ')'
  | word, c => isWordChar c

/-- What a match goes on with, any number of times. -/
def more : Pattern → Char → Bool
  | blanks, c => isBlank c
  | comment, c => !isLineBreak c
  | opening, _ => false
  | closing, _ => false
  | word, c => isWordChar c

/-- A pattern matches a text. -/
def Matches (p : Pattern) (lexeme : List Char) : Prop :=
  ∃ c rest, lexeme = c :: rest ∧ p.first c = true ∧ ∀ d ∈ rest, p.more d = true

/-- A pattern matches the front of a text, and no pattern matches a longer front of it. -/
def Longest (p : Pattern) (lexeme back : List Char) : Prop :=
  p.Matches lexeme ∧
    ∀ (q : Pattern) (other : List Char), other <+: lexeme ++ back → q.Matches other →
      other.length ≤ lexeme.length

/-- The token that a match at `offset` is, if it is one. -/
def token (p : Pattern) (offset : Nat) (lexeme : List Char) : List Token :=
  let span : Span := ⟨offset, offset + byteLength lexeme⟩
  match p with
  | blanks => []
  | comment => []
  | opening => [⟨.opening, span⟩]
  | closing => [⟨.closing, span⟩]
  | word => [⟨.word (String.ofList lexeme), span⟩]

end Pattern

/-- A text at `offset` is taken apart by longest matches into these tokens. -/
inductive Lexes : Nat → List Char → List Token → Prop
  | nil {offset : Nat} : Lexes offset [] []
  | lexeme {p : Pattern} {offset : Nat} {lexeme back : List Char} {tokens : List Token} :
      p.Longest lexeme back → Lexes (offset + byteLength lexeme) back tokens →
      Lexes offset (lexeme ++ back) (p.token offset lexeme ++ tokens)

/-! ### Longest matches -/

namespace Pattern

variable {p : Pattern} {c : Char} {rest lexeme back : List Char}

/-- Every character begins the matches of one pattern, and of no other. -/
theorem first_iff : p.first c = true ↔ p = ofFirst c := by
  rw [ofFirst]
  split
  · next hblank =>
      have hsemicolon : c ≠ ';' := by
        rintro rfl
        cases hblank
      have hopening : c ≠ '(' := by
        rintro rfl
        cases hblank
      have hclosing : c ≠ ')' := by
        rintro rfl
        cases hblank
      cases p <;> simp [first, isWordChar, hblank, hsemicolon, hopening, hclosing]
  split
  · next hsemicolon =>
      subst hsemicolon
      cases p <;> simp [first, isWordChar, isBlank]
  split
  · next hopening =>
      subst hopening
      cases p <;> simp [first, isWordChar, isBlank]
  split
  · next hclosing =>
      subst hclosing
      cases p <;> simp [first, isWordChar, isBlank]
  · next hblank hsemicolon hopening hclosing =>
      cases p <;> simp [first, isWordChar, hblank, hsemicolon, hopening, hclosing]

/-- A match is the longest if the text does not go on with what the match could go on with. -/
theorem longest_iff :
    p.Longest lexeme back ↔ p.Matches lexeme ∧ ∀ d ∈ back.head?, p.more d = false := by
  constructor
  · rintro ⟨hmatches, hlongest⟩
    refine ⟨hmatches, fun d hd => ?_⟩
    obtain ⟨after, rfl⟩ := List.head?_eq_some_iff.mp hd
    obtain ⟨c, rest, rfl, hfirst, hrest⟩ := hmatches
    rw [← Bool.not_eq_true]
    intro hmore
    have hlonger : p.Matches (c :: (rest ++ [d])) := by
      refine ⟨c, rest ++ [d], rfl, hfirst, List.forall_mem_append.mpr ⟨hrest, ?_⟩⟩
      exact List.forall_mem_singleton.mpr hmore
    have hle := hlongest p _ ⟨after, by simp⟩ hlonger
    simp only [List.length_cons, List.length_append, List.length_nil] at hle
    omega
  · rintro ⟨hmatches, hends⟩
    refine ⟨hmatches, fun q other hprefix hother => ?_⟩
    obtain ⟨c, rest, rfl, hfirst, hrest⟩ := hmatches
    obtain ⟨c', rest', rfl, hfirst', hrest'⟩ := hother
    rw [List.cons_append] at hprefix
    obtain ⟨rfl, htail⟩ := List.cons_prefix_cons.mp hprefix
    obtain rfl : q = p := (first_iff.mp hfirst').trans (first_iff.mp hfirst).symm
    obtain hlength | hlength := Nat.le_total rest'.length rest.length
    · exact Nat.succ_le_succ hlength
    · obtain ⟨beyond, rfl⟩ :=
        List.prefix_of_prefix_length_le (List.prefix_append rest back) htail hlength
      -- What the other match has beyond this one would begin the text that is left.
      rcases beyond with _ | ⟨d, beyond⟩
      · simp
      · obtain ⟨after, rfl⟩ := (List.prefix_append_right_inj rest).mp htail
        have hmore := hrest' d (by simp)
        rw [hends d rfl] at hmore
        cases hmore

/-- What a match goes on with, as far as the text does. -/
theorem longest_takeWhile (c : Char) (text : List Char) :
    (ofFirst c).Longest (c :: text.takeWhile (ofFirst c).more)
      (text.dropWhile (ofFirst c).more) := by
  refine longest_iff.mpr ⟨⟨c, _, rfl, first_iff.mpr rfl, fun d => List.mem_takeWhile_imp⟩,
    fun d hd => ?_⟩
  have hnot := List.head?_dropWhile_not (ofFirst c).more text
  rw [Option.mem_def.mp hd] at hnot
  exact hnot

/-- A text begins with one longest match at most. -/
theorem Longest.unique {q : Pattern} {other after : List Char} (h : p.Longest lexeme back)
    (hother : q.Longest other after) (htext : lexeme ++ back = other ++ after) :
    p = q ∧ lexeme = other ∧ back = after := by
  obtain ⟨rfl, rfl⟩ : lexeme = other ∧ back = after := by
    refine List.append_inj htext (Nat.le_antisymm ?_ ?_)
    · exact hother.2 p lexeme ⟨back, htext⟩ h.1
    · exact h.2 q other ⟨after, htext.symm⟩ hother.1
  obtain ⟨⟨c, rest, rfl, hfirst, -⟩, -⟩ := h
  obtain ⟨⟨c', rest', hlexeme, hfirst', -⟩, -⟩ := hother
  obtain ⟨rfl, -⟩ := List.cons_eq_cons.mp hlexeme
  exact ⟨(first_iff.mp hfirst).trans (first_iff.mp hfirst').symm, rfl, rfl⟩

/-- **Every text that is not empty begins with a longest match**, and with one only: one pattern
matches it, and one piece of it is the longest that is matched. -/
theorem existsUnique_longest {text : List Char} (h : text ≠ []) :
    ∃! found : Pattern × List Char × List Char,
      text = found.2.1 ++ found.2.2 ∧ found.1.Longest found.2.1 found.2.2 := by
  obtain ⟨c, text, rfl⟩ := List.exists_cons_of_ne_nil h
  have hfound := longest_takeWhile c text
  have htext : c :: text = (c :: text.takeWhile (ofFirst c).more) ++
      text.dropWhile (ofFirst c).more := by
    rw [List.cons_append, List.takeWhile_append_dropWhile]
  refine ⟨⟨ofFirst c, _, _⟩, ⟨htext, hfound⟩, ?_⟩
  rintro ⟨p, lexeme, back⟩ ⟨hother, hlongest⟩
  obtain ⟨rfl, rfl, rfl⟩ := hlongest.unique hfound (hother.symm.trans htext)
  rfl

end Pattern

/-! ### What the patterns match -/

theorem Gap.of_forall_isBlank {blanks : List Char} (h : ∀ c ∈ blanks, isBlank c = true)
    (back : List Char) : Gap back blanks := by
  induction blanks with
  | nil => exact .nil
  | cons c rest ih =>
      obtain ⟨hc, hrest⟩ := List.forall_mem_cons.mp h
      exact .blank hc (ih hrest)

/-- A text that is taken apart by longest matches is laid out. -/
theorem Lexes.laidOut {offset : Nat} {text : List Char} {tokens : List Token}
    (h : Lexes offset text tokens) : LaidOut offset text tokens := by
  induction h with
  | nil => exact .last .nil
  | @lexeme p offset lexeme back tokens hlongest _ ih =>
      obtain ⟨⟨c, rest, rfl, hfirst, hrest⟩, hends⟩ := Pattern.longest_iff.mp hlongest
      cases p with
      | blanks =>
          exact ih.gap_append (.of_forall_isBlank (List.forall_mem_cons.mpr ⟨hfirst, hrest⟩) back)
      | comment =>
          obtain rfl : c = ';' := beq_iff_eq.mp hfirst
          have hbody : ∀ d ∈ rest, isLineBreak d = false := by
            simpa [Pattern.more] using hrest
          have hstops : EndsComment ([] ++ back) := by
            simpa [Pattern.more, EndsComment] using hends
          have hgap : Gap back (';' :: (rest ++ [])) := .comment hbody hstops .nil
          rw [List.append_nil] at hgap
          exact ih.gap_append hgap
      | opening =>
          obtain rfl : c = '(' := beq_iff_eq.mp hfirst
          obtain rfl : rest = [] := List.eq_nil_iff_forall_not_mem.mpr fun d hd => by
            cases hrest d hd
          exact LaidOut.cons .opening ih nofun
      | closing =>
          obtain rfl : c = ')' := beq_iff_eq.mp hfirst
          obtain rfl : rest = [] := List.eq_nil_iff_forall_not_mem.mpr fun d hd => by
            cases hrest d hd
          exact LaidOut.cons .closing ih nofun
      | word =>
          obtain ⟨w, hw⟩ : ∃ w : String, w.toList = c :: rest :=
            ⟨String.ofList (c :: rest), String.toList_ofList⟩
          have hword : IsWord w := by
            rw [IsWord, hw]
            exact ⟨List.cons_ne_nil c rest, List.forall_mem_cons.mpr ⟨hfirst, hrest⟩⟩
          have htoken : Pattern.word.token offset w.toList =
              [⟨.word w, ⟨offset, offset + byteLength w.toList⟩⟩] := by
            simp [Pattern.token]
          rw [← hw] at ih ⊢
          rw [htoken]
          refine LaidOut.cons (.word w) ih fun v hv => ?_
          cases hv
          exact ⟨hword, hends⟩

/-- Every text can be taken apart by longest matches. -/
theorem exists_lexes (offset : Nat) (text : List Char) : ∃ tokens, Lexes offset text tokens := by
  induction hlength : text.length using Nat.strong_induction_on generalizing offset text with
  | _ length ih =>
      cases text with
      | nil => exact ⟨[], .nil⟩
      | cons c text =>
          have hshorter : (text.dropWhile (Pattern.ofFirst c).more).length < length := by
            have hle := (List.dropWhile_sublist (Pattern.ofFirst c).more (l := text)).length_le
            rw [← hlength, List.length_cons]
            omega
          obtain ⟨tokens, htokens⟩ := ih _ hshorter
            (offset + byteLength (c :: text.takeWhile (Pattern.ofFirst c).more)) _ rfl
          have hlexes := Lexes.lexeme (Pattern.longest_takeWhile c text) htokens
          rw [List.cons_append, List.takeWhile_append_dropWhile] at hlexes
          exact ⟨_, hlexes⟩

/-- **The scanner finds what the patterns match**, and nothing else is taken apart from a text. -/
theorem lexes_iff {offset : Nat} {text : List Char} {tokens : List Token} :
    Lexes offset text tokens ↔ scan .between offset text = tokens := by
  constructor
  · exact fun h => h.laidOut.scan_eq
  · rintro rfl
    obtain ⟨tokens, hlexes⟩ := exists_lexes offset text
    rwa [hlexes.laidOut.scan_eq]

/-- **The scanner finds the tokens that a text is laid out with**, and every text is. -/
theorem laidOut_iff {offset : Nat} {text : List Char} {tokens : List Token} :
    LaidOut offset text tokens ↔ scan .between offset text = tokens :=
  ⟨LaidOut.scan_eq, fun h => (lexes_iff.mpr h).laidOut⟩

/-! ### Tokens in their places -/

/-- Where no word begins right here, no character of a word comes next. -/
theorem LaidOut.endsWord {offset : Nat} {text : List Char} {tokens : List Token}
    (h : LaidOut offset text tokens)
    (hfirst : ∀ t ∈ tokens.head?, t.IsWordToken → t.span.start ≠ offset) : EndsWord text := by
  cases h with
  | last hgap =>
      cases text with
      | nil => simp [EndsWord]
      | cons c text =>
          have hends := hgap.endsWord (List.cons_ne_nil c text)
          rwa [List.append_nil] at hends
  | @token _ gap rest t tokens hgap hspelled hspan _ _ =>
      cases gap with
      | nil =>
          have hnot : ¬ t.IsWordToken := fun hword => hfirst t rfl hword (by rw [hspan]; simp)
          obtain ⟨c, more, hdisplay, -, -, hc⟩ := hspelled.exists_display
          rw [hdisplay]
          rintro d ⟨⟩
          rwa [← Bool.not_eq_true, hc]
      | cons c gap => exact hgap.endsWord (List.cons_ne_nil c gap)

/-- The tokens that are left when some are done are laid out in the text that is left. -/
theorem Tokenizes.laidOut_append {text front rest : List Char} {all done tokens : List Token}
    (h : Tokenizes text all) (hall : all = done ++ tokens) (htext : text = front ++ rest)
    (hfront : front = [] ∨ ∃ t ∈ all, t.span.stop = byteLength front)
    (hdone : ∀ t ∈ done, t.span.stop ≤ byteLength front)
    (hleft : ∀ t ∈ tokens, byteLength front ≤ t.span.start) :
    LaidOut (byteLength front) rest tokens := by
  induction tokens generalizing done front rest with
  | nil =>
      rw [List.append_nil] at hall
      subst hall
      exact .last (h.gaps front rest [] (by rw [htext, List.append_nil]) hfront (.inl rfl)
        fun t ht => .inl (hdone t ht))
  | cons t tokens ih =>
      have ht : t ∈ all := by simp [hall]
      obtain ⟨⟨before, back, hplace, hspan⟩, hword⟩ := h.stands t ht
      obtain ⟨hstart, hleft⟩ := List.forall_mem_cons.mp hleft
      rw [hspan] at hstart
      rw [List.append_assoc] at hplace
      obtain ⟨gap, rfl, rfl⟩ :=
        exists_append_of_byteLength_le (htext.symm.trans hplace) hstart
      have hstop : t.span.stop = byteLength (front ++ gap ++ t.display.toList) := by
        rw [hspan, byteLength_append (front ++ gap)]
      have hordered := (List.pairwise_cons.mp (List.pairwise_append.mp (hall ▸ h.ordered)).2.1).1
      have hapart := (List.pairwise_cons.mp (List.pairwise_append.mp (hall ▸ h.apart)).2.1).1
      have hgap : Gap (t.display.toList ++ back) gap := by
        refine h.gaps front gap _ htext hfront (.inr ⟨t, ht, by rw [hspan]⟩) fun u hu => ?_
        rw [hall, List.mem_append, List.mem_cons] at hu
        rcases hu with hu | rfl | hu
        · exact .inl (hdone u hu)
        · exact .inr (congrArg Span.start hspan).ge
        · have hle := hordered u hu
          rw [hspan] at hle
          exact .inr ((Nat.le_add_right _ _).trans hle)
      have hrest : LaidOut t.span.stop back tokens := by
        rw [hstop]
        refine ih (hall.trans (List.append_cons ..)) ?_ (.inr ⟨t, ht, hstop⟩) ?_
          fun u hu => hstop ▸ hordered u hu
        · rw [hplace, List.append_assoc _ t.display.toList]
        · refine List.forall_mem_append.mpr ⟨fun u hu => (hdone u hu).trans ?_, ?_⟩
          · rw [List.append_assoc, byteLength_append front]
            exact Nat.le_add_right ..
          · exact List.forall_mem_singleton.mpr hstop.le
      refine .token hgap hword ?_ (fun hw => hrest.endsWord fun u hu hword heq => ?_) hrest
      · rw [hspan, byteLength_append front]
      · exact hapart u (List.mem_of_mem_head? hu) hw hword heq.symm

/-! ### What a layout says of its tokens -/

section

variable {offset : Nat} {text : List Char} {tokens : List Token}

/-- No span is empty, and none begins in front of the text. -/
theorem LaidOut.bounds (h : LaidOut offset text tokens) :
    ∀ t ∈ tokens, offset ≤ t.span.start ∧ t.span.start < t.span.stop := by
  induction h with
  | last => simp
  | @token offset gap rest t tokens _ hspelled hspan _ _ ih =>
      obtain ⟨c, more, hdisplay, -⟩ := hspelled.exists_display
      have hpos : 0 < byteLength t.display.toList := byteLength_pos (by simp [hdisplay])
      have ht : offset ≤ t.span.start ∧ t.span.start < t.span.stop := by
        simp only [hspan]
        omega
      refine List.forall_mem_cons.mpr ⟨ht, fun u hu => ?_⟩
      obtain ⟨hstart, hnonempty⟩ := ih u hu
      exact ⟨ht.1.trans (ht.2.le.trans hstart), hnonempty⟩

/-- The tokens are in order. -/
theorem LaidOut.ordered (h : LaidOut offset text tokens) :
    tokens.Pairwise fun t u => t.span.stop ≤ u.span.start := by
  induction h with
  | last => exact .nil
  | token _ _ _ _ hrest ih => exact .cons (fun u hu => (hrest.bounds u hu).1) ih

/-- No token begins before the first one, and none ends before it. -/
theorem LaidOut.first_le {t : Token} (h : LaidOut offset text (t :: tokens)) :
    ∀ u ∈ t :: tokens, t.span.start ≤ u.span.start ∧ t.span.stop ≤ u.span.stop := by
  obtain ⟨⟨-, ht⟩, htokens⟩ := List.forall_mem_cons.mp h.bounds
  refine List.forall_mem_cons.mpr ⟨⟨le_rfl, le_rfl⟩, fun u hu => ?_⟩
  have hordered := (List.pairwise_cons.mp h.ordered).1 u hu
  have hu := (htokens u hu).2
  omega

/-- Where no character of a word comes next, no word begins. -/
theorem LaidOut.start_ne (h : LaidOut offset text tokens) (hends : EndsWord text) :
    ∀ t ∈ tokens, t.IsWordToken → t.span.start ≠ offset := by
  cases h with
  | last => simp
  | @token _ gap rest t tokens _ hspelled hspan _ hrest =>
      obtain ⟨c, more, hdisplay, -, -, hc⟩ := hspelled.exists_display
      refine List.forall_mem_cons.mpr ⟨fun hword heq => ?_, fun u hu _ heq => ?_⟩
      · have hgap : gap = [] := by
          by_contra hne
          have hpos := byteLength_pos hne
          rw [hspan] at heq
          simp only at heq
          omega
        have hfalse := hends c (by simp [hgap, hdisplay])
        rw [hc.mpr hword] at hfalse
        cases hfalse
      · have hstop := (hrest.bounds u hu).1
        have hpos : 0 < byteLength t.display.toList := byteLength_pos (by simp [hdisplay])
        rw [hspan, heq] at hstop
        simp only at hstop
        omega

/-- No two words touch. -/
theorem LaidOut.apart (h : LaidOut offset text tokens) :
    tokens.Pairwise fun t u => t.IsWordToken → u.IsWordToken → t.span.stop ≠ u.span.start := by
  induction h with
  | last => exact .nil
  | token _ _ _ hends hrest ih =>
      exact .cons (fun u hu ht hword => (hrest.start_ne (hends ht) u hu hword).symm) ih

end

/-- Where no token stands, and right up to the tokens around it, there is a gap. -/
theorem LaidOut.gaps {front text : List Char} {tokens : List Token}
    (h : LaidOut (byteLength front) text tokens) {before gap back : List Char}
    (htext : front ++ text = before ++ (gap ++ back))
    (hbefore : before = front ∨ ∃ t ∈ tokens, t.span.stop = byteLength before)
    (hback : back = [] ∨ ∃ t ∈ tokens, t.span.start = byteLength (before ++ gap))
    (hnone : ∀ t ∈ tokens,
      t.span.stop ≤ byteLength before ∨ byteLength (before ++ gap) ≤ t.span.start) :
    Gap back gap := by
  generalize hoffset : byteLength front = offset at h
  induction h generalizing front with
  | last hgap =>
      simp only [List.not_mem_nil, false_and, exists_false, or_false] at hbefore hback
      subst hbefore hback
      have hgap' := List.append_cancel_left htext
      rw [List.append_nil] at hgap'
      rwa [← hgap']
  | @token offset inner rest t tokens hinner hspelled hspan hends hrest ih =>
      have hfirst := (LaidOut.token hinner hspelled hspan hends hrest).first_le
      subst hoffset
      obtain ⟨c, more, hdisplay, -⟩ := hspelled.exists_display
      have hpos : 0 < byteLength t.display.toList := byteLength_pos (by simp [hdisplay])
      have hstart : t.span.start = byteLength (front ++ inner) := by
        rw [hspan, byteLength_append]
      have hstop : t.span.stop = byteLength (front ++ inner ++ t.display.toList) := by
        rw [hspan, byteLength_append, byteLength_append]
      have htext' : (front ++ inner) ++ (t.display.toList ++ rest) = (before ++ gap) ++ back := by
        rw [List.append_assoc, htext, List.append_assoc]
      obtain ⟨hbeside, hnone⟩ := List.forall_mem_cons.mp hnone
      rcases hbefore with rfl | ⟨u, hu, hubefore⟩
      · -- The part ends where the first token begins.
        have hle : byteLength (before ++ gap) ≤ t.span.start := by
          refine hbeside.resolve_left ?_
          rw [hstop, byteLength_append, byteLength_append]
          omega
        have hge : t.span.start ≤ byteLength (before ++ gap) := by
          rcases hback with rfl | ⟨u, hu, heq⟩
          · rw [hstart, ← List.append_nil (before ++ gap), ← htext', byteLength_append (_ ++ inner)]
            exact Nat.le_add_right ..
          exact heq ▸ (hfirst u hu).1
        obtain ⟨hfront, rfl⟩ := append_inj_of_byteLength htext' (by omega)
        obtain rfl := List.append_cancel_left hfront
        exact hinner
      · -- The part stands behind the first token.
        have hstop_le : t.span.stop ≤ byteLength before := hubefore ▸ (hfirst u hu).2
        have hbehind : front ++ inner ++ t.display.toList ++ rest = before ++ (gap ++ back) := by
          rw [List.append_assoc, htext', List.append_assoc]
        refine ih hbehind ?_ ?_ hnone hstop.symm
        · rcases List.mem_cons.mp hu with rfl | hu
          · exact .inl (append_inj_of_byteLength hbehind (hstop.symm.trans hubefore)).1.symm
          · exact .inr ⟨u, hu, hubefore⟩
        · refine hback.imp_right fun ⟨v, hv, hvback⟩ => ⟨v, ?_, hvback⟩
          refine (List.mem_cons.mp hv).resolve_left ?_
          rintro rfl
          rw [hstart, byteLength_append before] at hvback
          rw [hstop, byteLength_append (front ++ inner)] at hstop_le
          omega

/-- **Tokens in their places make a layout**, and the other way round. -/
theorem tokenizes_iff_laidOut {text : List Char} {tokens : List Token} :
    Tokenizes text tokens ↔ LaidOut 0 text tokens := by
  constructor
  · intro h
    have hall : tokens = [] ++ tokens := rfl
    have htext : text = [] ++ text := rfl
    exact h.laidOut_append hall htext (.inl rfl) nofun fun t _ => Nat.zero_le _
  · intro h
    refine ⟨fun t ht => ?_, fun t ht => (h.bounds t ht).2, h.ordered, h.apart, ?_⟩
    · have hbetween : Mode.between.Stands [] := trivial
      rw [← h.scan_eq] at ht
      exact hbetween.scan text ht
    · intro before gap back htext hbefore hback hnone
      have hzero : LaidOut (byteLength []) text tokens := h
      exact hzero.gaps htext hbefore hback hnone

/-- **The tokens of a text are the only ones** that stand in it in their places with nothing but
blanks and comments around them, and the only ones that it is taken apart into by longest matches.
No place in a text is without a match. -/
theorem ofText_unique (text : String) (tokens : List Token) :
    (Tokenizes text.toList tokens ↔ tokens = ofText text) ∧
    (Lexes 0 text.toList tokens ↔ tokens = ofText text) ∧
    ∀ rest, rest <:+ text.toList → rest ≠ [] →
      ∃! found : Pattern × List Char × List Char,
        rest = found.2.1 ++ found.2.2 ∧ found.1.Longest found.2.1 found.2.2 := by
  refine ⟨?_, ?_, fun rest _ hrest => Pattern.existsUnique_longest hrest⟩
  · rw [tokenizes_iff_laidOut, laidOut_iff]
    exact eq_comm
  · rw [lexes_iff]
    exact eq_comm

end Token

end FlatLisp
