import FlatLisp.Proofs.Grammar
import FlatLisp.Proofs.Words

/-!
# Where Reading Fails

A row of tokens is viable if something can be put after it that makes it an expression. Reading
stops at the first token that makes the row impossible: what stands before that token is viable,
and with that token it is not. If there is no such token, the whole row is viable and reading
fails because it is not finished.

What has been read is always viable, since the lists that are open can be closed, one after the
other from the inside. A token that the machine refuses makes the row impossible, since the
machine refuses it whatever comes after it; and nothing can come after a complete expression.

## Main definitions

* `Expr.Viable`: the rows that can be continued to an expression.
* `ReadError.site?`: the text and the place of the token that an error names.

## Main results

* `Expr.Pending.exists_derives`: open lists can be closed.
* `Expr.Pending.not_viable`: a token that is refused makes the row impossible.
* `Expr.error_at_first_impossible_token`: where reading a text fails.
-/

namespace FlatLisp

open Text

/-- The text and the place of the token that an error names. The end of the tokens is none. -/
def ReadError.site? : ReadError → Option (String × Span)
  | unexpectedToken found _ => some (found.display, found.span)
  | unexpectedEnd _ => none
  | invalidWord text span => some (text, span)

theorem ReadError.site?_eq_map_token? (error : ReadError) :
    error.site? = error.token?.map fun t => (t.display, t.span) := by
  cases error <;> rfl

namespace Expr

/-- The rows of tokens that are the beginning of an expression, or the whole of one. -/
def Viable (tokens : List Token) : Prop :=
  ∃ more e, Derives (tokens ++ more) e

section

variable {front tokens rest used : List Token} {frame : Frame} {stack outer : List Frame}
  {token : Token} {error : ReadError} {e : Expr}

/-! ### Rows that can be continued -/

theorem Derives.viable (h : Derives front e) : Viable front :=
  ⟨[], e, by rwa [List.append_nil]⟩

/-- A closing parenthesis makes an expression of the innermost list, where one can come in the
lists around it. -/
theorem Pending.close (h : Pending front (frame :: outer)) (s : Span) :
    ∃ before used e, Pending before outer ∧ Ready outer ∧ Derives used e ∧
      front ++ [⟨.closing, s⟩] = before ++ used := by
  cases h with
  | opened hbefore hready =>
      exact ⟨_, _, _, hbefore, hready, .nothing, List.append_assoc ..⟩
  | headed hbefore hready hatom hparts =>
      exact ⟨_, _, _, hbefore, hready, .list hatom hparts, List.append_assoc ..⟩

/-- After an expression that comes where one can come, the lists around it can be closed. The
induction is on these lists: each closing parenthesis makes an expression in the next one. -/
theorem Pending.exists_derives_after (h : Pending front outer) (hready : Ready outer)
    (he : Derives used e) : ∃ more whole, Derives (front ++ used ++ more) whole := by
  induction outer generalizing front used e with
  | nil =>
      have hwhole : Derives (front ++ used) e := h.deliver hready he
      exact ⟨[], e, by rwa [List.append_nil]⟩
  | cons frame outer ih =>
      rcases frame with _ | ⟨head, children⟩
      · exact hready.elim
      have hchild : Pending (front ++ used) (.headed head (e :: children) :: outer) :=
        h.deliver hready he
      obtain ⟨before, list, node, hbefore, houter, hnode, hclose⟩ := hchild.close .zero
      obtain ⟨more, whole, hwhole⟩ := ih hbefore houter hnode
      refine ⟨⟨.closing, .zero⟩ :: more, whole, ?_⟩
      rw [List.append_cons, hclose]
      exact hwhole

/-- **Open lists can be closed**, and it takes at least one more token. -/
theorem Pending.exists_derives (h : Pending front stack) :
    ∃ more e, more ≠ [] ∧ Derives (front ++ more) e := by
  cases stack with
  | nil =>
      cases h
      exact ⟨[⟨.opening, .zero⟩, ⟨.closing, .zero⟩], empty, by simp, .nothing⟩
  | cons frame outer =>
      obtain ⟨before, used, node, hbefore, houter, hnode, hclose⟩ := h.close .zero
      obtain ⟨more, e, he⟩ := hbefore.exists_derives_after houter hnode
      refine ⟨⟨.closing, .zero⟩ :: more, e, by simp, ?_⟩
      rw [List.append_cons, hclose]
      exact he

theorem Pending.viable (h : Pending front stack) : Viable front := by
  obtain ⟨more, e, -, he⟩ := h.exists_derives
  exact ⟨more, e, he⟩

/-! ### Rows that cannot -/

/-- **A token that is refused makes the row impossible**, since it is refused whatever comes
after it. -/
theorem Pending.not_viable (h : Pending front stack)
    (herror : Expr.advance token stack = .error error) : ¬Viable (front ++ [token]) := by
  rintro ⟨more, e, he⟩
  have hread : read (front ++ [token] ++ more) = (.ok e, []) :=
    read_eq_ok_iff.mpr ⟨_, (List.append_nil _).symm, he⟩
  rw [List.append_assoc, List.singleton_append, read, h.readFrom,
    readFrom_of_advance_error herror] at hread
  cases hread

/-- Nothing can come after a complete expression. -/
theorem Derives.not_viable (h : Derives front e) : ¬Viable (front ++ [token]) := by
  rintro ⟨more, whole, hwhole⟩
  rw [List.append_assoc] at hwhole
  have hsame := h.unique hwhole (List.append_nil (front ++ ([token] ++ more))).symm
  simpa using congrArg List.length hsame.1

/-! ### Where the machine stops -/

/-- A token that is refused is the one whose text and place the error names. -/
theorem site?_of_advance (h : advance token stack = .error error) :
    error.site? = some (token.display, token.span) := by
  rw [error.site?_eq_map_token?, token?_of_advance h]
  rfl

/-- The machine stops at the first token that makes the row impossible, or at the end, with some
lists open. -/
theorem Pending.of_readFrom_error (h : Pending front stack)
    (hread : Expr.readFrom stack tokens = (.error error, rest)) :
    (∃ before token, tokens = before ++ token :: rest ∧
      error.site? = some (token.display, token.span) ∧ Viable (front ++ before) ∧
      ¬Viable (front ++ before ++ [token])) ∨
    (error.site? = none ∧ ∃ inner, Pending (front ++ tokens) inner) := by
  induction tokens generalizing front stack with
  | nil =>
      cases hread
      rw [List.append_nil]
      exact Or.inr ⟨rfl, stack, h⟩
  | cons token tokens ih =>
      rw [Expr.readFrom] at hread
      rcases hstep : Expr.advance token stack with error' | complete | inner
      · rw [hstep] at hread
        cases hread
        refine Or.inl ⟨[], token, rfl, site?_of_advance hstep, ?_⟩
        rw [List.append_nil]
        exact ⟨h.viable, h.not_viable hstep⟩
      · rw [hstep] at hread
        cases hread
      · rw [hstep] at hread
        have hinner : Pending (front ++ [token]) inner := h.advance hstep
        rcases ih hinner hread with ⟨before, found, rfl, hsite, hviable, hnot⟩ | ⟨hsite, hpending⟩
        · refine Or.inl ⟨token :: before, found, rfl, hsite, ?_⟩
          rw [List.append_cons front token before]
          exact ⟨hviable, hnot⟩
        · rw [List.append_cons front token tokens]
          exact Or.inr ⟨hsite, hpending⟩

/-- **Reading a row of tokens fails at the first one that makes it impossible**, or at its end,
with some lists open. -/
theorem ofTokens_error (h : ofTokens tokens = .error error) :
    (∃ before token after, tokens = before ++ token :: after ∧
      error.site? = some (token.display, token.span) ∧ Viable before ∧
      ¬Viable (before ++ [token])) ∨
    (error.site? = none ∧ ∃ stack, Pending tokens stack) := by
  rw [ofTokens] at h
  rcases hread : read tokens with ⟨error' | e, rest⟩
  · rw [hread] at h
    cases h
    rcases Pending.nothing.of_readFrom_error hread with ⟨before, token, hfound⟩ | hend
    · exact Or.inl ⟨before, token, rest, hfound⟩
    · exact Or.inr hend
  · rw [hread] at h
    obtain ⟨used, rfl, he⟩ := read_eq_ok_iff.mp hread
    cases rest with
    | nil => cases h
    | cons token rest =>
        cases h
        exact Or.inl ⟨used, token, rest, rfl, rfl, he.viable, he.not_viable⟩

end

/-- **Reading a text fails at the first impossible token.** An error that names a token is at the
span of a token of the text, where the text has the characters that the error names; the tokens
before it are the beginning of an expression, and with it they are the beginning of none. After
any other error the tokens are the beginning of an expression and not the whole of it. -/
theorem error_at_first_impossible_token {text : String} {error : ReadError}
    (h : ofText text = .error error) :
    (∀ found span, error.site? = some (found, span) →
      (∃ front back, text.toList = front ++ found.toList ++ back ∧
        span = ⟨byteLength front, byteLength front + byteLength found.toList⟩) ∧
      ∃ before token after, Token.ofText text = before ++ token :: after ∧
        token.span = span ∧ token.display = found ∧
        (∃ more e, ofTokens (before ++ more) = .ok e) ∧
        ∀ more e, ofTokens (before ++ token :: more) ≠ .ok e) ∧
    (error.site? = none → ∃ more e, more ≠ [] ∧ ofTokens (Token.ofText text ++ more) = .ok e) := by
  constructor
  · intro found span hsite
    rcases ofTokens_error h with ⟨before, token, after, htokens, htoken, hviable, hnot⟩ | ⟨hend, -⟩
    · rw [hsite] at htoken
      obtain ⟨rfl, rfl⟩ := Prod.mk.inj (Option.some.inj htoken)
      have hmem : token ∈ Token.ofText text := by
        rw [htokens]
        simp
      obtain ⟨more, e, he⟩ := hviable
      refine ⟨(Token.stands_of_mem_ofText hmem).place, before, token, after, htokens, rfl, rfl,
        ⟨more, e, ofTokens_eq_ok_iff.mpr he⟩, fun more e hread => hnot ⟨more, e, ?_⟩⟩
      rw [List.append_assoc, List.singleton_append]
      exact ofTokens_eq_ok_iff.mp hread
    · rw [hsite] at hend
      cases hend
  · intro hsite
    rcases ofTokens_error h with ⟨_, _, _, -, htoken, -⟩ | ⟨-, stack, hstack⟩
    · rw [hsite] at htoken
      cases htoken
    · obtain ⟨more, e, hmore, he⟩ := hstack.exists_derives
      exact ⟨more, e, hmore, ofTokens_eq_ok_iff.mpr he⟩

/-- A word that opens like a number, after a letter of two bytes. -/
theorem error_at_first_impossible_token_invalid :
    ofText "(é 1abc)" = .error (.invalidWord "1abc" ⟨4, 8⟩) ∧
      ∃ before token after, Token.ofText "(é 1abc)" = before ++ token :: after ∧
        token.display = "1abc" ∧ ∀ more e, ofTokens (before ++ token :: more) ≠ .ok e := by
  have h : ofText "(é 1abc)" = .error (.invalidWord "1abc" ⟨4, 8⟩) := rfl
  obtain ⟨-, before, token, after, htokens, -, hfound, -, hnot⟩ :=
    (error_at_first_impossible_token h).1 "1abc" ⟨4, 8⟩ rfl
  exact ⟨h, before, token, after, htokens, hfound, hnot⟩

end Expr

end FlatLisp
