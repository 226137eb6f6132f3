import FlatLisp.Expr.Read
import FlatLisp.Proofs.Tokens

/-!
# Reading in Another Place

The reader sees where tokens stand only to say so in an error: tokens that stand elsewhere are read
as the same expression, or fail at the same token, and so do tokens that all stand further back.

Reading is a run over a stack of open lists. A run that completes an expression never looks below
the stack that it began with, so that it goes the same way inside an open list, and hands the
expression to that list instead.

## Main results

* `Expr.readFrom_mapSpan`, `Expr.readFrom_move`: reading commutes with moving the tokens.
* `Expr.readFrom_append`: reading an expression inside an open list.
* `Expr.readFrom_ofTokens`: what is an expression by itself is a child inside a list.
-/

namespace FlatLisp

/-- A token with another span in place of its own. -/
def Token.mapSpan (f : Span → Span) (t : Token) : Token := ⟨t.kind, f t.span⟩

/-- The error that is found when every token has another span. -/
def ReadError.mapSpan (f : Span → Span) : ReadError → ReadError
  | unexpectedToken found expected => unexpectedToken (found.mapSpan f) expected
  | unexpectedEnd expected => unexpectedEnd expected
  | invalidWord text span => invalidWord text (f span)

/-- The error that is found when all tokens stand `k` bytes further back. -/
def ReadError.move (k : Nat) : ReadError → ReadError
  | unexpectedToken found expected => unexpectedToken (found.move k) expected
  | unexpectedEnd expected => unexpectedEnd expected
  | invalidWord text span => invalidWord text (span.move k)

theorem ReadError.mapSpan_move (k : Nat) : mapSpan (.move k) = move k := by
  funext e
  cases e <;> rfl

namespace Expr

/-! ### Tokens in other places -/

section

variable (f : Span → Span)

/-- One token makes the same of the open lists whatever its span is. -/
theorem advance_mapSpan (token : Token) (stack : List Frame) :
    advance (token.mapSpan f) stack = (advance token stack).mapError (.mapSpan f) := by
  obtain ⟨kind, span⟩ := token
  cases kind with
  | opening => rcases stack with _ | ⟨_ | _, outer⟩ <;> rfl
  | closing => rcases stack with _ | ⟨_ | _, outer⟩ <;> rfl
  | word text =>
      unfold advance
      simp only [Token.mapSpan]
      rcases Atom.ofText? text with _ | atom
      · rfl
      · rcases stack with _ | ⟨_ | _, outer⟩ <;> rfl

/-- Tokens with other spans are read as the same expression, or fail at the same token. -/
theorem readFrom_mapSpan (stack : List Frame) (tokens : List Token) :
    readFrom stack (tokens.map (.mapSpan f)) =
      ((readFrom stack tokens).1.mapError (.mapSpan f),
        (readFrom stack tokens).2.map (.mapSpan f)) := by
  induction tokens generalizing stack with
  | nil => rfl
  | cons token rest ih =>
      rw [List.map_cons, readFrom, readFrom, advance_mapSpan]
      rcases advance token stack with e | e | inner
      · rfl
      · rfl
      · exact ih inner

/-- A whole row of tokens with other spans is the same expression, or fails at the same token. -/
theorem ofTokens_mapSpan (tokens : List Token) :
    ofTokens (tokens.map (.mapSpan f)) = (ofTokens tokens).mapError (.mapSpan f) := by
  have hread := readFrom_mapSpan f [] tokens
  rw [ofTokens, ofTokens, read, read]
  rcases hplain : readFrom [] tokens with ⟨error | e, _ | ⟨token, rest⟩⟩ <;>
    rw [hread, hplain] <;> rfl

end

/-- Tokens that stand further back are read as the same expression, or fail at the same token. -/
theorem readFrom_move (k : Nat) (stack : List Frame) (tokens : List Token) :
    readFrom stack (tokens.map (.move k)) =
      ((readFrom stack tokens).1.mapError (.move k),
        (readFrom stack tokens).2.map (.move k)) := by
  rw [← ReadError.mapSpan_move]
  exact readFrom_mapSpan (.move k) stack tokens

/-- A whole row of tokens that stand further back is the same expression, or fails at the same
token. -/
theorem ofTokens_move (k : Nat) (tokens : List Token) :
    ofTokens (tokens.map (.move k)) = (ofTokens tokens).mapError (.move k) := by
  rw [← ReadError.mapSpan_move]
  exact ofTokens_mapSpan (.move k) tokens

/-! ### Inside an open list -/

/-- What a step makes of the open lists when there are more of them below. -/
def Step.under (base : List Frame) : Step → Step
  | complete e => deliver e base
  | pending stack => .pending (stack ++ base)

/-- An expression is handed to the innermost open list, whatever is below. -/
theorem deliver_append (e : Expr) (stack base : List Frame) :
    deliver e (stack ++ base) = (deliver e stack).under base := by
  rcases stack with _ | ⟨_ | _, outer⟩ <;> rfl

section

variable {stack outer : List Frame} {head : Atom} {children : List Expr}

/-- A token that can go on does the same inside an open list. -/
theorem advance_append {token : Token} {step : Step} (h : advance token stack = .ok step) :
    advance token (stack ++ .headed head children :: outer) =
      .ok (step.under (.headed head children :: outer)) := by
  obtain ⟨kind, span⟩ := token
  cases kind with
  | opening =>
      rcases stack with _ | ⟨_ | _, inner⟩
      · cases h
        rfl
      · cases h
      · cases h
        rfl
  | closing =>
      rcases stack with _ | ⟨_ | ⟨head', children'⟩, inner⟩
      · cases h
      · cases h
        exact congrArg _ (deliver_append empty inner _)
      · cases h
        exact congrArg _ (deliver_append ⟨some head', children'.reverse⟩ inner _)
  | word text =>
      unfold advance at h ⊢
      rcases hatom : Atom.ofText? text with _ | atom
      · simp only [hatom] at h
        cases h
      · simp only [hatom] at h ⊢
        rcases stack with _ | ⟨_ | _, inner⟩
        · cases h
          rfl
        · cases h
          rfl
        · cases h
          rfl

/-- A run that completes an expression goes the same way inside an open list, and the expression
becomes the next child. -/
theorem readFrom_append {tokens rest : List Token} {e : Expr} (more : List Token)
    (h : readFrom stack tokens = (.ok e, rest)) :
    readFrom (stack ++ .headed head children :: outer) (tokens ++ more) =
      readFrom (.headed head (e :: children) :: outer) (rest ++ more) := by
  induction tokens generalizing stack with
  | nil => cases h
  | cons token tokens ih =>
      rw [readFrom] at h
      rw [List.cons_append, readFrom]
      rcases hstep : advance token stack with error | complete | inner
      · rw [hstep] at h
        cases h
      · rw [hstep] at h
        cases h
        rw [advance_append hstep]
        rfl
      · rw [hstep] at h
        rw [advance_append hstep]
        exact ih h

/-- The tokens of an expression are read as the next child inside an open list. -/
theorem readFrom_ofTokens {tokens : List Token} {e : Expr} (more : List Token)
    (h : ofTokens tokens = .ok e) :
    readFrom (.headed head children :: outer) (tokens ++ more) =
      readFrom (.headed head (e :: children) :: outer) more := by
  rw [ofTokens, read] at h
  rcases hread : readFrom [] tokens with ⟨error | e', _ | ⟨token, rest⟩⟩
  · rw [hread] at h
    cases h
  · rw [hread] at h
    cases h
  · rw [hread] at h
    cases h
    exact readFrom_append more hread
  · rw [hread] at h
    cases h

end

end Expr

end FlatLisp
