import FlatLisp.Expr.Read

/-!
# The Grammar of Expressions

An expression is a word, or `()`, or in parentheses a word and any number of expressions. This
module states the grammar as an inductive relation between rows of tokens and trees and shows
that the reader, a machine with a stack of open lists, accepts exactly what it derives.

What the machine has read when some lists are open is described by the grammar too: `Pending`
says which tokens lead to which stack. One token at a time it is kept, so that what the machine
completes has a derivation (soundness). In the other direction the tokens of a derivation are
read through by induction over the derivation, whatever comes after them (completeness), and
this gives uniqueness for free: the machine gives one answer.

## Main definitions

* `Expr.Derives`: the grammar.
* `Expr.Pending`: the tokens that open these lists.
* `ReadError.token?`: the token that an error names.
* `Expr.readAt`: reads from a position of a row of tokens, and tells the position it reaches.

## Main results

* `Expr.read_eq_ok_iff`: the reader takes exactly the tokens that derive what it gives.
* `Expr.Derives.unique`: of all rows that begin at one place at most one derives a tree, and
  only one.
* `Expr.accepts_iff_derives`: the same by positions, and for whole rows and texts.
-/

namespace FlatLisp

/-- The token that an error names. The end of the tokens is none. -/
def ReadError.token? : ReadError → Option Token
  | unexpectedToken found _ => some found
  | unexpectedEnd _ => none
  | invalidWord text span => some ⟨.word text, span⟩

namespace Expr

/-- The tokens of an expression. A word stands for a lone atom, by itself or in parentheses. In a
list each child has tokens of its own, which follow each other. -/
inductive Derives : List Token → Expr → Prop
  | word {text : String} {atom : Atom} {s : Span} :
      Atom.ofText? text = some atom → Derives [⟨.word text, s⟩] (leaf atom)
  | nothing {s t : Span} : Derives [⟨.opening, s⟩, ⟨.closing, t⟩] empty
  | list {text : String} {atom : Atom} {s t u : Span} {parts : List (List Token × Expr)} :
      Atom.ofText? text = some atom → (∀ part ∈ parts, Derives part.1 part.2) →
      Derives (⟨.opening, s⟩ :: ⟨.word text, t⟩ :: (parts.flatMap Prod.fst ++ [⟨.closing, u⟩]))
        ⟨some atom, parts.map Prod.snd⟩

/-- Whether an expression can come next: anywhere but right after an opening parenthesis, where a
head is to come. -/
def Ready : List Frame → Prop
  | .opened :: _ => False
  | _ => True

/-- The tokens that open these lists: of each its parenthesis, its head if it has one, and the
children that it has so far. Only the innermost can be without a head. -/
inductive Pending : List Token → List Frame → Prop
  | nothing : Pending [] []
  | opened {front : List Token} {outer : List Frame} {s : Span} :
      Pending front outer → Ready outer → Pending (front ++ [⟨.opening, s⟩]) (.opened :: outer)
  | headed {front : List Token} {outer : List Frame} {text : String} {atom : Atom} {s t : Span}
      {parts : List (List Token × Expr)} :
      Pending front outer → Ready outer → Atom.ofText? text = some atom →
      (∀ part ∈ parts, Derives part.1 part.2) →
      Pending (front ++ ⟨.opening, s⟩ :: ⟨.word text, t⟩ :: parts.flatMap Prod.fst)
        (.headed atom (parts.map Prod.snd).reverse :: outer)

/-- What some tokens come to: an expression that they derive, or lists that they open. -/
def Step.Reads (tokens : List Token) : Step → Prop
  | .complete e => Derives tokens e
  | .pending stack => Pending tokens stack

/-- Goes on reading after a step. -/
def Step.resume (more : List Token) : Step → Except ReadError Expr × List Token
  | .complete e => (.ok e, more)
  | .pending stack => readFrom stack more

theorem ready_nil : Ready [] := trivial

theorem ready_headed (head : Atom) (children : List Expr) (outer : List Frame) :
    Ready (.headed head children :: outer) := trivial

/-! ### One token -/

section

variable {stack outer : List Frame} {text : String} {atom : Atom} {s : Span}

theorem readFrom_of_advance {token : Token} {step : Step} (h : advance token stack = .ok step)
    (more : List Token) : readFrom stack (token :: more) = step.resume more := by
  rw [readFrom, h]
  cases step <;> rfl

theorem readFrom_of_advance_error {token : Token} {error : ReadError}
    (h : advance token stack = .error error) (more : List Token) :
    readFrom stack (token :: more) = (.error error, more) := by
  rw [readFrom, h]

theorem advance_opening (h : Ready stack) :
    advance ⟨.opening, s⟩ stack = .ok (.pending (.opened :: stack)) := by
  rcases stack with _ | ⟨_ | _, outer⟩
  · rfl
  · exact h.elim
  · rfl

theorem advance_word (h : Ready stack) (hatom : Atom.ofText? text = some atom) :
    advance ⟨.word text, s⟩ stack = .ok (deliver (leaf atom) stack) := by
  rcases stack with _ | ⟨_ | _, outer⟩
  · simp only [advance, hatom]
  · exact h.elim
  · simp only [advance, hatom]

/-- After an opening parenthesis a word is the head of the list. -/
theorem advance_head (hatom : Atom.ofText? text = some atom) :
    advance ⟨.word text, s⟩ (.opened :: outer) = .ok (.pending (.headed atom [] :: outer)) := by
  simp only [advance, hatom]

/-- A word that stands for no atom can come nowhere. -/
theorem advance_invalid (hatom : Atom.ofText? text = none) :
    advance ⟨.word text, s⟩ stack = .error (.invalidWord text s) := by
  simp only [advance, hatom]

/-- A token that is refused is the one that the error names. -/
theorem token?_of_advance {token : Token} {error : ReadError}
    (h : advance token stack = .error error) : error.token? = some token := by
  obtain ⟨kind, span⟩ := token
  cases kind with
  | opening =>
      rcases stack with _ | ⟨_ | _, outer⟩ <;> cases h
      rfl
  | closing =>
      rcases stack with _ | ⟨_ | _, outer⟩ <;> cases h
      rfl
  | word text =>
      rcases hatom : Atom.ofText? text with _ | atom
      · rw [advance_invalid hatom] at h
        cases h
        rfl
      · rcases stack with _ | ⟨_ | ⟨head, children⟩, outer⟩
        · rw [advance_word ready_nil hatom] at h
          cases h
        · rw [advance_head hatom] at h
          cases h
        · rw [advance_word (ready_headed ..) hatom] at h
          cases h

end

/-! ### Soundness -/

section

variable {front used : List Token} {stack outer : List Frame} {e : Expr}

/-- An expression that comes where one can come completes the first expression, or becomes a
child of the innermost list. -/
theorem Pending.deliver (h : Pending front outer) (hready : Ready outer) (he : Derives used e) :
    (deliver e outer).Reads (front ++ used) := by
  cases h with
  | nothing => exact he
  | opened => exact hready.elim
  | @headed front outer text atom s t parts hfront houter hatom hparts =>
      have hmore : ∀ part ∈ parts ++ [(used, e)], Derives part.1 part.2 := by
        intro part hpart
        rcases List.mem_append.mp hpart with hold | hnew
        · exact hparts part hold
        · obtain rfl := List.mem_singleton.mp hnew
          exact he
      have hchild : Pending
          (front ++ ⟨.opening, s⟩ :: ⟨.word text, t⟩ :: (parts ++ [(used, e)]).flatMap Prod.fst)
          (.headed atom ((parts ++ [(used, e)]).map Prod.snd).reverse :: outer) :=
        .headed hfront houter hatom hmore
      simpa [Expr.deliver, Step.Reads] using hchild

/-- **One token keeps what is known of the tokens before it.** -/
theorem Pending.advance {token : Token} {step : Step} (h : Pending front stack)
    (hstep : advance token stack = .ok step) : step.Reads (front ++ [token]) := by
  obtain ⟨kind, span⟩ := token
  cases kind with
  | opening =>
      rcases stack with _ | ⟨_ | _, outer⟩
      · cases hstep
        exact .opened h trivial
      · cases hstep
      · cases hstep
        exact .opened h trivial
  | closing =>
      cases h with
      | nothing => cases hstep
      | opened hfront houter =>
          cases hstep
          rw [List.append_assoc]
          exact hfront.deliver houter .nothing
      | headed hfront houter hatom hparts =>
          cases hstep
          rw [List.reverse_reverse, List.append_assoc]
          exact hfront.deliver houter (.list hatom hparts)
  | word text =>
      rcases hatom : Atom.ofText? text with _ | atom
      · rw [advance_invalid hatom] at hstep
        cases hstep
      cases h with
      | nothing =>
          rw [advance_word ready_nil hatom] at hstep
          cases hstep
          exact .word hatom
      | @opened front outer s hfront houter =>
          rw [advance_head hatom] at hstep
          cases hstep
          have hstack : Pending
              (front ++ ⟨.opening, s⟩ :: ⟨.word text, span⟩ :: List.flatMap Prod.fst [])
              (.headed atom (List.map Prod.snd []).reverse :: outer) :=
            .headed hfront houter hatom (by simp)
          rw [List.append_assoc]
          exact hstack
      | headed hfront houter hhead hparts =>
          rw [advance_word (ready_headed ..) hatom] at hstep
          cases hstep
          exact (Pending.headed hfront houter hhead hparts).deliver (ready_headed ..) (.word hatom)

/-- **Soundness.** What the reader completes is derived by the tokens that it has taken. -/
theorem Pending.derives_of_readFrom {tokens rest : List Token} (h : Pending front stack)
    (hread : readFrom stack tokens = (.ok e, rest)) :
    ∃ used, tokens = used ++ rest ∧ Derives (front ++ used) e := by
  induction tokens generalizing front stack with
  | nil => cases hread
  | cons token tokens ih =>
      rw [readFrom] at hread
      rcases hstep : Expr.advance token stack with error | complete | inner
      · rw [hstep] at hread
        cases hread
      · rw [hstep] at hread
        cases hread
        exact ⟨[token], rfl, h.advance hstep⟩
      · rw [hstep] at hread
        obtain ⟨used, rfl, hused⟩ := ih (h.advance hstep) hread
        refine ⟨token :: used, rfl, ?_⟩
        rw [List.append_assoc] at hused
        exact hused

/-! ### Completeness -/

/-- A row of expressions is read as children of the innermost list, if each of them is read
through. -/
theorem readFrom_children {parts : List (List Token × Expr)}
    (h : ∀ part ∈ parts, ∀ {stack}, Ready stack → ∀ more,
      readFrom stack (part.1 ++ more) = (deliver part.2 stack).resume more)
    (head : Atom) (children : List Expr) (outer : List Frame) (more : List Token) :
    readFrom (.headed head children :: outer) (parts.flatMap Prod.fst ++ more) =
      readFrom (.headed head ((parts.map Prod.snd).reverse ++ children) :: outer) more := by
  induction parts generalizing children with
  | nil => rfl
  | cons part parts ih =>
      have hpart := h part (List.mem_cons_self ..) (ready_headed head children outer)
      have hparts := ih (fun other hother => h other (List.mem_cons_of_mem part hother))
      rw [List.flatMap_cons, List.append_assoc, List.map_cons, List.reverse_cons,
        List.append_assoc]
      exact (hpart (parts.flatMap Prod.fst ++ more)).trans (hparts (part.2 :: children))

/-- **Completeness.** The tokens of an expression are read through wherever one can come, and the
expression is handed on, whatever follows them. -/
theorem Derives.readFrom (h : Derives used e) (hready : Ready stack) (more : List Token) :
    readFrom stack (used ++ more) = (deliver e stack).resume more := by
  induction h generalizing stack more with
  | word hatom => exact readFrom_of_advance (advance_word hready hatom) more
  | nothing =>
      rw [List.cons_append, readFrom_of_advance (advance_opening hready)]
      exact readFrom_of_advance rfl more
  | @list text atom s t u parts hatom _ ih =>
      have hchildren := readFrom_children ih atom [] stack (⟨.closing, u⟩ :: more)
      rw [List.append_nil] at hchildren
      have hclosing : advance ⟨.closing, u⟩ (.headed atom (parts.map Prod.snd).reverse :: stack) =
          .ok (deliver ⟨some atom, parts.map Prod.snd⟩ stack) := by
        simp only [advance, List.reverse_reverse]
      calc Expr.readFrom stack (⟨.opening, s⟩ :: ⟨.word text, t⟩ ::
              (parts.flatMap Prod.fst ++ [⟨.closing, u⟩]) ++ more)
          = Expr.readFrom (.opened :: stack) (⟨.word text, t⟩ ::
              ((parts.flatMap Prod.fst ++ [⟨.closing, u⟩]) ++ more)) :=
            readFrom_of_advance (advance_opening hready) _
        _ = Expr.readFrom (.headed atom [] :: stack)
              ((parts.flatMap Prod.fst ++ [⟨.closing, u⟩]) ++ more) :=
            readFrom_of_advance (advance_head hatom) _
        _ = Expr.readFrom (.headed atom (parts.map Prod.snd).reverse :: stack)
              (⟨.closing, u⟩ :: more) := by
            rw [List.append_assoc]
            exact hchildren
        _ = (deliver ⟨some atom, parts.map Prod.snd⟩ stack).resume more :=
            readFrom_of_advance hclosing more

/-- The tokens that open some lists are read up to these lists. -/
theorem Pending.readFrom (h : Pending front stack) (more : List Token) :
    Expr.readFrom [] (front ++ more) = Expr.readFrom stack more := by
  induction h generalizing more with
  | nothing => rfl
  | opened hfront houter ih =>
      rw [List.append_assoc, ih]
      exact readFrom_of_advance (advance_opening houter) more
  | @headed front outer text atom s t parts hfront houter hatom hparts ih =>
      have hread : ∀ part ∈ parts, ∀ {stack}, Ready stack → ∀ more,
          Expr.readFrom stack (part.1 ++ more) = (Expr.deliver part.2 stack).resume more :=
        fun part hpart {_} hready more => (hparts part hpart).readFrom hready more
      have hchildren := readFrom_children hread atom [] outer more
      rw [List.append_nil] at hchildren
      rw [List.append_assoc, ih, List.cons_append, List.cons_append,
        readFrom_of_advance (advance_opening houter)]
      exact (readFrom_of_advance (advance_head hatom) _).trans hchildren

end

/-! ### The grammar and the reader -/

/-- **The reader takes exactly what the grammar derives**, from the front of whatever row. -/
theorem read_eq_ok_iff {tokens rest : List Token} {e : Expr} :
    read tokens = (.ok e, rest) ↔ ∃ used, tokens = used ++ rest ∧ Derives used e := by
  constructor
  · exact Pending.nothing.derives_of_readFrom
  · rintro ⟨used, rfl, hused⟩
    exact hused.readFrom ready_nil rest

/-- A row of tokens is an expression if the grammar derives it. -/
theorem ofTokens_eq_ok_iff {tokens : List Token} {e : Expr} :
    ofTokens tokens = .ok e ↔ Derives tokens e := by
  have hread : ofTokens tokens = .ok e ↔ read tokens = (.ok e, []) := by
    unfold ofTokens
    rcases read tokens with ⟨error | e', _ | ⟨token, rest⟩⟩ <;> simp
  rw [hread, read_eq_ok_iff]
  simp

/-- **Of the rows that begin at one place at most one is an expression**, and only one
expression. -/
theorem Derives.unique {used used' more more' : List Token} {e e' : Expr} (h : Derives used e)
    (h' : Derives used' e') (heq : used ++ more = used' ++ more') : used = used' ∧ e = e' := by
  have hread : read (used ++ more) = (.ok e, more) := read_eq_ok_iff.mpr ⟨used, rfl, h⟩
  have hread' : read (used ++ more) = (.ok e', more') := read_eq_ok_iff.mpr ⟨used', heq, h'⟩
  rw [hread] at hread'
  obtain ⟨he, rfl⟩ := Prod.mk.inj hread'
  exact ⟨List.append_cancel_right heq, Except.ok.inj he⟩

theorem Derives.ne_nil {tokens : List Token} {e : Expr} (h : Derives tokens e) : tokens ≠ [] := by
  cases h <;> simp

/-! ### Positions -/

/-- Reads the expression that begins at a position of a row of tokens: the outcome, and the
position that is reached. -/
def readAt (tokens : List Token) (p : Nat) : Except ReadError Expr × Nat :=
  let (outcome, rest) := read (tokens.drop p)
  (outcome, tokens.length - rest.length)

/-- From a position on there are the tokens up to a later one, and those from there on. -/
theorem drop_eq_extract_append {tokens : List Token} {p q : Nat} (h : p ≤ q) :
    tokens.drop p = tokens.extract p q ++ tokens.drop q := by
  have hq : p + (q - p) = q := by omega
  have hcut := List.take_append_drop (q - p) (tokens.drop p)
  rw [List.drop_drop, hq] at hcut
  rw [List.extract_eq_take_drop, hcut]

/-- Reading from a position gives what the tokens derive up to the position that is reached. -/
theorem readAt_eq_ok_iff {tokens : List Token} {p q : Nat} {e : Expr} :
    readAt tokens p = (.ok e, q) ↔
      p ≤ q ∧ q ≤ tokens.length ∧ Derives (tokens.extract p q) e := by
  unfold readAt
  constructor
  · intro h
    rcases hread : read (tokens.drop p) with ⟨outcome, rest⟩
    rw [hread] at h
    obtain ⟨rfl, rfl⟩ := Prod.mk.inj h
    obtain ⟨used, hused, hderives⟩ := read_eq_ok_iff.mp hread
    have hlength := congrArg List.length hused
    have hpos := List.length_pos_iff.mpr hderives.ne_nil
    rw [List.length_drop, List.length_append] at hlength
    have hq : tokens.length - rest.length - p = used.length := by omega
    refine ⟨by omega, by omega, ?_⟩
    rw [List.extract_eq_take_drop, hused, hq, List.take_left]
    exact hderives
  · rintro ⟨hpq, hq, hderives⟩
    have hread := read_eq_ok_iff.mpr ⟨_, drop_eq_extract_append hpq, hderives⟩
    have hposition : tokens.length - (tokens.length - q) = q := by omega
    simp only [hread, List.length_drop, hposition]

/-- **The reader accepts exactly its grammar.** From every position of every row of tokens it
gives an expression and reaches a position if and only if the tokens in between derive that
expression, so that what follows them does not matter. At most one position and one expression
are like that. A whole row, and a whole text, is an expression if and only if all its tokens
derive it. -/
theorem accepts_iff_derives :
    (∀ (tokens : List Token) (p q : Nat) (e : Expr), readAt tokens p = (.ok e, q) ↔
      p ≤ q ∧ q ≤ tokens.length ∧ Derives (tokens.extract p q) e) ∧
    (∀ (front used more : List Token) (e : Expr), Derives used e →
      readAt (front ++ used ++ more) front.length = (.ok e, front.length + used.length)) ∧
    (∀ (tokens : List Token) (p q q' : Nat) (e e' : Expr),
      p ≤ q → q ≤ tokens.length → p ≤ q' → q' ≤ tokens.length →
      Derives (tokens.extract p q) e → Derives (tokens.extract p q') e' → q = q' ∧ e = e') ∧
    (∀ (tokens : List Token) (e : Expr), ofTokens tokens = .ok e ↔ Derives tokens e) ∧
    ∀ (text : String) (e : Expr), ofText text = .ok e ↔ Derives (Token.ofText text) e := by
  refine ⟨fun _ _ _ _ => readAt_eq_ok_iff, ?_, ?_, fun _ _ => ofTokens_eq_ok_iff,
    fun _ _ => ofTokens_eq_ok_iff⟩
  · intro front used more e hused
    refine readAt_eq_ok_iff.mpr ⟨by omega, by simp, ?_⟩
    rw [List.extract_eq_take_drop, List.append_assoc, List.drop_left, Nat.add_sub_cancel_left,
      List.take_left]
    exact hused
  · intro tokens p q q' e e' hpq hq hpq' hq' he he'
    have hread := readAt_eq_ok_iff.mpr ⟨hpq, hq, he⟩
    rw [readAt_eq_ok_iff.mpr ⟨hpq', hq', he'⟩] at hread
    obtain ⟨hresult, hposition⟩ := Prod.mk.inj hread
    exact ⟨hposition.symm, (Except.ok.inj hresult).symm⟩

end Expr

end FlatLisp
