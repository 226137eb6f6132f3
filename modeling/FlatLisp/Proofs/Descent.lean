import FlatLisp.Proofs.Grammar

/-!
# Reading by Descent

The reader is a machine that takes a token at a time and keeps the open lists on a stack. The
grammar suggests another way: to read an expression, read its parts. To read a list is to read its
head, and then child after child until its parenthesis comes, each child as an expression by itself;
and what goes wrong in a child goes wrong in the list. This module states that way as a relation,
failures included, and shows that the machine does the same on every row of tokens: it has the same
outcome, and it leaves the same tokens, also when a failure comes from many lists deep.

A list that is being read is one frame on the stack of the machine. So what is to be read and the
lists around it make a stack, and each rule of the relation is a few steps of the machine
(`Descends.run`). In the other direction there is a rule for every row, by induction on its length.

## Main definitions

* `Expr.Task`: what is to be read.
* `Expr.Descends`: reading by descent.

## Main results

* `Expr.Descends.run`: the machine goes the way of the descent.
* `Expr.exists_descends`: reading by descent always comes to an end.
* `Expr.descends_iff`: the machine and the descent do the same.
-/

namespace FlatLisp

namespace Expr

/-- What is to be read. -/
inductive Task where
  /-- An expression. -/
  | expression
  /-- What comes after the opening parenthesis of a list. -/
  | list
  /-- What comes after the head of a list and these children, the last one first. -/
  | children (head : Atom) (before : List Expr)

/-- Reading by descent: to carry out a task at the front of a row of tokens has an outcome, and
leaves some tokens. -/
inductive Descends : Task → List Token → Except ReadError Expr → List Token → Prop
  | noExpression : Descends .expression [] (.error (.unexpectedEnd .expression)) []
  | noOpening {s : Span} {rest : List Token} :
      Descends .expression (⟨.closing, s⟩ :: rest)
        (.error (.unexpectedToken ⟨.closing, s⟩ .atomOrList)) rest
  | noAtom {text : String} {s : Span} {rest : List Token} : Atom.ofText? text = none →
      Descends .expression (⟨.word text, s⟩ :: rest) (.error (.invalidWord text s)) rest
  | word {text : String} {atom : Atom} {s : Span} {rest : List Token} :
      Atom.ofText? text = some atom →
      Descends .expression (⟨.word text, s⟩ :: rest) (.ok (leaf atom)) rest
  | parenthesis {s : Span} {tokens rest : List Token} {outcome : Except ReadError Expr} :
      Descends .list tokens outcome rest →
      Descends .expression (⟨.opening, s⟩ :: tokens) outcome rest
  | noList : Descends .list [] (.error (.unexpectedEnd .closing)) []
  | nothing {s : Span} {rest : List Token} :
      Descends .list (⟨.closing, s⟩ :: rest) (.ok empty) rest
  | noHead {s : Span} {rest : List Token} :
      Descends .list (⟨.opening, s⟩ :: rest) (.error (.unexpectedToken ⟨.opening, s⟩ .head)) rest
  | noHeadAtom {text : String} {s : Span} {rest : List Token} : Atom.ofText? text = none →
      Descends .list (⟨.word text, s⟩ :: rest) (.error (.invalidWord text s)) rest
  | head {text : String} {atom : Atom} {s : Span} {tokens rest : List Token}
      {outcome : Except ReadError Expr} : Atom.ofText? text = some atom →
      Descends (.children atom []) tokens outcome rest →
      Descends .list (⟨.word text, s⟩ :: tokens) outcome rest
  | noClosing {head : Atom} {before : List Expr} :
      Descends (.children head before) [] (.error (.unexpectedEnd .closing)) []
  | closing {head : Atom} {before : List Expr} {s : Span} {rest : List Token} :
      Descends (.children head before) (⟨.closing, s⟩ :: rest)
        (.ok ⟨some head, before.reverse⟩) rest
  | noChild {head : Atom} {before : List Expr} {token : Token} {tokens rest : List Token}
      {error : ReadError} : token.kind ≠ .closing →
      Descends .expression (token :: tokens) (.error error) rest →
      Descends (.children head before) (token :: tokens) (.error error) rest
  | child {head : Atom} {before : List Expr} {token : Token} {tokens middle rest : List Token}
      {e : Expr} {outcome : Except ReadError Expr} : token.kind ≠ .closing →
      Descends .expression (token :: tokens) (.ok e) middle →
      Descends (.children head (e :: before)) middle outcome rest →
      Descends (.children head before) (token :: tokens) outcome rest

/-- The frame that a task is on the stack of the machine, above the lists around it. -/
def Task.stack (outer : List Frame) : Task → List Frame
  | expression => outer
  | list => .opened :: outer
  | children head before => .headed head before :: outer

/-- A task can be carried out inside these lists: an expression inside a list that has its head,
when the next token does not end that list; and the rest of a list wherever an expression can come.
-/
def Task.Fits (tokens : List Token) (outer : List Frame) : Task → Prop
  | expression => outer = [] ∨
      Ready outer ∧ ∃ token rest, tokens = token :: rest ∧ token.kind ≠ .closing
  | list => Ready outer
  | children _ _ => Ready outer

/-- What the machine goes on to do after a task inside some lists: an expression is handed to them,
and a failure ends it all. -/
def hand (outer : List Frame) (rest : List Token) :
    Except ReadError Expr → Except ReadError Expr × List Token
  | .ok e => (deliver e outer).resume rest
  | .error e => (.error e, rest)

theorem Task.Fits.ready {tokens : List Token} {outer : List Frame}
    (h : expression.Fits tokens outer) : Ready outer := by
  rcases h with rfl | ⟨hready, -⟩
  · exact ready_nil
  · exact hready

/-- **The machine goes the way of the descent**, inside whatever lists. -/
theorem Descends.run {task : Task} {tokens rest : List Token} {outcome : Except ReadError Expr}
    (h : Descends task tokens outcome rest) {outer : List Frame} (hfits : task.Fits tokens outer) :
    readFrom (task.stack outer) tokens = hand outer rest outcome := by
  induction h generalizing outer with
  | noExpression =>
      obtain rfl | ⟨-, token, rest, htokens, -⟩ := hfits
      · rfl
      · cases htokens
  | noOpening =>
      obtain rfl | ⟨-, token, rest, htokens, hkind⟩ := hfits
      · rfl
      · cases htokens
        exact absurd rfl hkind
  | noAtom hatom => exact readFrom_of_advance_error (advance_invalid hatom) _
  | word hatom => exact readFrom_of_advance (advance_word hfits.ready hatom) _
  | parenthesis _ ih =>
      exact (readFrom_of_advance (advance_opening hfits.ready) _).trans (ih hfits.ready)
  | noList => rfl
  | nothing => exact readFrom_of_advance rfl _
  | noHead => rfl
  | noHeadAtom hatom => exact readFrom_of_advance_error (advance_invalid hatom) _
  | head hatom _ ih => exact (readFrom_of_advance (advance_head hatom) _).trans (ih hfits)
  | noClosing => rfl
  | closing => exact readFrom_of_advance rfl _
  | noChild hkind _ ih =>
      exact ih (.inr ⟨ready_headed .., _, _, rfl, hkind⟩)
  | @child head before _ _ _ _ e _ hkind _ _ ihchild ihrest =>
      have hchild := @ihchild (.headed head before :: outer)
        (.inr ⟨ready_headed .., _, _, rfl, hkind⟩)
      exact hchild.trans (ihrest hfits)

/-- **Reading by descent always comes to an end**, and leaves no more tokens than there were. What
is read as a child takes a token, so that fewer are left for the children after it. -/
theorem exists_descends (task : Task) (tokens : List Token) :
    ∃ outcome rest, Descends task tokens outcome rest ∧ rest.length ≤ tokens.length - 1 := by
  induction hlength : tokens.length using Nat.strongRecOn generalizing task tokens with
  | ind length ih =>
      subst hlength
      rcases tokens with _ | ⟨⟨kind, s⟩, tokens⟩
      · cases task with
        | expression => exact ⟨_, _, .noExpression, Nat.le_refl 0⟩
        | list => exact ⟨_, _, .noList, Nat.le_refl 0⟩
        | children head before => exact ⟨_, _, .noClosing, Nat.le_refl 0⟩
      have hshorter : tokens.length < (⟨kind, s⟩ :: tokens : List Token).length :=
        Nat.lt_succ_self _
      have hexpression : ∃ outcome rest, Descends .expression (⟨kind, s⟩ :: tokens) outcome rest ∧
          rest.length ≤ tokens.length := by
        cases kind with
        | opening =>
            obtain ⟨outcome, rest, hlist, hrest⟩ := ih _ hshorter .list tokens rfl
            exact ⟨outcome, rest, .parenthesis hlist, by omega⟩
        | closing => exact ⟨_, _, .noOpening, Nat.le_refl _⟩
        | word text =>
            rcases hatom : Atom.ofText? text with _ | atom
            · exact ⟨_, _, .noAtom hatom, Nat.le_refl _⟩
            · exact ⟨_, _, .word hatom, Nat.le_refl _⟩
      rw [List.length_cons, Nat.add_sub_cancel]
      cases task with
      | expression => exact hexpression
      | list =>
          cases kind with
          | opening => exact ⟨_, _, .noHead, Nat.le_refl _⟩
          | closing => exact ⟨_, _, .nothing, Nat.le_refl _⟩
          | word text =>
              rcases hatom : Atom.ofText? text with _ | atom
              · exact ⟨_, _, .noHeadAtom hatom, Nat.le_refl _⟩
              · obtain ⟨outcome, rest, hrest, hle⟩ := ih _ hshorter (.children atom []) tokens rfl
                exact ⟨outcome, rest, .head hatom hrest, by omega⟩
      | children head before =>
          by_cases hkind : kind = .closing
          · subst hkind
            exact ⟨_, _, .closing, Nat.le_refl _⟩
          · obtain ⟨error | e, middle, hchild, hmiddle⟩ := hexpression
            · exact ⟨_, _, .noChild hkind hchild, hmiddle⟩
            · obtain ⟨outcome, rest, hrest, hle⟩ :=
                ih _ (Nat.lt_of_le_of_lt hmiddle hshorter) (.children head (e :: before)) middle rfl
              exact ⟨outcome, rest, .child hkind hchild hrest, by omega⟩

/-- **The machine and the descent do the same**: they have the same outcome and leave the same
tokens, on every row. -/
theorem descends_iff {tokens rest : List Token} {outcome : Except ReadError Expr} :
    Descends .expression tokens outcome rest ↔ read tokens = (outcome, rest) := by
  have hrun : ∀ {outcome rest}, Descends .expression tokens outcome rest →
      read tokens = (outcome, rest) := by
    intro outcome rest h
    refine (h.run (.inl rfl)).trans ?_
    cases outcome <;> rfl
  constructor
  · exact hrun
  · intro hread
    obtain ⟨other, left, hother, -⟩ := exists_descends .expression tokens
    obtain ⟨rfl, rfl⟩ := Prod.mk.inj ((hrun hother).symm.trans hread)
    exact hother

end Expr

end FlatLisp
