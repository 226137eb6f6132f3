import FlatLisp.Proofs.PlainValues

/-!
# Histories of a Session

Two histories of a session can differ in ways that nobody notices who does not look at the steps
themselves. A program that cannot be read leaves no trace: not in the scope, and not in the program
that is evaluated next, which is still the one that was read last. Bytes in UTF-8 are as good as
their text. And an evaluation that hides its failure changes the scope as one that tells of it
does, whether it fails or not.

So a history can be edited in these ways, in any number of places at once, and every other step gets
the reply that it got before, in the session that it had before. Since one edit leaves the session
alone that the next step begins with, and the session holds the program as well as the scope, this
goes on through any number of evaluations.

## Main definitions

* `Session.reply`: what a call is answered with.
* `Edit`: one step of a history, and what stands in its place in another.
* `Edit.Agrees`: what the replies have to do with each other.

## Main results

* `Session.answer_of_refused`: a program that cannot be read leaves a session as it is.
* `Edit.answerAll_after`: an edit leaves the session alone.
* `Session.replies_of_edited`: every step of an edited history is answered as before.
-/

namespace FlatLisp

/-- What a call is answered with. -/
inductive Reply where
  /-- A program was taken up from a text, or it could not be read. -/
  | read (result : Except ReadError Unit)
  /-- A program was taken up from bytes, or it could not be read. -/
  | loaded (result : Except LoadError Unit)
  /-- The program was evaluated, with a value or a failure. -/
  | tried (result : Except EvalError Expr)
  /-- The program was evaluated, and this is what it gave. -/
  | evaluated (value : Expr)

/-- A program could not be read. -/
inductive Reply.Refused : Reply → Prop
  | read (e : ReadError) : Refused (.read (.error e))
  | loaded (e : LoadError) : Refused (.loaded (.error e))

namespace Session

/-- What a call is answered with. -/
def reply (s : Session) : Call → Reply
  | .parse text => .read ((s.parse text).map fun _ => ())
  | .load bytes => .loaded ((s.load bytes).map fun _ => ())
  | .tryEval => .tried s.tryEval.result
  | .eval => .evaluated s.eval.result

/-- The session after some calls. -/
def answerAll (s : Session) (calls : List Call) : Session :=
  calls.foldl answer s

end Session

/-- One step of a history, and what stands in its place in an edited one. -/
inductive Edit where
  /-- The step stays. -/
  | keep (call : Call)
  /-- A program that could not be read, in some session or other, is left out. -/
  | drop (call : Call) (refused : ∃ s : Session, (s.reply call).Refused)
  /-- A program in bytes is taken from the text that they are. -/
  | decode (bytes : ByteArray) (text : String) (decoded : String.fromUTF8? bytes = some text)
  /-- An evaluation hides its failure. -/
  | hide
  /-- An evaluation tells of its failure. -/
  | tell

namespace Edit

/-- The step before it was edited. -/
def before : Edit → List Call
  | keep call => [call]
  | drop call _ => [call]
  | decode bytes _ _ => [.load bytes]
  | hide => [.tryEval]
  | tell => [.eval]

/-- What stands in its place. -/
def after : Edit → List Call
  | keep call => [call]
  | drop _ _ => []
  | decode _ text _ => [.parse text]
  | hide => [.eval]
  | tell => [.tryEval]

/-- What the reply to a step in the session `s` has to do with the reply to what stands in its place
in the session `t`. A step that stays has the same reply. An evaluation that hides its failure gives
the value that it would tell of, or the empty expression in place of a failure. -/
def Agrees (s t : Session) : Edit → Prop
  | keep call => t.reply call = s.reply call
  | drop call _ => (s.reply call).Refused
  | decode bytes text _ => ∃ result, t.reply (.parse text) = .read result ∧
      s.reply (.load bytes) = .loaded (result.mapError (.unreadable text))
  | hide => ∃ result, s.reply .tryEval = .tried result ∧
      t.reply .eval = .evaluated (result.toOption.getD .empty)
  | tell => ∃ result, t.reply .tryEval = .tried result ∧
      s.reply .eval = .evaluated (result.toOption.getD .empty)

end Edit

/-! ### One step -/

namespace Session

variable {s t : Session} {call : Call}

theorem answerAll_append (s : Session) (calls more : List Call) :
    s.answerAll (calls ++ more) = (s.answerAll calls).answerAll more :=
  List.foldl_append

/-- What a text is taken for has nothing to do with the session. -/
theorem parse_eq (s : Session) (text : String) :
    s.parse text = (Expr.ofText text).map fun program => { s with program } := by
  rw [parse]
  cases Expr.ofText text <;> rfl

/-- Bytes in UTF-8 are as good as their text. -/
theorem load_of_decoded (s : Session) {bytes : ByteArray} {text : String}
    (h : String.fromUTF8? bytes = some text) :
    s.load bytes = (s.parse text).mapError (.unreadable text) := by
  simp only [load, h]
  cases s.parse text <;> rfl

/-- What bytes are taken for has nothing to do with the session. -/
theorem exists_load_eq (bytes : ByteArray) : ∃ result : Except LoadError Expr,
    ∀ s : Session, s.load bytes = result.map fun program => { s with program } := by
  rcases h : String.fromUTF8? bytes with _ | text
  · exact ⟨.error .notText, fun s => by simp only [load, h]; rfl⟩
  · refine ⟨(Expr.ofText text).mapError (.unreadable text), fun s => ?_⟩
    rw [load_of_decoded s h, parse_eq]
    cases Expr.ofText text <;> rfl

/-- **A program that cannot be read leaves a session as it is.** That it cannot be read in one
session is enough: it cannot be read in any. -/
theorem answer_of_refused (h : (t.reply call).Refused) (s : Session) :
    s.answer call = s ∧ (s.reply call).Refused := by
  cases call with
  | parse text =>
      rw [reply, parse_eq] at h ⊢
      rw [answer, parse_eq]
      generalize Expr.ofText text = result at h ⊢
      rcases result with e | program
      · exact ⟨rfl, .read e⟩
      · cases h
  | load bytes =>
      obtain ⟨result, hresult⟩ := exists_load_eq bytes
      rw [reply, hresult] at h ⊢
      rw [answer, hresult]
      rcases result with e | program
      · exact ⟨rfl, .loaded e⟩
      · cases h
  | tryEval => cases h
  | eval => cases h

/-- An evaluation that hides its failure gives the value that it would tell of, or the empty
expression. -/
theorem eval_result (s : Session) : s.eval.result = s.tryEval.result.toOption.getD .empty := by
  rw [eval]
  rcases s.tryEval.result with e | value
  · rfl
  · rfl

end Session

/-! ### Edited histories -/

namespace Edit

/-- **An edit leaves the session alone** that the next step begins with. -/
theorem answerAll_after (edit : Edit) (s : Session) :
    s.answerAll edit.after = s.answerAll edit.before := by
  cases edit with
  | keep call => rfl
  | drop call refused =>
      obtain ⟨t, ht⟩ := refused
      exact (Session.answer_of_refused ht s).1.symm
  | decode bytes text decoded =>
      show s.answer (.parse text) = s.answer (.load bytes)
      rw [Session.answer, Session.answer, Session.load_of_decoded s decoded]
      cases s.parse text <;> rfl
  | hide => exact s.eval_session
  | tell => exact s.eval_session.symm

/-- In one session the replies have to do with each other what they should. -/
theorem agrees (edit : Edit) (s : Session) : edit.Agrees s s := by
  cases edit with
  | keep call => rfl
  | drop call refused =>
      obtain ⟨t, ht⟩ := refused
      exact (Session.answer_of_refused ht s).2
  | decode bytes text decoded =>
      refine ⟨_, rfl, ?_⟩
      rw [Session.reply, Session.load_of_decoded s decoded]
      cases s.parse text <;> rfl
  | hide => exact ⟨_, rfl, congrArg Reply.evaluated s.eval_result⟩
  | tell => exact ⟨_, rfl, congrArg Reply.evaluated s.eval_result⟩

/-- An edited history comes to the session that it came to before. -/
theorem answerAll_edited (edits : List Edit) (s : Session) :
    s.answerAll (edits.flatMap after) = s.answerAll (edits.flatMap before) := by
  induction edits generalizing s with
  | nil => rfl
  | cons edit edits ih =>
      rw [List.flatMap_cons, List.flatMap_cons, Session.answerAll_append,
        Session.answerAll_append, edit.answerAll_after, ih]

end Edit

/-- **Every step of an edited history is answered as before**, from whatever session the history
begins. When the edits `done` have been made, the session is the one that it was; so the next step
is answered as it was, if it stays, and otherwise has to do with its reply what it should; and the
session after it is the one that it was. -/
theorem Session.replies_of_edited (s : Session) (done : List Edit) (edit : Edit) :
    let original := s.answerAll (done.flatMap Edit.before)
    let edited := s.answerAll (done.flatMap Edit.after)
    edited = original ∧ edit.Agrees original edited ∧
      edited.answerAll edit.after = original.answerAll edit.before := by
  intro original edited
  have hsession : edited = original := Edit.answerAll_edited done s
  rw [hsession]
  exact ⟨rfl, edit.agrees original, edit.answerAll_after original⟩

end FlatLisp
