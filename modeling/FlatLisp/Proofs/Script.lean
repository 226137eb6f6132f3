import FlatLisp.Proofs.Reading
import FlatLisp.Proofs.Subexpression
import FlatLisp.Session
import Mathlib.Data.List.Forall2

/-!
# Scripts and Sessions

Some programs can be given to a session one after the other, or be made into one program: a
sequence with each of them on lines of its own. The two ways are the same. The texts of the
script cannot run into each other, since a line break ends a word and a comment; each is read as
a child of the sequence just as it is read by itself; and the sequence hands the scope from one
to the next and stops at the first failure, as the session does.

## Main definitions

* `Session.play`: takes up texts and evaluates each, up to the first failure.
* `script`: the text of the sequence.

## Main results

* `Expr.ofText_script`: how a script is read.
* `Session.playFrom_eq`: a session goes from text to text as a sequence does from child to child.
* `Session.play_eq_script`: a script does what a session does.
-/

namespace FlatLisp

/-! ### A session over several texts -/

/-- Why a session stops. -/
inductive Stop where
  /-- A text is no program. -/
  | unreadable (error : ReadError)
  /-- A program fails. -/
  | failed (error : EvalError)

namespace Session

/-- Takes up texts and evaluates each, one after the other, up to the first failure. The result
is that of the last one, or `value` if there is none. -/
def playFrom (s : Session) (value : Expr) : List String → Turn (Except Stop Expr)
  | [] => ⟨.ok value, s, []⟩
  | text :: rest =>
    match s.parse text with
    | .error e => ⟨.error (.unreadable e), s, []⟩
    | .ok s =>
      let turn := s.tryEval
      match turn.result with
      | .error e => ⟨.error (.failed e), turn.session, turn.records⟩
      | .ok value =>
        let last := turn.session.playFrom value rest
        ⟨last.result, last.session, turn.records ++ last.records⟩

/-- Takes up texts and evaluates each, one after the other, up to the first failure. -/
def play (s : Session) (texts : List String) : Turn (Except Stop Expr) :=
  s.playFrom .empty texts

end Session

/-! ### The text of a script -/

/-- Texts on lines of their own, and a closing parenthesis. -/
def scriptBody : List String → String
  | [] => ")"
  | text :: rest => text ++ "\n" ++ scriptBody rest

/-- The text of the sequence of some programs. -/
def script (texts : List String) : String :=
  "(begin" ++ "\n" ++ scriptBody texts

/-- Texts that are expressions, one by one. -/
def Reads (texts : List String) (trees : List Expr) : Prop :=
  List.Forall₂ (fun text tree => Expr.ofText text = .ok tree) texts trees

namespace Expr

/-- The body of a script is read as children of the list that is open, up to its end. -/
theorem readFrom_scriptBody {texts : List String} {trees : List Expr} (h : Reads texts trees)
    (head : Atom) (children : List Expr) :
    readFrom [.headed head children] (Token.ofText (scriptBody texts)) =
      (.ok ⟨some head, children.reverse ++ trees⟩, []) := by
  induction h generalizing children with
  | nil =>
      have htokens : Token.ofText (scriptBody []) = [⟨.closing, ⟨0, 1⟩⟩] := by decide
      rw [htokens, List.append_nil]
      rfl
  | @cons text tree texts trees htext _ ih =>
      rw [scriptBody, Token.ofText_append_newline, readFrom_ofTokens _ htext, readFrom_move, ih,
        List.reverse_cons, List.append_assoc]
      rfl

/-- A script is read as the sequence of its programs. -/
theorem ofText_script {texts : List String} {trees : List Expr} (h : Reads texts trees) :
    ofText (script texts) = .ok ⟨some (.symbol SpecialForm.sequence.name), trees⟩ := by
  have hfront : Token.ofText "(begin" = [⟨.opening, ⟨0, 1⟩⟩, ⟨.word "begin", ⟨1, 6⟩⟩] := by
    decide
  have hopen (more : List Token) :
      readFrom [] (Token.ofText "(begin" ++ more) =
        readFrom [.headed (.symbol SpecialForm.sequence.name) []] more := by
    rw [hfront]
    rfl
  have hread : read (Token.ofText (script texts)) =
      (.ok ⟨some (.symbol SpecialForm.sequence.name), trees⟩, []) := by
    rw [read, script, Token.ofText_append_newline, hopen, readFrom_move, readFrom_scriptBody h]
    rfl
  rw [ofText, ofTokens, hread]

end Expr

namespace Session

variable {texts : List String} {trees : List Expr}

theorem parse_of_ofText {text : String} {tree : Expr} (h : Expr.ofText text = .ok tree)
    (s : Session) : s.parse text = .ok { s with program := tree } := by
  rw [parse, h]

/-- A session goes from text to text as a sequence does from child to child: with the same
result, the same scope, and the same records. -/
theorem playFrom_eq (h : Reads texts trees) (s : Session) (value : Expr) :
    (s.playFrom value texts).result =
        ((Expr.evalSequence value trees).run s.env).result.mapError .failed ∧
      (s.playFrom value texts).session.env =
        ((Expr.evalSequence value trees).run s.env).env ∧
      (s.playFrom value texts).records =
        ((Expr.evalSequence value trees).run s.env).records := by
  induction h generalizing s value with
  | nil =>
      rw [playFrom, Expr.evalSequence_nil, Eval.run_pure]
      exact ⟨rfl, rfl, rfl⟩
  | @cons text tree texts trees htext _ ih =>
      rw [playFrom, parse_of_ofText htext, Expr.evalSequence_cons]
      simp only [tryEval]
      rcases hrun : tree.eval.run s.env with ⟨error | value', mid, records⟩
      · rw [Eval.run_bind_error _ hrun]
        exact ⟨rfl, rfl, rfl⟩
      · rw [Eval.run_bind_ok _ hrun]
        obtain ⟨hresult, henv, hrecords⟩ := ih ⟨mid, tree⟩ value'
        exact ⟨hresult, henv, congrArg (records ++ ·) hrecords⟩

/-- **A script does what a session does.** Texts that are programs, made into one sequence, are
read as the sequence of these programs. In every scope its evaluation has the result and leaves
the scope that a session has and leaves after it took up the texts one after the other, up to the
first failure. -/
theorem play_eq_script (h : Reads texts trees) (s : Session) :
    let tree : Expr := ⟨some (.symbol SpecialForm.sequence.name), trees⟩
    Expr.ofText (script texts) = .ok tree ∧
      (s.play texts).result = (tree.eval.run s.env).result.mapError .failed ∧
      (s.play texts).session.env = (tree.eval.run s.env).env ∧
      (tree.eval.run s.env).records = .evaluating tree :: (s.play texts).records := by
  intro tree
  have hrun : tree.eval.run s.env =
      ((Expr.evalSequence .empty trees).run s.env).after [.evaluating tree] := by
    rw [Expr.run_eval, Expr.evalHead_sequence (SpecialForm.ofName?_name _)]
  obtain ⟨hresult, henv, hrecords⟩ := playFrom_eq h s .empty
  refine ⟨Expr.ofText_script h, ?_, ?_, ?_⟩
  · rw [play, hresult, hrun, Outcome.after_result]
  · rw [play, henv, hrun, Outcome.after_env]
  · rw [play, hrecords, hrun]
    rfl

/-- A definition with a comment after it, and a use of its name on the next line. -/
theorem play_eq_script_comment :
    let texts := ["(define x True) ; one", "(not x)"]
    let tree : Expr := ⟨some (.symbol SpecialForm.sequence.name),
      [Expr.definition "x" (.leaf (.boolean true)),
        ⟨some (.symbol "not"), [.leaf (.symbol "x")]⟩]⟩
    Expr.ofText (script texts) = .ok tree ∧
      (initial.play texts).result = .ok (.leaf (.boolean false)) := by
  intro texts tree
  have hreads : Reads texts tree.children := .cons rfl (.cons rfl .nil)
  obtain ⟨htree, hresult, -⟩ := play_eq_script hreads initial
  refine ⟨htree, ?_⟩
  rw [hresult]
  rfl

end Session

end FlatLisp
