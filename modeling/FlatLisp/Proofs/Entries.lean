import FlatLisp.Conversation
import FlatLisp.Proofs.Trimming

/-!
# What Is Entered Is Evaluated

A conversation is to answer each entry as a session would that is given the text of the entry: the
same value, the same failure or the same syntax error, and the same session afterwards. But the
conversation trims an entry before the session reads it, and what is trimmed is more than what the
reader skips.

So the answers are right for entries with blank ends, in any sequence and whatever the conversation
has come to. Only the offsets in a syntax error are different, since they count from the first
character that is left. And there is no other case for a text that is an expression: if its ends are
not blank, then even a new conversation evaluates another program, or none.

## Main definitions

* `Conversation.enterAll`: takes entries up to the end of the conversation.
* `Conversation.Answered`: a conversation goes on as a session would that is given a text.
* `Conversation.Asks`: the entries that are to be answered.
* `Conversation.AnsweredThroughout`: every such entry of a sequence is answered.

## Main results

* `Conversation.answered_enter`: an entry with blank ends is answered.
* `Conversation.answeredThroughout_of_blankEnds`: when the entries of a sequence are answered.
-/

namespace FlatLisp

open Text

/-- What is said of an evaluation, on standard output and on standard error. -/
def Turn.said (turn : Turn (Except EvalError Expr)) : String × String :=
  match turn.result with
  | .ok e => (e.display ++ "\n", "")
  | .error e =>
    ("", "Error: " ++ e.message ++ "\n" ++ match e.cause? with
      | some cause => "  caused by: " ++ cause.message ++ "\n"
      | none => "")

/-- The session after a text has been taken up and evaluated. What cannot be read leaves it as it
was. -/
def Session.take (s : Session) (text : List Char) : Session :=
  match s.parse (String.ofList text) with
  | .ok session => session.tryEval.session
  | .error _ => s

namespace Conversation

/-- Takes entries one after the other, up to the end of the conversation. -/
def enterAll (c : Conversation) (entries : List (List Char)) : Conversation :=
  entries.foldl (fun c entry => if c.ended then c else c.enter entry) c

/-- A conversation has gone on as a session would that is given a text: the text is taken up as the
program and evaluated, its records go to the log, and what comes of it is said. If it cannot be
read, then the session is as it was, and the error is shown in a part of the text; its offsets count
from the beginning of that part. -/
def Answered (c after : Conversation) (text : List Char) : Prop :=
  after.ended = c.ended ∧
  match c.session.parse (String.ofList text) with
  | .ok session =>
    after.session = session.tryEval.session ∧
      after.stdout = c.stdout ++ session.tryEval.said.1 ∧
      after.stderr = c.stderr ++ c.logger.text c.logged (session.tryEval.records.map .recorded) ++
        session.tryEval.said.2
  | .error e =>
    after.session = c.session ∧ after.stdout = c.stdout ∧
      ∃ (front shown back : List Char) (e' : ReadError), text = front ++ shown ++ back ∧
        e = e'.move (byteLength front) ∧ after.stderr = c.stderr ++
          (e'.report "REPL" (String.ofList shown) ++ "Error: invalid syntax\n")

/-- An entry asks for an answer: not all of it is blank, and it is not the word that ends a
conversation with blanks around it. -/
def Asks (entry : List Char) : Prop :=
  (∃ c ∈ entry, Token.isBlank c = false) ∧
    ∀ front word back, entry = front ++ word ++ back →
      (∀ c ∈ front ++ back, Token.isBlank c = true) → isFarewell (String.ofList word) = false

/-- Of a sequence of entries, every one is answered that asks for it, up to the end of the
conversation. -/
def AnsweredThroughout (c : Conversation) (entries : List (List Char)) : Prop :=
  ∀ before entry after, entries = before ++ entry :: after →
    (c.enterAll before).ended = false → Asks entry →
      (c.enterAll before).Answered (c.enterAll (before ++ [entry])) entry

/-! ### One entry -/

section

variable {c : Conversation} {entry : List Char} {text : String}

/-- What an expression as an entry comes to. -/
theorem answer_of_ok {program : Expr} (h : Expr.ofText text = .ok program) :
    (c.answer text).ended = c.ended ∧
      (c.answer text).session = ({ c.session with program } : Session).tryEval.session ∧
      (c.answer text).stdout =
        c.stdout ++ ({ c.session with program } : Session).tryEval.said.1 ∧
      (c.answer text).stderr = c.stderr ++ c.logger.text c.logged
        (({ c.session with program } : Session).tryEval.records.map .recorded) ++
          ({ c.session with program } : Session).tryEval.said.2 := by
  simp only [answer, Session.parse, h, Turn.said]
  rcases ({ c.session with program } : Session).tryEval.result with e | e
  · exact ⟨rfl, rfl, String.append_empty.symm, rfl⟩
  · exact ⟨rfl, rfl, rfl, String.append_empty.symm⟩

/-- What any other text as an entry comes to. -/
theorem answer_of_error {e : ReadError} (h : Expr.ofText text = .error e) :
    c.answer text = c.complain (e.report "REPL" text ++ "Error: invalid syntax\n") := by
  rw [answer, Session.parse, h]

theorem isEmpty_ofList (text : List Char) : (String.ofList text).isEmpty = text.isEmpty := by
  rw [Bool.eq_iff_iff, String.isEmpty_iff, List.isEmpty_iff]
  constructor
  · intro h
    simpa using congrArg String.toList h
  · rintro rfl
    rfl

/-- An entry with something in it that is not white space, and that is not the word to end with, is
answered by what is left of it. -/
theorem enter_of_ne_nil (h : trim entry ≠ [])
    (hword : isFarewell (String.ofList (trim entry)) = false) :
    c.enter entry =
      { c with kept := entry :: c.kept }.answer (String.ofList (trim entry)) := by
  have hentry : entry ≠ [] := by
    rintro rfl
    exact h rfl
  simp [enter, isEmpty_ofList, h, hword, hentry]

/-- Of an entry that is not answered, the session knows nothing. -/
theorem session_enter_of_not
    (h : trim entry = [] ∨ isFarewell (String.ofList (trim entry)) = true) :
    (c.enter entry).session = c.session := by
  have hkept : (if entry.isEmpty then c else { c with kept := entry :: c.kept }).session =
      c.session := by
    split
    · rfl
    · rfl
  rw [enter]
  split
  · exact hkept
  · next hrest =>
      rw [isEmpty_ofList, List.isEmpty_iff] at hrest
      rw [if_pos (h.resolve_left hrest)]
      exact hkept

end

/-! ### Blank ends -/

variable {c : Conversation} {entry : List Char}

/-- The word that ends a conversation has no comment in it. -/
theorem not_mem_of_isFarewell {word : List Char} (h : isFarewell (String.ofList word) = true) :
    ';' ∉ word := by
  intro hmem
  rw [isFarewell, String.toList_ofList, beq_iff_eq] at h
  have hlower := List.mem_map_of_mem (f := Char.toLower) hmem
  rw [h] at hlower
  exact absurd hlower (by decide)

/-- If the ends of an entry are blank, and it asks for an answer, then it is answered by what is
left of it. -/
theorem Asks.enter (hasks : Asks entry) (hends : BlankEnds entry) :
    trim entry ≠ [] ∧ isFarewell (String.ofList (trim entry)) = false := by
  obtain ⟨front, back, h⟩ := exists_trims entry
  refine ⟨fun hnil => ?_, ?_⟩
  · obtain ⟨d, hd, hblank⟩ := hasks.1
    rw [hnil] at h
    rw [h.isBlank_of_nil hends d hd] at hblank
    cases hblank
  · rw [← Bool.not_eq_true]
    intro hword
    have hall : ∀ d ∈ front ++ back, Token.isBlank d = true := List.forall_mem_append.mpr
      ⟨h.isBlank_front hends, h.isBlank_back hends (not_mem_of_isFarewell hword)⟩
    rw [hasks.2 front (trim entry) back h.text_eq hall] at hword
    cases hword

/-- **An entry with blank ends is answered** by what is left of it. -/
theorem answered_enter (c : Conversation) (hends : BlankEnds entry) (hrest : trim entry ≠ [])
    (hword : isFarewell (String.ofList (trim entry)) = false) :
    c.Answered (c.enter entry) entry := by
  obtain ⟨front, back, h⟩ := exists_trims entry
  have hread := h.ofText_eq hends
  rw [enter_of_ne_nil hrest hword, Answered, Session.parse, hread]
  rcases hpart : Expr.ofText (String.ofList (trim entry)) with e | program
  · rw [answer_of_error hpart]
    exact ⟨rfl, rfl, rfl, front, trim entry, back, e, h.text_eq, rfl, rfl⟩
  · exact answer_of_ok hpart

/-! ### Sequences of entries -/

theorem enterAll_concat (c : Conversation) (before : List (List Char)) (entry : List Char)
    (h : (c.enterAll before).ended = false) :
    c.enterAll (before ++ [entry]) = (c.enterAll before).enter entry := by
  rw [enterAll, List.foldl_append, List.foldl_cons, List.foldl_nil, if_neg]
  · rfl
  · exact Bool.eq_false_iff.mp h

/-- In a sequence of entries with blank ends, every one is answered that asks for it. -/
theorem answeredThroughout_of_forall (c : Conversation) {entries : List (List Char)}
    (h : ∀ entry ∈ entries, BlankEnds entry) : c.AnsweredThroughout entries := by
  rintro before entry after rfl hended hasks
  rw [enterAll_concat c before entry hended]
  have hends := h entry (by simp)
  obtain ⟨hrest, hword⟩ := hasks.enter hends
  exact answered_enter _ hends hrest hword

theorem Answered.session_eq {c after : Conversation} {text : List Char}
    (h : c.Answered after text) : after.session = c.session.take text := by
  rw [Session.take]
  rcases hparse : c.session.parse (String.ofList text) with e | session
  · rw [Answered, hparse] at h
    exact h.2.1
  · rw [Answered, hparse] at h
    exact h.2.1

/-! ### Other ends -/

/-- The program of a session is the one of before, or what is left of the entry. -/
theorem program_enter (c : Conversation) (entry : List Char) :
    (c.enter entry).session.program = c.session.program ∨
      Expr.ofText (String.ofList (trim entry)) = .ok (c.enter entry).session.program := by
  by_cases h : trim entry = [] ∨ isFarewell (String.ofList (trim entry)) = true
  · exact Or.inl (congrArg _ (session_enter_of_not h))
  · rw [not_or, Bool.not_eq_true] at h
    rw [enter_of_ne_nil h.1 h.2]
    rcases hread : Expr.ofText (String.ofList (trim entry)) with e | program
    · rw [answer_of_error hread]
      exact Or.inl rfl
    · rw [(answer_of_ok hread).2.1]
      exact Or.inr rfl

theorem Answered.program_eq {c after : Conversation} {text : List Char} {e : Expr}
    (h : c.Answered after text) (hread : Expr.ofText (String.ofList text) = .ok e) :
    after.session.program = e := by
  rw [h.session_eq, Session.take, Session.parse, hread]
  rfl

/-- If a text is an expression, and is answered where the program is the empty expression, then its
ends are blank. For otherwise it is a symbol, and so the program is not what it was before. -/
theorem Answered.blankEnds {e : Expr} (h : c.Answered (c.enter entry) entry)
    (hc : c.session.program = .empty) (hread : Expr.ofText (String.ofList entry) = .ok e) :
    BlankEnds entry := by
  by_contra hnot
  have hprogram := h.program_eq hread
  rcases program_enter c entry with hsame | hrest
  · obtain ⟨word, -, -, -, rfl⟩ := Expr.exists_symbol_of_not_blankEnds hread hnot
    rw [hprogram, hc] at hsame
    cases hsame
  · obtain ⟨front, back, htrims⟩ := exists_trims entry
    rw [hprogram] at hrest
    exact hnot (Expr.blankEnds_of_ofText_eq htrims hread hrest)

/-- **When the entries of a sequence are answered.** If all entries have blank ends, then every one
that asks for it is answered, whatever the conversation has come to before. An expression that is
entered into a new conversation is answered only if it has blank ends. -/
theorem answeredThroughout_of_blankEnds (entries : List (List Char)) :
    ((∀ entry ∈ entries, BlankEnds entry) → ∀ c : Conversation, c.AnsweredThroughout entries) ∧
      ∀ settings history logger entry e, Expr.ofText (String.ofList entry) = .ok e → Asks entry →
        ((opening settings history logger).AnsweredThroughout [entry] ↔ BlankEnds entry) := by
  refine ⟨fun hends c => answeredThroughout_of_forall c hends,
    fun settings history logger entry e hread hasks => ⟨fun h => ?_, fun hends => ?_⟩⟩
  · have hanswered := h [] entry [] rfl rfl hasks
    rw [enterAll_concat _ [] entry rfl] at hanswered
    exact Answered.blankEnds hanswered rfl hread
  · exact answeredThroughout_of_forall _ fun other hother => List.mem_singleton.mp hother ▸ hends

/-- A no-break space in a comment does no harm, nor do blanks before a word. -/
theorem answeredThroughout_of_comment :
    BlankEnds [' ', 'x', ' ', ';', '\u00a0'] ∧
      ∀ c : Conversation, c.AnsweredThroughout [[' ', 'x', ' ', ';', '\u00a0']] := by
  have htrims : Trims [' ', 'x', ' ', ';', '\u00a0'] [' '] ['x', ' ', ';'] ['\u00a0'] := by
    refine ⟨rfl, ?_, ?_, ?_, ?_⟩ <;> simp [isWhite, inRanges, whiteRanges]
  have hends : BlankEnds [' ', 'x', ' ', ';', '\u00a0'] := htrims.blankEnds_iff.mpr ⟨rfl, rfl⟩
  refine ⟨hends, (answeredThroughout_of_blankEnds _).1 fun entry hentry => ?_⟩
  rw [List.mem_singleton.mp hentry]
  exact hends

/-- A no-break space is a word, and as an entry it is not answered, whatever the conversation has
come to. -/
theorem not_answeredThroughout_noBreakSpace :
    ¬(opening {} false).AnsweredThroughout [['\u00a0']] ∧
      Expr.ofText "\u00a0" = .ok (Expr.leaf (.symbol "\u00a0")) ∧
      ∀ c : Conversation, (c.enter ['\u00a0']).session = c.session ∧
        (c.enter ['\u00a0']).stdout = c.stdout ∧ (c.enter ['\u00a0']).stderr = c.stderr := by
  have hread : Expr.ofText (String.ofList ['\u00a0']) = .ok (Expr.leaf (.symbol "\u00a0")) := rfl
  have hasks : Asks ['\u00a0'] := by
    refine ⟨⟨'\u00a0', by decide, by decide⟩, fun front word back heq _ => ?_⟩
    rw [isFarewell, String.toList_ofList, beq_eq_false_iff_ne]
    intro hword
    have hone := congrArg List.length heq
    have hfour : (word.map Char.toLower).length = 4 := congrArg List.length hword
    rw [List.length_map] at hfour
    rw [List.length_append, List.length_append, hfour, List.length_singleton] at hone
    omega
  refine ⟨fun h => ?_, hread, fun c => ⟨rfl, rfl, rfl⟩⟩
  have hprogram := (h [] ['\u00a0'] [] rfl rfl hasks).program_eq hread
  cases hprogram

end Conversation

end FlatLisp
