import FlatLisp.Command
import FlatLisp.Proofs.Pointing

/-!
# Ways to Run the Command

The command fetches its program from standard input, from a file or from its own arguments. What
comes after that depends on the bytes alone. They may be no program at all, because they are no
text or because the text cannot be read; they may be a program that fails; or they may be one with
a value. The exit status tells these three apart, and only the last prints anything to standard
output. The source of the program is named in messages and has no other effect, so that the ways
to run the command differ in standard error at most, and there only in that name.

Standard error has the log in it, too: a run that resets the scope warns of it, and a logger may
be set to write more than warnings. What is written is up to the logger, but the events that it is
given are determined by the bytes, as the messages after them are.

## Main definitions

* `Command.Runs`: the ways to run the command on given bytes.
* `Command.HasResult`: the bytes are a program with a result.
* `Command.Ends`: how a run on the bytes ends.

## Main results

* `ReadError.exists_report_append`: a report depends on its source in the place of the name only.
* `Command.exists_ends`: how a run ends depends on the bytes, and only its messages on the source.
* `Command.runs_agree`: all ways to run the command agree, and the status tells how far they came.
-/

namespace FlatLisp

/-- Bytes are decoded to the text that they encode. -/
theorem fromUTF8?_eq_some_iff {bytes : ByteArray} {text : String} :
    String.fromUTF8? bytes = some text ↔ text.toUTF8 = bytes := by
  constructor
  · intro h
    unfold String.fromUTF8? at h
    split at h
    · cases h
      rfl
    · cases h
  · rintro rfl
    simp only [String.fromUTF8?, String.toUTF8_eq_toByteArray, dif_pos text.isValidUTF8]
    rfl

/-- The report of an error, with more text after it, consists of fixed pieces with the name of the
source between them. -/
theorem ReadError.exists_report_append (e : ReadError) (text more : String) :
    ∃ pieces, ∀ source : String, e.report source text ++ more = source.intercalate pieces := by
  unfold report
  generalize Diagnostic.ofReadError text.utf8ByteSize e = d
  by_cases hfits : d.Fits text.toList
  · obtain ⟨width, rest, hrender⟩ := Diagnostic.exists_render hfits
    generalize Diagnostic.shownAt d.span.start text.toList = p at hrender
    refine ⟨["Error: " ++ d.title ++ "\n" ++ String.ofList (List.replicate width ' ') ++ "╭─[ ",
      ":" ++ toString p.line ++ ":" ++ toString p.column ++ " ]\n" ++ rest ++ more],
      fun source => ?_⟩
    rw [hrender, Location.heading, String.intercalate_cons_cons, String.intercalate_singleton]
    simp only [String.append_assoc]
  · refine ⟨["Error: " ++ d.title ++ "\n" ++ more], fun source => ?_⟩
    rw [Diagnostic.render_of_not_fits hfits, String.intercalate_singleton]

namespace Command

variable {bytes : ByteArray}

/-! ### Runs -/

/-- The ways to run the command on a program in these bytes with a logger, each with the source of
the program and with the report. The file may be any that can be read, in any file system, under a
name that is not taken for an option. -/
inductive Runs (logger : Logger) (bytes : ByteArray) : Source → Report → Prop where
  /-- The bytes are on standard input. -/
  | stdin {Files : Type} [FileSystem Files] (files : Files) :
      Runs logger bytes .stdin (run [] files bytes logger)
  /-- The bytes are in a file. -/
  | file {Files : Type} [FileSystem Files] (files : Files) (path : String) (stdin : ByteArray)
      (named : path.toList.head? ≠ some '-') (readable : FileSystem.read files path = .ok bytes) :
      Runs logger bytes (.file path) (run [path] files stdin logger)
  /-- The bytes are those of an argument. -/
  | expression {Files : Type} [FileSystem Files] (files : Files) (text : String)
      (stdin : ByteArray) (encoded : text.toUTF8 = bytes) :
      Runs logger bytes (.expression text) (run ["-e", text] files stdin logger)

/-- Of the way that a program came, only the name of its source is left. -/
theorem Runs.eq_evaluate {logger : Logger} {source : Source} {report : Report}
    (h : Runs logger bytes source report) : report = evaluate logger source.name bytes := by
  cases h with
  | stdin files => rfl
  | file files path stdin named readable =>
      simp only [run, Source.ofArgs?, if_neg named, readable]
      rfl
  | expression files text stdin encoded =>
      subst encoded
      rfl

/-! ### Results -/

/-- The bytes are a text in UTF-8, the text is read as a program, and the program has this result
in a new scope. -/
def HasResult (bytes : ByteArray) (result : Except EvalError Expr) : Prop :=
  ∃ text program, text.toUTF8 = bytes ∧ Expr.ofText text = .ok program ∧
    (program.eval.run .initial).result = result

/-- Bytes have one result at most. -/
theorem HasResult.eq {result result' : Except EvalError Expr} (h : HasResult bytes result)
    (h' : HasResult bytes result') : result = result' := by
  obtain ⟨text, program, htext, hread, rfl⟩ := h
  obtain ⟨text', program', htext', hread', rfl⟩ := h'
  obtain rfl : text = text' := String.toByteArray_inj.mp (htext.trans htext'.symm)
  obtain rfl : program = program' := Except.ok.inj (hread.symm.trans hread')
  rfl

/-! ### Ends -/

/-- How a run on some bytes ends, with its exit status and what it prints to standard output. -/
inductive Ends (bytes : ByteArray) : Nat → String → Prop where
  /-- The bytes are no program. -/
  | unread (h : ∀ result, ¬HasResult bytes result) : Ends bytes 1 ""
  /-- The program fails. -/
  | failed {e : EvalError} (h : HasResult bytes (.error e)) : Ends bytes 2 ""
  /-- The program has a value. -/
  | valued {value : Expr} (h : HasResult bytes (.ok value)) : Ends bytes 0 (value.display ++ "\n")

/-- **The end of a run** depends on the bytes alone, and so do the events of the run. In its
messages the name of the source stands between pieces that the bytes determine. -/
theorem exists_ends (bytes : ByteArray) :
    ∃ exit stdout events pieces, Ends bytes exit stdout ∧
      ∀ (logger : Logger) (source : String), evaluate logger source bytes =
        ⟨exit, stdout, logger.text 0 events ++ source.intercalate pieces⟩ := by
  rcases hdecode : String.fromUTF8? bytes with _ | text
  · refine ⟨1, "", [], ["Error: could not read ", ": " ++ notTextReason ++ "\n"], .unread ?_,
      fun logger source => ?_⟩
    · rintro result ⟨text, -, htext, -⟩
      rw [fromUTF8?_eq_some_iff.mpr htext] at hdecode
      cases hdecode
    · simp only [evaluate, Session.load, hdecode, unreadable, Logger.text]
      rw [String.intercalate_cons_cons, String.intercalate_singleton, String.empty_append]
      simp only [String.append_assoc]
  -- From here on the bytes are a text, and no other text is encoded by them.
  have htext := fromUTF8?_eq_some_iff.mp hdecode
  rcases hread : Expr.ofText text with e | program
  · obtain ⟨pieces, hpieces⟩ := e.exists_report_append text "Error: invalid syntax\n"
    refine ⟨1, "", [.unread e], pieces, .unread ?_, fun logger source => ?_⟩
    · rintro result ⟨text', program, htext', hread', -⟩
      obtain rfl : text = text' := String.toByteArray_inj.mp (htext.trans htext'.symm)
      rw [hread'] at hread
      cases hread
    · simp only [evaluate, Session.load, hdecode, Session.parse, hread, hpieces]
  -- The messages of an evaluation do not name the source, so that one piece is enough.
  rcases hresult : (program.eval.run .initial).result with e | value
  · refine ⟨2, "", (program.eval.run .initial).records.map .recorded,
      ["Error: " ++ e.message ++ "\n"], .failed ⟨text, program, htext, hread, hresult⟩,
      fun logger source => ?_⟩
    simp only [evaluate, Session.load, hdecode, Session.parse, hread, Session.tryEval,
      Session.initial, hresult, String.intercalate_singleton]
  · refine ⟨0, value.display ++ "\n", (program.eval.run .initial).records.map .recorded, [""],
      .valued ⟨text, program, htext, hread, hresult⟩, fun logger source => ?_⟩
    simp only [evaluate, Session.load, hdecode, Session.parse, hread, Session.tryEval,
      Session.initial, hresult, String.intercalate_singleton, String.append_empty]

namespace Ends

variable {exit : Nat} {stdout : String}

theorem exit_eq_zero_iff (h : Ends bytes exit stdout) :
    exit = 0 ↔ ∃ value, HasResult bytes (.ok value) := by
  cases h with
  | unread h => exact iff_of_false (by decide) fun ⟨_, hvalue⟩ => h _ hvalue
  | failed h => exact iff_of_false (by decide) fun ⟨_, hvalue⟩ => nomatch h.eq hvalue
  | valued h => exact iff_of_true rfl ⟨_, h⟩

theorem exit_eq_two_iff (h : Ends bytes exit stdout) :
    exit = 2 ↔ ∃ e, HasResult bytes (.error e) := by
  cases h with
  | unread h => exact iff_of_false (by decide) fun ⟨_, he⟩ => h _ he
  | failed h => exact iff_of_true rfl ⟨_, h⟩
  | valued h => exact iff_of_false (by decide) fun ⟨_, he⟩ => nomatch h.eq he

theorem exit_eq_one_iff (h : Ends bytes exit stdout) :
    exit = 1 ↔ ¬∃ result, HasResult bytes result := by
  cases h with
  | unread h => exact iff_of_true rfl fun ⟨result, hresult⟩ => h result hresult
  | failed h => exact iff_of_false (by decide) fun hnot => hnot ⟨_, h⟩
  | valued h => exact iff_of_false (by decide) fun hnot => hnot ⟨_, h⟩

/-- Standard output is the value. -/
theorem stdout_eq (h : Ends bytes exit stdout) {value : Expr}
    (hvalue : HasResult bytes (.ok value)) : stdout = value.display ++ "\n" := by
  cases h with
  | unread h => exact absurd hvalue (h _)
  | failed h => cases h.eq hvalue
  | valued h =>
      cases h.eq hvalue
      rfl

/-- No value, no output. -/
theorem stdout_eq_empty (h : Ends bytes exit stdout) (hexit : exit ≠ 0) : stdout = "" := by
  cases h with
  | unread => rfl
  | failed => rfl
  | valued => exact absurd rfl hexit

end Ends

/-- **The ways to run the command agree.** On the same bytes they have the same exit status and the
same standard output. On standard error they log the same events, and then say the same but for
the name of the source. The status is zero exactly if the bytes are a program with a value, and then
that value is printed, and a line end; it is two exactly if they are a program that fails, and one
exactly if they are no program. With a status other than zero nothing is printed to standard
output. -/
theorem runs_agree (bytes : ByteArray) :
    ∃ exit stdout events pieces,
      (∀ logger source report, Runs logger bytes source report →
        report = ⟨exit, stdout, logger.text 0 events ++ source.name.intercalate pieces⟩) ∧
      (exit = 0 ↔ ∃ value, HasResult bytes (.ok value)) ∧
      (∀ value, HasResult bytes (.ok value) → stdout = value.display ++ "\n") ∧
      (exit = 2 ↔ ∃ e, HasResult bytes (.error e)) ∧
      (exit = 1 ↔ ¬∃ result, HasResult bytes result) ∧
      (exit ≠ 0 → stdout = "") := by
  obtain ⟨exit, stdout, events, pieces, hends, hevaluate⟩ := exists_ends bytes
  refine ⟨exit, stdout, events, pieces, ?_, hends.exit_eq_zero_iff, fun value => hends.stdout_eq,
    hends.exit_eq_two_iff, hends.exit_eq_one_iff, hends.stdout_eq_empty⟩
  intro logger source report hruns
  rw [hruns.eq_evaluate, hevaluate]

/-- The three ways to run the program `True`. -/
theorem runs_agree_on_true :
    ∃ events pieces, ∀ logger : Logger,
      run [] (⟨[]⟩ : Directory) "True".toUTF8 logger =
        ⟨0, "(True)\n", logger.text 0 events ++ "<stdin>".intercalate pieces⟩ ∧
      run ["t"] (⟨[("t", "True".toUTF8)]⟩ : Directory) .empty logger =
        ⟨0, "(True)\n", logger.text 0 events ++ "t".intercalate pieces⟩ ∧
      run ["-e", "True"] (⟨[]⟩ : Directory) .empty logger =
        ⟨0, "(True)\n", logger.text 0 events ++ "<expression>".intercalate pieces⟩ := by
  obtain ⟨exit, stdout, events, pieces, hruns, hzero, hstdout, -, -, -⟩ :=
    runs_agree "True".toUTF8
  have hvalue : HasResult "True".toUTF8 (.ok (.leaf (.boolean true))) :=
    ⟨"True", .leaf (.boolean true), rfl, rfl, rfl⟩
  obtain rfl := hzero.mpr ⟨_, hvalue⟩
  obtain rfl : stdout = "(True)\n" := hstdout _ hvalue
  exact ⟨events, pieces, fun logger => ⟨hruns logger _ _ (.stdin _),
    hruns logger _ _ (.file _ "t" .empty (by decide) rfl),
    hruns logger _ _ (.expression _ "True" .empty rfl)⟩⟩

-- Warnings come before the message of the failure.
example :
    run ["-e", "(define pi 3)"] (⟨[]⟩ : Directory) .empty (.upTo .warn fun _ _ => "WARN ") =
      ⟨2, "", "WARN redefinition of 'pi', resetting environment\n" ++
        "Error: symbol 'pi' is already defined\n"⟩ := by decide +kernel

end Command

end FlatLisp
