import FlatLisp.Proofs.PlainValues
import FlatLisp.Proofs.PrintedNumbers
import FlatLisp.Proofs.Writing

/-!
# Results as Programs

What a program gives can be taken up as a program again. A result shows as a text; this text is read
as the very result, and the program that was read gives the result again, whatever the scope is, and
leaves the scope as it was.

Two things make this so. Only the head of an expression shows, so it matters that values have no
children and no symbol (`Expr.Plain`). And a number shows with as few digits as tell it from all
others (`Decimal.Literal.exists_ofChars?_render`). Infinities and what is no number are left out:
the words that they show as are symbols.

## Main results

* `Expr.Plain.ofText_display`: the text of a value is read as the value.
* `Expr.Plain.run_eval`: a value is its own value.
* `Session.result_reads_back`: what the program of a session gives can be taken up again.
-/

namespace FlatLisp

/-- The number that an expression shows, if it shows one, is finite. -/
def Expr.Finite (e : Expr) : Prop := ∀ x, e.head = some (.number x) → x.isFinite = true

/-- What a finite number or a truth value shows as is a spelling of it, and a word. -/
theorem Atom.spells_display {atom : Atom} (hsymbol : atom.type ≠ .symbol)
    (hfinite : ∀ x, atom = .number x → x.isFinite = true) :
    atom.Spells atom.display ∧ ofText? atom.display = some atom ∧ Token.IsWord atom.display := by
  cases atom with
  | number x =>
      have hspells := Decimal.Literal.exists_ofChars?_render (hfinite x rfl)
      have hnumber := ofText?_eq_number_iff.mpr hspells
      exact ⟨hspells, hnumber, isWord_of_number hnumber⟩
  | boolean b => cases b <;> exact ⟨rfl, by decide, by decide, List.all_eq_true.mp rfl⟩
  | symbol name => exact absurd rfl hsymbol

namespace Token

/-- The text of a word in parentheses. -/
theorem spaced_enclosed (word : String) :
    Spaced false [.opening, .word word, .closing] ("(" ++ word ++ ")").toList := by
  have hspaced : Spaced false [.opening, .word word, .closing]
      ([] ++ (['('] ++ ([] ++ (word.toList ++ ([] ++ ([')'] ++ [])))))) :=
    .token .nil nofun (.token .nil nofun (.token .nil nofun (.last .nil)))
  rw [String.toList_append, String.toList_append]
  simpa using hspaced

end Token

namespace Expr

variable {e : Expr}

/-- A value can be written down, and its text is one way to do so. -/
theorem Plain.written_display (h : e.Plain) (hfinite : e.Finite) :
    e.Readable ∧ Written e.display e := by
  have hatom (atom : Atom) (hsymbol : atom.type ≠ .symbol) (hfinite : (Expr.leaf atom).Finite) :
      (Expr.leaf atom).Readable ∧ Written (Expr.leaf atom).display (Expr.leaf atom) := by
    obtain ⟨hspells, hword, hisWord⟩ :=
      Atom.spells_display hsymbol fun x hx => hfinite x (congrArg some hx)
    exact ⟨.of_word hword hisWord nofun, _, .enclosed hspells, Token.spaced_enclosed _⟩
  cases h with
  | empty =>
      have hspaced :
          Token.Spaced false [.opening, .closing] ([] ++ (['('] ++ ([] ++ ([')'] ++ [])))) :=
        .token .nil nofun (.token .nil nofun (.last .nil))
      exact ⟨readable_empty, _, .nothing, hspaced⟩
  | number x => exact hatom (.number x) nofun hfinite
  | boolean b => exact hatom (.boolean b) nofun hfinite

/-- **The text of a value is read as the value.** -/
theorem Plain.ofText_display (h : e.Plain) (hfinite : e.Finite) : ofText e.display = .ok e :=
  (h.written_display hfinite).2.ofText_eq (h.written_display hfinite).1

/-- **A value is its own value**, in every scope. -/
theorem Plain.run_eval (h : e.Plain) (env : Env) :
    e.eval.run env = ⟨.ok e, env, [.evaluating e]⟩ := by
  cases h <;> rfl

/-- A value is alike to itself. -/
theorem Plain.deepAlike_self (h : e.Plain) (hfinite : e.Finite) : e.deepAlike e = true := by
  rw [← h.alike_eq_deepAlike h]
  cases h with
  | empty => rfl
  | number x =>
      have hnan := (Double.isNaN_isInf_of_isFinite (hfinite x rfl)).1
      simp [alike, Expr.leaf, headsAlike, Atom.alike, Double.beq_self_iff.mpr hnan]
  | boolean b => simp [alike, Expr.leaf, headsAlike, Atom.alike]

end Expr

namespace Session

/-- **What the program of a session gives can be taken up again**: unless it is an infinite number
or none, its text is read as the same expression, and this gives itself in every scope and leaves
the scope as it is. -/
theorem result_reads_back (calls : List Call) {r : Expr}
    (hresult : (reached calls).tryEval.result = .ok r) (hfinite : r.Finite) :
    Expr.ofText r.display = .ok r ∧ r.deepAlike r = true ∧
      ∀ env, (r.eval.run env).result = .ok r ∧ (r.eval.run env).env = env := by
  have hplain : r.Plain := (sound_reached calls).run.result r hresult
  refine ⟨hplain.ofText_display hfinite, hplain.deepAlike_self hfinite, fun env => ?_⟩
  rw [hplain.run_eval env]
  exact ⟨rfl, rfl⟩

/-- A third is read back from sixteen digits. -/
theorem third_reads_back :
    (reached [.parse "(/ 1 3)"]).tryEval.result = .ok (.leaf (.number (1 / 3))) ∧
      (Expr.leaf (.number (1 / 3))).display = "(0.3333333333333333)" ∧
      Expr.ofText "(0.3333333333333333)" = .ok (.leaf (.number (1 / 3))) ∧
      ∀ env, ((Expr.leaf (.number (1 / 3))).eval.run env).result = .ok (.leaf (.number (1 / 3))) ∧
        ((Expr.leaf (.number (1 / 3))).eval.run env).env = env := by
  have hresult : (reached [.parse "(/ 1 3)"]).tryEval.result = .ok (.leaf (.number (1 / 3))) := rfl
  have hfinite : (Expr.leaf (.number (1 / 3))).Finite := by
    rintro x ⟨⟩
    decide
  obtain ⟨hread, -, heval⟩ := result_reads_back _ hresult hfinite
  have hdisplay : (Expr.leaf (.number (1 / 3))).display = "(0.3333333333333333)" := by
    decide +kernel
  exact ⟨hresult, hdisplay, hdisplay ▸ hread, heval⟩

-- An infinite number is not read back: it shows as a word that is a symbol.
example : Expr.ofText (Expr.leaf (.number (1 / 0))).display = .ok (.leaf (.symbol "inf")) := by rfl

end Session

end FlatLisp
