import FlatLisp.Proofs.Grammar
import FlatLisp.Proofs.Literals

/-!
# What a Word Stands For

Every text falls into one of four classes. Decimal literals stand for numbers, `True` and `False`
for booleans; what is empty, or opens with a digit and is no literal, stands for nothing; and all
the rest are symbols, each of its own name.

A reader of numbers often knows more than the literals: words for the infinities and for what is no
number, in letters of either case and with a sign or without. None of them holds a digit. So it
comes to the same to ask such a reader, but only about texts with a digit somewhere
(`Atom.ofText?_eq_ask`), and the words are symbols here.

## Main definitions

* `OpensWithDigit`: the texts that look like numbers.
* `Decimal.IsNumberWord`, `Decimal.readAny?`: the words for the numbers without digits, and a reader
  that knows them.

## Main results

* `Atom.ofText?_of_isLiteral`, `Atom.ofText?_of_not_isLiteral`: what literals and other texts stand
  for.
* `Expr.opensWithDigit_of_invalidWord`: the words that stop the reading of a program.
* `Atom.ofText?_classes`: the four classes.
-/

namespace FlatLisp

open Decimal (IsSign IsDigits IsMantissa IsLiteral)

/-- A text looks like a number: its first character is a digit. -/
def OpensWithDigit (text : List Char) : Prop := ∃ c ∈ text.head?, c.isDigit = true

instance (text : List Char) : Decidable (OpensWithDigit text) :=
  decidable_of_iff (text.head?.any Char.isDigit = true)
    (by simp [OpensWithDigit, Option.any_eq_true])

namespace Decimal

/-! ### Numbers without digits -/

/-- The words for the infinities. -/
def infinityWords : List (List Char) :=
  [['i', 'n', 'f'], ['i', 'n', 'f', 'i', 'n', 'i', 't', 'y']]

/-- The word for what is no number. -/
def notANumberWord : List Char := ['n', 'a', 'n']

/-- A sign or none, and then a word for a number without digits, in letters of either case. -/
def IsNumberWord (text : List Char) : Prop :=
  ∃ sign word, IsSign sign ∧ text = sign ++ word ∧
    word.map Char.toLower ∈ notANumberWord :: infinityWords

/-- Reads a number of any kind: a literal, or one of the words. -/
def readAny? (text : List Char) : Option Float :=
  match Literal.ofChars? text with
  | some literal => some literal.toFloat
  | none =>
    let (negative, word) := Literal.splitSign text
    if word.map Char.toLower ∈ infinityWords then some (if negative then -1 / 0 else 1 / 0)
    else if word.map Char.toLower = notANumberWord then some (0 / 0)
    else none

/-- A literal holds a digit. -/
theorem IsLiteral.exists_isDigit {text : List Char} (h : IsLiteral text) :
    ∃ c ∈ text, c.isDigit = true := by
  have hfirst {digits : List Char} (hne : digits ≠ []) (hdigits : IsDigits digits) :
      ∃ c ∈ digits, c.isDigit = true := by
    obtain ⟨c, rest, rfl⟩ := List.exists_cons_of_ne_nil hne
    exact ⟨c, List.mem_cons_self .., hdigits c (List.mem_cons_self ..)⟩
  obtain ⟨sign, mantissa, exponent, -, hmantissa, -, rfl⟩ := h
  obtain ⟨c, hc, hdigit⟩ : ∃ c ∈ mantissa, c.isDigit = true := by
    cases hmantissa with
    | whole hne hwhole => exact hfirst hne hwhole
    | pointed hne hwhole _ =>
        obtain ⟨c, hc, hdigit⟩ := hfirst hne hwhole
        exact ⟨c, List.mem_append_left _ hc, hdigit⟩
    | fraction hne hfraction =>
        obtain ⟨c, hc, hdigit⟩ := hfirst hne hfraction
        exact ⟨c, List.mem_cons_of_mem _ hc, hdigit⟩
  exact ⟨c, by simp [hc], hdigit⟩

/-- A digit is the same in both cases. -/
theorem toLower_of_isDigit {c : Char} (h : c.isDigit = true) : c.toLower = c := by
  have hle : c.val ≤ '9'.val := by
    simp only [Char.isDigit, Bool.and_eq_true, decide_eq_true_eq] at h
    exact h.2
  have hlt : '9'.val < 'A'.val := by decide
  rw [Char.toLower, dif_neg fun hand => UInt32.not_le.mpr hlt (UInt32.le_trans hand.1 hle)]

theorem isDigit_eq_false_of_mem_sign {sign : List Char} (h : IsSign sign) {c : Char}
    (hc : c ∈ sign) : c.isDigit = false := by
  cases h with
  | none => cases hc
  | plus => exact List.mem_singleton.mp hc ▸ rfl
  | minus => exact List.mem_singleton.mp hc ▸ rfl

/-- **No word for a number holds a digit.** -/
theorem IsNumberWord.isDigit_eq_false {text : List Char} (h : IsNumberWord text) :
    ∀ c ∈ text, c.isDigit = false := by
  obtain ⟨sign, word, hsign, rfl, hword⟩ := h
  intro c hc
  rcases List.mem_append.mp hc with hc | hc
  · exact isDigit_eq_false_of_mem_sign hsign hc
  · by_contra hdigit
    rw [Bool.not_eq_false] at hdigit
    have hlower : c ∈ word.map Char.toLower :=
      List.mem_map.mpr ⟨c, hc, toLower_of_isDigit hdigit⟩
    have hletters : ∀ known ∈ notANumberWord :: infinityWords, known.any Char.isDigit = false := by
      decide
    exact List.any_eq_false.mp (hletters _ hword) c hlower hdigit

/-- Every word for a number holds an `n`. -/
theorem IsNumberWord.exists_toLower_eq_n {text : List Char} (h : IsNumberWord text) :
    ∃ c ∈ text, c.toLower = 'n' := by
  obtain ⟨sign, word, -, rfl, hword⟩ := h
  have hletter : ∀ known ∈ notANumberWord :: infinityWords, 'n' ∈ known := by decide
  obtain ⟨c, hc, hn⟩ := List.mem_map.mp (hletter _ hword)
  exact ⟨c, List.mem_append_right sign hc, hn⟩

/-- A word for a number is no literal. -/
theorem IsNumberWord.not_isLiteral {text : List Char} (h : IsNumberWord text) :
    ¬ IsLiteral text := fun hliteral => by
  obtain ⟨c, hc, hdigit⟩ := hliteral.exists_isDigit
  rw [h.isDigit_eq_false c hc] at hdigit
  cases hdigit

/-- No word for a number begins with a sign of its own. -/
theorem IsNumberWord.ne_of_head? {word : List Char}
    (h : word.map Char.toLower ∈ notANumberWord :: infinityWords) {c : Char}
    (hc : c ∈ word.head?) : c ≠ '+' ∧ c ≠ '-' := by
  have hlower : c.toLower ∈ word.map Char.toLower :=
    List.mem_map_of_mem (List.mem_of_mem_head? hc)
  have hletters : ∀ known ∈ notANumberWord :: infinityWords,
      '+'.toLower ∉ known ∧ '-'.toLower ∉ known := by decide
  constructor
  · rintro rfl
    exact (hletters _ h).1 hlower
  · rintro rfl
    exact (hletters _ h).2 hlower

/-- A reader of all numbers takes the literals and the words for numbers, and nothing else. -/
theorem isSome_readAny? {text : List Char} :
    (readAny? text).isSome = true ↔ IsLiteral text ∨ IsNumberWord text := by
  rw [readAny?, ← Literal.isSome_ofChars?]
  rcases Literal.ofChars? text with _ | l
  · simp only [Option.isSome_none, Bool.false_eq_true, false_or]
    constructor
    · intro h
      obtain ⟨sign, hsign, htext⟩ := Literal.exists_sign text
      refine ⟨sign, (Literal.splitSign text).2, hsign, htext, ?_⟩
      split at h
      · next hinfinity => exact List.mem_cons_of_mem _ hinfinity
      split at h
      · next hnan => exact hnan ▸ List.mem_cons_self ..
      · cases h
    · rintro ⟨sign, word, hsign, rfl, hword⟩
      rw [Literal.splitSign_append hsign fun c hc => IsNumberWord.ne_of_head? hword hc]
      rcases List.mem_cons.mp hword with hnan | hinfinity
      · simp only [hnan]
        split <;> rfl
      · simp only [if_pos hinfinity, Option.isSome_some]
  · simp

/-- Of a text with a digit, a reader of all numbers makes what is made of a literal. -/
theorem readAny?_of_isDigit {text : List Char} (h : ∃ c ∈ text, c.isDigit = true) :
    readAny? text = (Literal.ofChars? text).map Literal.toFloat := by
  rcases hread : Literal.ofChars? text with _ | l
  · rw [Option.map_none, ← Option.not_isSome_iff_eq_none, isSome_readAny?]
    rintro (hliteral | hword)
    · rw [← Literal.isSome_ofChars?, hread] at hliteral
      cases hliteral
    · obtain ⟨c, hc, hdigit⟩ := h
      rw [hword.isDigit_eq_false c hc] at hdigit
      cases hdigit
  · rw [readAny?, hread, Option.map_some]

end Decimal

/-! ### The classes -/

namespace Atom

variable {text : String}

/-- **A literal stands for a number**, and for one that is a number. -/
theorem ofText?_of_isLiteral (h : IsLiteral text.toList) :
    ∃ x, ofText? text = some (.number x) ∧ x.isNaN = false := by
  obtain ⟨l, hl⟩ := Option.isSome_iff_exists.mp (Decimal.Literal.isSome_ofChars?.mpr h)
  exact ⟨l.toFloat, ofText?_eq_number_iff.mpr ⟨l, hl, rfl⟩, l.isNaN_toFloat⟩

/-- **What other texts stand for**: nothing, a boolean or a symbol. -/
theorem ofText?_of_not_isLiteral (h : ¬ IsLiteral text.toList) :
    ofText? text =
      if text = "" ∨ OpensWithDigit text.toList then none
      else if text = "True" then some (.boolean true)
      else if text = "False" then some (.boolean false)
      else some (.symbol text) := by
  have hnone : Decimal.Literal.ofChars? text.toList = none := by
    rw [← Option.not_isSome_iff_eq_none, Decimal.Literal.isSome_ofChars?]
    exact h
  rw [ofText?, hnone]
  rcases hchars : text.toList with _ | ⟨first, rest⟩
  · have hempty : text = "" ∨ OpensWithDigit [] := .inl (String.toList_eq_nil_iff.mp hchars)
    rw [if_pos hempty]
  · have hne : text ≠ "" := by
      rintro rfl
      cases hchars
    have hopens : OpensWithDigit (first :: rest) ↔ first.isDigit = true := by
      simp [OpensWithDigit]
    simp only [hne, false_or, hopens]

/-- The three fixed texts are no literals. -/
theorem not_isLiteral_of_fixed (h : text = "" ∨ text = "True" ∨ text = "False") :
    ¬ IsLiteral text.toList := by
  rw [← Decimal.Literal.isSome_ofChars?]
  rcases h with rfl | rfl | rfl <;> decide

theorem exists_number_iff : (∃ x, ofText? text = some (.number x)) ↔ IsLiteral text.toList := by
  constructor
  · rintro ⟨x, hx⟩
    obtain ⟨l, hl, -⟩ := ofText?_eq_number_iff.mp hx
    exact Decimal.Literal.isSome_ofChars?.mp (Option.isSome_of_eq_some hl)
  · intro h
    obtain ⟨x, hx, -⟩ := ofText?_of_isLiteral h
    exact ⟨x, hx⟩

theorem ofText?_eq_none_iff :
    ofText? text = none ↔
      text = "" ∨ OpensWithDigit text.toList ∧ ¬ IsLiteral text.toList := by
  by_cases hliteral : IsLiteral text.toList
  · obtain ⟨x, hx, -⟩ := ofText?_of_isLiteral hliteral
    have hne : text ≠ "" := fun h => not_isLiteral_of_fixed (.inl h) hliteral
    simp [hx, hliteral, hne]
  · rw [ofText?_of_not_isLiteral hliteral]
    simp only [hliteral, not_false_eq_true, and_true]
    split
    · next h => simp [h]
    · next h =>
        simp only [h, iff_false]
        split
        · nofun
        · split <;> nofun

theorem ofText?_eq_boolean_iff {b : Bool} :
    ofText? text = some (.boolean b) ↔ text = if b then "True" else "False" := by
  by_cases hliteral : IsLiteral text.toList
  · obtain ⟨x, hx, -⟩ := ofText?_of_isLiteral hliteral
    have hne : text ≠ if b then "True" else "False" := by
      rintro rfl
      exact not_isLiteral_of_fixed (.inr (by cases b <;> simp)) hliteral
    simp [hx, hne]
  · rw [ofText?_of_not_isLiteral hliteral]
    split
    · next h =>
        have hne : text ≠ if b then "True" else "False" := by
          rintro rfl
          cases b <;> exact absurd h (by decide)
        simp [hne]
    · split
      · next htrue => cases b <;> simp [htrue]
      · next htrue =>
          split
          · next hfalse => cases b <;> simp [hfalse]
          · next hfalse => cases b <;> simp [htrue, hfalse]

theorem ofText?_eq_symbol_iff {name : String} :
    ofText? text = some (.symbol name) ↔
      name = text ∧ text ≠ "" ∧ text ≠ "True" ∧ text ≠ "False" ∧
        ¬ OpensWithDigit text.toList ∧ ¬ IsLiteral text.toList := by
  by_cases hliteral : IsLiteral text.toList
  · obtain ⟨x, hx, -⟩ := ofText?_of_isLiteral hliteral
    simp [hx, hliteral]
  · rw [ofText?_of_not_isLiteral hliteral]
    split
    · next h =>
        simp only [reduceCtorEq, false_iff]
        rintro ⟨-, hne, -, -, hopens, -⟩
        exact h.elim hne hopens
    · next h =>
        rw [not_or] at h
        split
        · next htrue => simp [htrue]
        · next htrue =>
            split
            · next hfalse => simp [hfalse]
            · next hfalse => simp [h, htrue, hfalse, hliteral, eq_comm]

/-- The words for numbers without digits are symbols. -/
theorem ofText?_of_isNumberWord (h : Decimal.IsNumberWord text.toList) :
    ofText? text = some (.symbol text) := by
  obtain ⟨c, hc, hn⟩ := h.exists_toLower_eq_n
  have hfixed : ∀ fixed ∈ ["", "True", "False"], text ≠ fixed := by
    have hnone : ∀ fixed ∈ ["", "True", "False"], 'n' ∉ fixed.toList.map Char.toLower := by decide
    rintro fixed hmem rfl
    exact hnone text hmem (hn ▸ List.mem_map_of_mem hc)
  refine ofText?_eq_symbol_iff.mpr
    ⟨rfl, hfixed _ (by simp), hfixed _ (by simp), hfixed _ (by simp), ?_, h.not_isLiteral⟩
  rintro ⟨first, hfirst, hdigit⟩
  rw [h.isDigit_eq_false first (List.mem_of_mem_head? hfirst)] at hdigit
  cases hdigit

/-- The class of a text by the tests of a reader: whether it is a number of any kind, which is asked
only if there is a digit in it, whether it opens with a digit, and whether it is one of the words
for booleans or empty. -/
def ask (text : String) : Option Atom :=
  match if text.toList.any Char.isDigit then Decimal.readAny? text.toList else none with
  | some x => some (.number x)
  | none =>
    if OpensWithDigit text.toList then none
    else if text = "True" then some (.boolean true)
    else if text = "False" then some (.boolean false)
    else if text = "" then none
    else some (.symbol text)

/-- **It comes to the same to ask for numbers of any kind**, but only where there is a digit. -/
theorem ofText?_eq_ask (text : String) : ofText? text = ask text := by
  have hnumber : (if text.toList.any Char.isDigit then Decimal.readAny? text.toList else none) =
      (Decimal.Literal.ofChars? text.toList).map Decimal.Literal.toFloat := by
    by_cases hdigit : text.toList.any Char.isDigit = true
    · rw [if_pos hdigit, Decimal.readAny?_of_isDigit (List.any_eq_true.mp hdigit)]
    · rcases hread : Decimal.Literal.ofChars? text.toList with _ | l
      · rw [if_neg hdigit, Option.map_none]
      · have hliteral := Decimal.Literal.isSome_ofChars?.mp (Option.isSome_of_eq_some hread)
        exact absurd (List.any_eq_true.mpr hliteral.exists_isDigit) hdigit
  rw [ask, hnumber]
  by_cases hliteral : IsLiteral text.toList
  · obtain ⟨l, hl⟩ := Option.isSome_iff_exists.mp (Decimal.Literal.isSome_ofChars?.mpr hliteral)
    rw [ofText?, hl, Option.map_some]
  · have hnone : Decimal.Literal.ofChars? text.toList = none := by
      rwa [← Option.not_isSome_iff_eq_none, Decimal.Literal.isSome_ofChars?]
    rw [ofText?_of_not_isLiteral hliteral, hnone, Option.map_none]
    by_cases hopens : OpensWithDigit text.toList
    · simp only [hopens, or_true, if_true]
    · by_cases hempty : text = ""
      · subst hempty
        rfl
      · simp only [hopens, hempty, or_self, if_false]

end Atom

/-! ### Programs -/

namespace Expr

variable {stack : List Frame} {tokens rest : List Token} {word : String} {span : Span}

/-- A word is refused as invalid if it stands for nothing. -/
theorem ofText?_eq_none_of_advance {token : Token}
    (h : advance token stack = .error (.invalidWord word span)) :
    token = ⟨.word word, span⟩ ∧ Atom.ofText? word = none := by
  obtain rfl : token = ⟨.word word, span⟩ := Option.some.inj (token?_of_advance h).symm
  refine ⟨rfl, ?_⟩
  rcases hatom : Atom.ofText? word with _ | atom
  · rfl
  · rcases stack with _ | ⟨_ | _, outer⟩ <;> simp [advance, hatom] at h

/-- An invalid word that stops the machine is one of the tokens. -/
theorem mem_of_readFrom_invalidWord
    (h : readFrom stack tokens = (.error (.invalidWord word span), rest)) :
    ⟨.word word, span⟩ ∈ tokens ∧ Atom.ofText? word = none := by
  induction tokens generalizing stack with
  | nil => cases h
  | cons token tokens ih =>
      rw [readFrom] at h
      rcases hstep : advance token stack with error | complete | inner
      · rw [hstep] at h
        cases h
        obtain ⟨rfl, hatom⟩ := ofText?_eq_none_of_advance hstep
        exact ⟨List.mem_cons_self .., hatom⟩
      · rw [hstep] at h
        cases h
      · rw [hstep] at h
        exact (ih h).imp_left (List.mem_cons_of_mem token)

/-- **The words that stop the reading of a program** open with a digit. They are not empty, since no
word of a text is. -/
theorem opensWithDigit_of_invalidWord {text : String}
    (h : ofText text = .error (.invalidWord word span)) :
    OpensWithDigit word.toList ∧ ¬ IsLiteral word.toList := by
  rw [ofText, ofTokens] at h
  rcases hread : read (Token.ofText text) with ⟨error | e, rest⟩
  · rw [hread] at h
    cases h
    obtain ⟨hmem, hatom⟩ := mem_of_readFrom_invalidWord hread
    have hword : Token.IsWord word := (Token.stands_of_mem_ofText hmem).word word rfl
    have hliteral : ¬ IsLiteral word.toList := fun hliteral => by
      obtain ⟨x, hx, -⟩ := Atom.ofText?_of_isLiteral hliteral
      rw [hatom] at hx
      cases hx
    refine ⟨?_, hliteral⟩
    rw [Atom.ofText?_of_not_isLiteral hliteral] at hatom
    by_contra hopens
    have hne : word ≠ "" := fun hempty => hword.1 (String.toList_eq_nil_iff.mpr hempty)
    rw [if_neg (by simp [hne, hopens])] at hatom
    split at hatom
    · cases hatom
    split at hatom
    · cases hatom
    · cases hatom
  · rw [hread] at h
    cases rest <;> cases h

end Expr

namespace Atom

/-- **The four classes of texts**: what a text stands for is told by its form. What a literal stands
for is a number indeed, and the words for numbers without digits are symbols. It comes to the same
to ask a reader of all numbers, where there is a digit. And the word for which a program is refused
as having an invalid word opens with a digit and is no literal. -/
theorem ofText?_classes (text : String) :
    ((∃ x, ofText? text = some (.number x)) ↔ IsLiteral text.toList) ∧
    (ofText? text = none ↔
      text = "" ∨ OpensWithDigit text.toList ∧ ¬ IsLiteral text.toList) ∧
    (∀ b, ofText? text = some (.boolean b) ↔ text = if b then "True" else "False") ∧
    (∀ name, ofText? text = some (.symbol name) ↔
      name = text ∧ text ≠ "" ∧ text ≠ "True" ∧ text ≠ "False" ∧
        ¬ OpensWithDigit text.toList ∧ ¬ IsLiteral text.toList) ∧
    (∀ x, ofText? text = some (.number x) → x.isNaN = false) ∧
    (Decimal.IsNumberWord text.toList → ofText? text = some (.symbol text)) ∧
    ofText? text = ask text ∧
    ∀ word span, Expr.ofText text = .error (.invalidWord word span) →
      OpensWithDigit word.toList ∧ ¬ IsLiteral word.toList := by
  refine ⟨exists_number_iff, ofText?_eq_none_iff, fun _ => ofText?_eq_boolean_iff,
    fun _ => ofText?_eq_symbol_iff, fun x hx => ?_, ofText?_of_isNumberWord, ofText?_eq_ask text,
    fun _ _ => Expr.opensWithDigit_of_invalidWord⟩
  obtain ⟨l, -, rfl⟩ := ofText?_eq_number_iff.mp hx
  exact l.isNaN_toFloat

-- A sign in front of a digit does not make a text look like a number.
example : ofText? "-1abc" = some (.symbol "-1abc") := by decide

end Atom

end FlatLisp
