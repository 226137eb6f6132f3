import FlatLisp.Entry.Completion
import FlatLisp.Proofs.Entries
import FlatLisp.Proofs.PlainValues
import Mathlib.Data.List.Nodup
import Mathlib.Data.List.Sort
import Mathlib.Data.String.Basic

/-!
# What Is Offered

While a name is entered, what is missing of the names that it can become is offered. What is offered
has to be put behind the cursor without a change to the tokens before it, and it has to be a name
then that means something.

The first is a matter of the scanner: when the last token is a word that ends at the cursor, the
scanner stands in that word, and the characters of a longer word go to it. The names that can be
offered are words, since every scope that a conversation comes to is sound, and the names in a sound
scope can be spelled. The second is a matter of the evaluation: a lone name that is bound, or the
name of a special form, may fail for many reasons, but not since it is unknown.

## Main definitions

* `Completion.Offers`: what is offered for a beginning.

## Main results

* `Expr.run_eval_symbol_ne`: a lone name that is bound or reserved is not unknown.
* `Conversation.sound_enterAll`: the session of every conversation is sound.
* `Token.afterText_of_ofText`: the scanner stands in the word that ends at the cursor.
* `Completion.mem_candidates`, `Completion.pairwise_candidates`: what is offered, and in what order.
* `Completion.complete_offers`: what is offered, at every place of a line and after any entries.
-/

namespace FlatLisp

open Text

/-! ### Names -/

theorem isName_builtin (b : Builtin) : IsName b.name := by
  cases b <;> exact ⟨rfl, rfl⟩

theorem isName_pi : IsName "pi" :=
  ⟨rfl, rfl⟩

theorem isName_form (form : SpecialForm) : IsName form.name := by
  cases form <;> exact ⟨rfl, rfl⟩

/-- All names in a sound scope can be spelled. -/
theorem Env.Sound.isName {env : Env} (h : env.Sound) {name : String}
    (hname : env.contains name = true) : IsName name := by
  rcases h.names name hname with ⟨b, rfl⟩ | rfl | hspelled
  · exact isName_builtin b
  · exact isName_pi
  · exact hspelled

namespace IsName

variable {name : String}

theorem isWord (h : IsName name) : Token.IsWord name := by
  have hmem : ⟨.word name, ⟨0, byteLength name.toList⟩⟩ ∈ Token.ofText name := by
    rw [h.1]
    exact List.mem_singleton.mpr rfl
  exact (Token.stands_of_mem_ofText hmem).word name rfl

/-- A name is read as the symbol of that name. -/
theorem ofText (h : IsName name) : Expr.ofText name = .ok (.leaf (.symbol name)) := by
  rw [Expr.ofText, Expr.ofTokens_eq_ok_iff, h.1]
  exact .word h.2

end IsName

/-! ### Lone names -/

/-- **A lone name that is bound or reserved is not unknown.** -/
theorem Expr.run_eval_symbol_ne {env : Env} {name : String}
    (h : env.contains name = true ∨ ∃ form : SpecialForm, form.name = name) (other : String) :
    ((leaf (.symbol name)).eval.run env).result ≠ .error (.unknownSymbol other) := by
  have hhead : ((leaf (.symbol name)).eval.run env).result =
      ((evalHead (some (.symbol name)) []).run env).result := by
    rw [leaf, run_eval]
    rfl
  rw [hhead]
  rcases hform : SpecialForm.ofName? name with _ | _ | _ | _
  · have hbound : env.contains name = true := by
      refine h.resolve_right ?_
      rintro ⟨form, hname⟩
      exact SpecialForm.ofName?_eq_none_iff.mp hform form hname
    obtain ⟨binding, hbinding⟩ := Env.contains_eq_true_iff.mp hbound
    rw [evalHead_call hform, evalOperands_nil]
    rcases binding with e | p
    · rw [run_callSymbol_of_value hbinding]
      simp
    · rw [run_callSymbol_of_procedure hbinding, Eval.pure_bind, Eval.run_note_bind, Eval.call_run]
      rcases env.call name [] with cause | e
      · simp [Outcome.after]
      · simp [Outcome.after]
  · rw [evalHead_sequence hform, evalSequence_nil]
    simp
  · rw [evalHead_conditional hform]
    simp [evalConditional]
  · rw [evalHead_definition hform]
    simp [evalDefinition]

/-! ### Conversations -/

namespace Conversation

variable {c : Conversation}

/-- An entry keeps the session sound. -/
theorem sound_enter (h : c.session.Sound) (entry : List Char) : (c.enter entry).session.Sound := by
  by_cases hnot : trim entry = [] ∨ isFarewell (String.ofList (trim entry)) = true
  · rwa [session_enter_of_not hnot]
  · rw [not_or, Bool.not_eq_true] at hnot
    rw [enter_of_ne_nil hnot.1 hnot.2]
    rcases hread : Expr.ofText (String.ofList (trim entry)) with e | program
    · rw [answer_of_error hread]
      exact h
    · rw [(answer_of_ok hread).2.1]
      have hparsed : Session.Sound { c.session with program } :=
        ⟨h.env, Expr.spelled_of_ofText hread⟩
      exact hparsed.answer .tryEval

/-- **The session of every conversation is sound.** -/
theorem sound_enterAll (h : c.session.Sound) (entries : List (List Char)) :
    (c.enterAll entries).session.Sound := by
  induction entries generalizing c with
  | nil => exact h
  | cons entry rest ih =>
      rw [enterAll, List.foldl_cons]
      refine ih ?_
      split
      · exact h
      · exact sound_enter h entry

end Conversation

/-! ### The word at the cursor -/

namespace Token

/-- A word that a character completes ends before that character. -/
theorem stop_of_mem_emitted {mode : Mode} {offset : Nat} {c : Char} {word : String} {s : Span}
    (h : ⟨.word word, s⟩ ∈ mode.emitted offset c) : s.stop = offset := by
  have hended : ∀ {t : Token}, t ∈ mode.ended offset → t.span.stop = offset := by
    intro t ht
    cases mode with
    | between => cases ht
    | comment => cases ht
    | word start text =>
        obtain rfl := List.mem_singleton.mp ht
        rfl
  have hparenthesis : ∀ {kind : Kind} {t : Span}, kind ≠ .word word →
      ⟨.word word, s⟩ ∈ mode.ended offset ++ [⟨kind, t⟩] → s.stop = offset := by
    intro kind t hkind hmem
    rcases List.mem_append.mp hmem with hword | hlast
    · exact hended hword
    · obtain ⟨rfl, -⟩ := Token.mk.inj (List.mem_singleton.mp hlast)
      exact absurd rfl hkind
  unfold Mode.emitted at h
  split at h
  · cases h
  split at h
  · exact hended h
  split at h
  · exact hparenthesis (by simp) h
  split at h
  · exact hparenthesis (by simp) h
  · cases h

/-- A word that is complete in a text ends before the text does. -/
theorem stop_lt_of_mem_emittedText {mode : Mode} {offset : Nat} {text : List Char} {word : String}
    {s : Span} (h : ⟨.word word, s⟩ ∈ mode.emittedText offset text) :
    s.stop < offset + byteLength text := by
  induction text generalizing mode offset with
  | nil => cases h
  | cons c rest ih =>
      rw [Mode.emittedText, List.mem_append] at h
      rw [byteLength_cons]
      have hc := c.utf8Size_pos
      rcases h with hnow | hlater
      · have hstop := stop_of_mem_emitted hnow
        omega
      · have hlt := ih hlater
        omega

/-- **The scanner stands in the word that ends where a text does.** -/
theorem afterText_of_ofText {text : String} {before : List Token} {word : String} {start : Nat}
    (h : ofText text = before ++ [⟨.word word, ⟨start, byteLength text.toList⟩⟩]) :
    Mode.between.emittedText 0 text.toList = before ∧
      Mode.between.afterText 0 text.toList = .word start word := by
  have hscan := scan_append .between 0 text.toList []
  rw [List.append_nil, scan_nil, Nat.zero_add] at hscan
  rw [ofText, hscan] at h
  rcases hmode : Mode.between.afterText 0 text.toList with _ | _ | ⟨start', word'⟩
  case word =>
    rw [hmode] at h
    obtain ⟨hbefore, hlast⟩ := List.append_inj' h rfl
    cases hlast
    exact ⟨hbefore, rfl⟩
  all_goals
    rw [hmode] at h
    have hall := (List.append_nil _).symm.trans h
    have hlast : ⟨.word word, ⟨start, byteLength text.toList⟩⟩ ∈
        Mode.between.emittedText 0 text.toList := by
      rw [hall]
      exact List.mem_append_right before (List.mem_singleton.mpr rfl)
    have hlt := stop_lt_of_mem_emittedText hlast
    rw [Nat.zero_add] at hlt
    exact absurd hlt (Nat.lt_irrefl _)

end Token

/-! ### Candidates -/

namespace Completion

variable {env : Env} {name beginning : String}

/-- Where the later ones of equal elements are gone, no element is there twice. -/
theorem nodup_eraseDups {α : Type} [BEq α] [LawfulBEq α] (elements : List α) :
    elements.eraseDups.Nodup := by
  induction hlength : elements.length using Nat.strongRecOn generalizing elements with
  | ind length ih =>
      subst hlength
      cases elements with
      | nil => exact List.nodup_nil
      | cons a rest =>
          have hshorter : (rest.filter fun b => !b == a).length < (a :: rest).length :=
            Nat.lt_succ_of_le (List.length_filter_le ..)
          rw [List.eraseDups_cons, List.nodup_cons]
          exact ⟨by simp, ih _ hshorter _ rfl⟩

theorem mem_vocabulary :
    name ∈ vocabulary env ↔ env.contains name = true ∨ ∃ form : SpecialForm, form.name = name := by
  have hall (form : SpecialForm) : form ∈ SpecialForm.all := by
    cases form <;> decide
  rw [vocabulary, List.mem_eraseDups, List.mem_append, Env.mem_names, List.mem_map, or_comm]
  simp [hall]

/-- What follows a beginning in a name completes it. -/
theorem remainder?_eq_some_iff {rest : String} :
    remainder? beginning name = some rest ↔ rest ≠ "" ∧ name = beginning ++ rest := by
  have hbeginning : name = beginning ++ rest ↔
      beginning.toList.isPrefixOf? name.toList = some rest.toList := by
    rw [List.isPrefixOf?_eq_some_iff_append_eq, ← String.toList_append, String.toList_inj, eq_comm]
  rw [hbeginning, remainder?]
  rcases beginning.toList.isPrefixOf? name.toList with _ | _ | ⟨c, more⟩
  · simp
  · simp
  · constructor
    · rintro ⟨⟩
      simp
    · rintro ⟨-, hmore⟩
      obtain rfl : String.ofList (c :: more) = rest := by
        rw [Option.some.inj hmore, String.ofList_toList]
      simp

/-- What is offered is what makes a name of the beginning. -/
theorem mem_candidates {rest : String} :
    rest ∈ ((vocabulary env).filterMap (remainder? beginning)).mergeSort ↔ rest ≠ "" ∧
      (env.contains (beginning ++ rest) = true ∨
        ∃ form : SpecialForm, form.name = beginning ++ rest) := by
  rw [List.mem_mergeSort, List.mem_filterMap]
  constructor
  · rintro ⟨name, hname, hrest⟩
    obtain ⟨hne, rfl⟩ := remainder?_eq_some_iff.mp hrest
    exact ⟨hne, mem_vocabulary.mp hname⟩
  · rintro ⟨hne, hname⟩
    exact ⟨_, mem_vocabulary.mpr hname, remainder?_eq_some_iff.mpr ⟨hne, rfl⟩⟩

/-- It is in ascending order, and nothing is offered twice. -/
theorem pairwise_candidates :
    (((vocabulary env).filterMap (remainder? beginning)).mergeSort).Pairwise (· < ·) := by
  have hnodup : ((vocabulary env).filterMap (remainder? beginning)).Nodup := by
    refine (nodup_eraseDups _).filterMap fun name other rest hname hother => ?_
    rw [(remainder?_eq_some_iff.mp hname).2, (remainder?_eq_some_iff.mp hother).2]
  have hsorted := List.pairwise_mergeSort' (· ≤ ·)
    ((vocabulary env).filterMap (remainder? beginning))
  have hdistinct := hnodup.perm (List.mergeSort_perm _ fun a b : String => decide (a ≤ b)).symm
  exact (hsorted.and hdistinct).imp fun ⟨hle, hne⟩ => lt_of_le_of_ne hle hne

/-- The name that is being entered is the last token, if that is a word and ends where the text
does. -/
theorem current?_eq_some_iff {text : String} :
    current? text.toList = some name ↔ ∃ before start,
      Token.ofText text = before ++ [⟨.word name, ⟨start, byteLength text.toList⟩⟩] := by
  unfold current?
  constructor
  · intro h
    split at h
    · next word span hlast =>
        obtain ⟨before, hbefore⟩ := List.getLast?_eq_some_iff.mp hlast
        split at h
        · next hstop =>
            cases h
            exact ⟨before, span.start, hstop ▸ hbefore⟩
        · cases h
    · cases h
  · rintro ⟨before, start, h⟩
    rw [← Token.ofText, h]
    simp

/-- What is offered in a session for a beginning that is the last token of `front` and ends where
that does, after the tokens `before`. -/
structure Offers (session : Session) (front : String) (before : List Token) (beginning : String)
    (start : Nat) (offered : List String) : Prop where
  /-- It is in ascending order, and nothing is offered twice. -/
  ascending : offered.Pairwise (· < ·)
  /-- It is what makes a bound name of the beginning, or the name of a special form. -/
  names : ∀ rest, rest ∈ offered ↔ rest ≠ "" ∧
    (session.env.contains (beginning ++ rest) = true ∨
      ∃ form : SpecialForm, form.name = beginning ++ rest)
  /-- With any of it, the last token is that name, and the others are as before. -/
  tokens : ∀ rest ∈ offered, Token.ofText (front ++ rest) =
    before ++ [⟨.word (beginning ++ rest), ⟨start, byteLength (front ++ rest).toList⟩⟩]
  /-- As a program, that name is not unknown. -/
  known : ∀ rest ∈ offered, ∃ parsed, session.parse (beginning ++ rest) = .ok parsed ∧
    parsed.env = session.env ∧ ∀ name, parsed.tryEval.result ≠ .error (.unknownSymbol name)

/-- A name that can be offered can be spelled. -/
theorem isName_of_known (henv : env.Sound)
    (h : env.contains name = true ∨ ∃ form : SpecialForm, form.name = name) : IsName name := by
  rcases h with hbound | ⟨form, rfl⟩
  · exact henv.isName hbound
  · exact isName_form form

/-- The characters that make a longer word of the one that ends at the cursor go to that word. -/
theorem ofText_append_of_isWord {front rest : String} {before : List Token} {start : Nat}
    (h : Token.ofText front = before ++ [⟨.word beginning, ⟨start, byteLength front.toList⟩⟩])
    (hword : Token.IsWord (beginning ++ rest)) : Token.ofText (front ++ rest) =
      before ++ [⟨.word (beginning ++ rest), ⟨start, byteLength (front ++ rest).toList⟩⟩] := by
  obtain ⟨hemitted, hmode⟩ := Token.afterText_of_ofText h
  have hrest : ∀ c ∈ rest.toList, Token.isWordChar c = true := by
    intro c hc
    refine hword.2 c ?_
    rw [String.toList_append]
    exact List.mem_append_right _ hc
  have hscan := @Token.scan_word_append start beginning _ hrest (byteLength front.toList) []
  rw [List.append_nil, Token.scan_nil, String.ofList_toList] at hscan
  rw [Token.ofText, String.toList_append, Token.scan_append, hemitted, hmode, Nat.zero_add, hscan,
    byteLength_append]
  rfl

theorem offers {session : Session} {front : String} {before : List Token} {start : Nat}
    (hsession : session.Sound) (h : Token.ofText front =
      before ++ [⟨.word beginning, ⟨start, byteLength front.toList⟩⟩]) :
    Offers session front before beginning start
      ((vocabulary session.env).filterMap (remainder? beginning)).mergeSort where
  ascending := pairwise_candidates
  names _ := mem_candidates
  tokens rest hrest :=
    ofText_append_of_isWord h (isName_of_known hsession.env (mem_candidates.mp hrest).2).isWord
  known rest hrest := by
    have hknown := (mem_candidates.mp hrest).2
    refine ⟨{ session with program := .leaf (.symbol (beginning ++ rest)) }, ?_, rfl,
      Expr.run_eval_symbol_ne hknown⟩
    rw [Session.parse, (isName_of_known hsession.env hknown).ofText]

/-- **What is offered** at a place of a line, after any entries: if the last token before the cursor
is a word and ends at the cursor, all that makes a name of it, and otherwise nothing. -/
theorem complete_offers (settings : Settings) (history : Bool) (logger : Logger)
    (entries : List (List Char)) (front back : String) :
    let session := ((Conversation.opening settings history logger).enterAll entries).session
    let answer := complete session.env (front ++ back) (byteLength front.toList)
    answer.1 = byteLength front.toList ∧
      (∀ before beginning start, Token.ofText front =
        before ++ [⟨.word beginning, ⟨start, byteLength front.toList⟩⟩] →
          Offers session front before beginning start answer.2) ∧
      ((∀ before beginning start, Token.ofText front ≠
        before ++ [⟨.word beginning, ⟨start, byteLength front.toList⟩⟩]) → answer.2 = []) := by
  intro session answer
  have hsession : session.Sound := Conversation.sound_enterAll Session.sound_initial entries
  have hfront : takeBytes (byteLength front.toList) (front ++ back).toList = front.toList := by
    rw [String.toList_append, takeBytes_byteLength_append]
  refine ⟨rfl, fun before beginning start h => ?_, fun hnone => ?_⟩
  · have hcurrent := current?_eq_some_iff.mpr ⟨before, start, h⟩
    have hanswer : answer.2 =
        ((vocabulary session.env).filterMap (remainder? beginning)).mergeSort := by
      simp only [answer, complete, candidates, hfront, hcurrent]
    rw [hanswer]
    exact offers hsession h
  · have hcurrent : current? front.toList = none := by
      rcases hcurrent : current? front.toList with _ | name
      · rfl
      · obtain ⟨before, start, h⟩ := current?_eq_some_iff.mp hcurrent
        exact absurd h (hnone before name start)
    simp only [answer, complete, candidates, hfront, hcurrent]

/-- The session after a definition was entered. -/
theorem session_define_delta :
    ((Conversation.opening {} false).enterAll ["(define delta True)".toList]).session =
      (⟨.initial, .definition "delta" (.leaf (.boolean true))⟩ : Session).tryEval.session := by
  have hread : Expr.ofText (String.ofList (trim "(define delta True)".toList)) =
      .ok (.definition "delta" (.leaf (.boolean true))) := rfl
  have henter := Conversation.enterAll_concat (Conversation.opening {} false) []
    "(define delta True)".toList rfl
  rw [List.nil_append] at henter
  rw [henter, Conversation.enter_of_ne_nil (by decide) (by decide)]
  exact (Conversation.answer_of_ok hread).2.1

/-- A name that was defined is offered for its beginning, inside a list. -/
theorem complete_offers_defined :
    Token.ofText "(and de" = [⟨.opening, ⟨0, 1⟩⟩, ⟨.word "and", ⟨1, 4⟩⟩] ++
        [⟨.word "de", ⟨5, byteLength "(and de".toList⟩⟩] ∧
      "lta" ∈ (complete ((Conversation.opening {} false).enterAll
        ["(define delta True)".toList]).session.env ("(and de" ++ ")")
          (byteLength "(and de".toList)).2 := by
  have hfront : Token.ofText "(and de" = [⟨.opening, ⟨0, 1⟩⟩, ⟨.word "and", ⟨1, 4⟩⟩] ++
      [⟨.word "de", ⟨5, byteLength "(and de".toList⟩⟩] := by decide
  have hbound : ((Conversation.opening {} false).enterAll
      ["(define delta True)".toList]).session.env.contains ("de" ++ "lta") = true := by
    rw [session_define_delta]
    rfl
  obtain ⟨-, hoffers, -⟩ :=
    complete_offers {} false .silent ["(define delta True)".toList] "(and de" ")"
  exact ⟨hfront, ((hoffers _ _ _ hfront).names "lta").mpr ⟨by decide, .inl hbound⟩⟩

end Completion

end FlatLisp
