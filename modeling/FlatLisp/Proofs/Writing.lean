import FlatLisp.Proofs.Gaps
import FlatLisp.Proofs.Numbers
import FlatLisp.Proofs.PlainValues

/-!
# Writing Expressions

Which expressions can a program be? Those that can be written down: a node without a head has no
children, every name is a word that stands for the symbol of this name, and every number is one. And
such an expression can be written freely. An atom without children stands by itself or in
parentheses, a number is any of its literals, and between the tokens there is any amount of blanks
and of comments with their line ends; only between two words there has to be something. Whatever is
chosen, the text is read as the expression again.

One direction is an induction over the derivation of what was read. For the other the text is first
laid out (`Token.Spaced.exists_laidOut`), so that its tokens are those that were written, and then
these derive the expression (`Expr.Writes.derives`).

## Main definitions

* `Expr.Readable`: the expressions that can be written down.
* `Expr.Writes`: the tokens that an expression can be written with.
* `Token.Spaced`: a text with some tokens, and what is between them.
* `Expr.Written`: a text that an expression can be written as.

## Main results

* `Expr.readable_of_ofText`: what was read can be written down.
* `Expr.Written.ofText_eq`: what was written is read again.
* `Expr.readable_iff_ofText`: the expressions that programs can be.
-/

namespace FlatLisp

open Text

/-! ### Spellings and writings -/

/-- A word is a spelling of an atom: a number has all literals that stand for it, and a name is its
own. -/
def Atom.Spells : Atom → String → Prop
  | number x, word => ∃ l, Decimal.Literal.ofChars? word.toList = some l ∧ l.toFloat = x
  | boolean true, word => word = "True"
  | boolean false, word => word = "False"
  | symbol name, word => word = name

namespace Expr

/-- The expressions that can be written down. -/
structure Readable (e : Expr) : Prop where
  /-- A node without a head has no children. -/
  headless : ∀ children, Within ⟨none, children⟩ e → children = []
  /-- A name is a word that stands for the symbol of this name. -/
  symbol : ∀ name children, Within ⟨some (.symbol name), children⟩ e →
    Token.IsWord name ∧ Atom.ofText? name = some (.symbol name)
  /-- A number is one. -/
  number : ∀ x children, Within ⟨some (.number x), children⟩ e → x.isNaN = false

/-- The tokens that an expression can be written with: a head without children by itself or in
parentheses, the empty expression as parentheses, and any other in parentheses with its head and
then its children, each of them written in any way. -/
inductive Writes : List Token.Kind → Expr → Prop
  | bare {word : String} {atom : Atom} : atom.Spells word → Writes [.word word] (leaf atom)
  | enclosed {word : String} {atom : Atom} :
      atom.Spells word → Writes [.opening, .word word, .closing] (leaf atom)
  | nothing : Writes [.opening, .closing] empty
  | list {word : String} {atom : Atom} {parts : List (List Token.Kind × Expr)} :
      atom.Spells word → parts ≠ [] → (∀ part ∈ parts, Writes part.1 part.2) →
      Writes (.opening :: .word word :: (parts.flatMap Prod.fst ++ [.closing]))
        ⟨some atom, parts.map Prod.snd⟩

end Expr

namespace Token

/-- A token is a word. -/
def Kind.isWord : Kind → Bool
  | word _ => true
  | _ => false

/-- What may be put between tokens: blanks, and comments with the line breaks that end them. -/
inductive Filler : List Char → Prop
  | nil : Filler []
  | blank {c : Char} {rest : List Char} : isBlank c = true → Filler rest → Filler (c :: rest)
  | comment {body rest : List Char} {c : Char} : (∀ d ∈ body, isLineBreak d = false) →
      isLineBreak c = true → Filler rest → Filler (';' :: (body ++ c :: rest))

/-- A text with some tokens, and fillers before, between and after them. The first filler must not
be missing between two words: `behind` tells whether a word stands right before the text. -/
inductive Spaced : Bool → List Kind → List Char → Prop
  | last {behind : Bool} {filler : List Char} : Filler filler → Spaced behind [] filler
  | token {behind : Bool} {filler rest : List Char} {kind : Kind} {kinds : List Kind} :
      Filler filler → (behind = true → kind.isWord = true → filler ≠ []) →
      Spaced kind.isWord kinds rest →
      Spaced behind (kind :: kinds) (filler ++ (kind.display.toList ++ rest))

end Token

/-- A text that an expression can be written as. -/
def Expr.Written (text : String) (e : Expr) : Prop :=
  ∃ kinds, Expr.Writes kinds e ∧ Token.Spaced false kinds text.toList

/-! ### What was read -/

namespace Expr

section

variable {e : Expr} {head : Option Atom} {children : List Expr} {text : String} {atom : Atom}

theorem Readable.of_mem_children (h : Readable ⟨head, children⟩) {c : Expr} (hc : c ∈ children) :
    c.Readable where
  headless _ hwithin := h.headless _ (.child hc hwithin)
  symbol _ _ hwithin := h.symbol _ _ (.child hc hwithin)
  number _ _ hwithin := h.number _ _ (.child hc hwithin)

/-- A node with a head that a word stands for can be written down if its children can. -/
theorem Readable.of_word (hatom : Atom.ofText? text = some atom) (hword : Token.IsWord text)
    (hchildren : ∀ c ∈ children, c.Readable) : Readable ⟨some atom, children⟩ where
  headless _ hwithin := by
    cases hwithin with
    | child hc hwithin => exact (hchildren _ hc).headless _ hwithin
  symbol name _ hwithin := by
    cases hwithin with
    | refl =>
        obtain rfl := Atom.eq_of_ofText? hatom
        exact ⟨hword, hatom⟩
    | child hc hwithin => exact (hchildren _ hc).symbol _ _ hwithin
  number x _ hwithin := by
    cases hwithin with
    | refl =>
        obtain ⟨l, -, rfl⟩ := Atom.ofText?_eq_number_iff.mp hatom
        exact l.isNaN_toFloat
    | child hc hwithin => exact (hchildren _ hc).number _ _ hwithin

theorem readable_empty : Readable empty where
  headless _ hwithin := by
    cases hwithin with
    | refl => rfl
    | child hc => cases hc
  symbol _ _ hwithin := by
    cases hwithin with
    | child hc => cases hc
  number _ _ hwithin := by
    cases hwithin with
    | child hc => cases hc

/-- What words derive can be written down. -/
theorem Derives.readable {tokens : List Token} (h : Derives tokens e)
    (hwords : ∀ t ∈ tokens, ∀ w, t.kind = .word w → Token.IsWord w) : e.Readable := by
  induction h with
  | word hatom => exact .of_word hatom (hwords _ (List.mem_singleton_self _) _ rfl) nofun
  | nothing => exact readable_empty
  | @list text atom s t u parts hatom _ ih =>
      refine .of_word hatom (hwords ⟨.word text, t⟩ (by simp) _ rfl) fun c hc => ?_
      obtain ⟨part, hpart, rfl⟩ := List.mem_map.mp hc
      refine ih part hpart fun t' ht' => hwords t' ?_
      have hflat := List.mem_flatMap.mpr ⟨part, hpart, ht'⟩
      exact List.mem_cons_of_mem _ (List.mem_cons_of_mem _ (List.mem_append_left _ hflat))

/-- **What was read can be written down.** -/
theorem readable_of_ofText (h : ofText text = .ok e) : e.Readable :=
  (ofTokens_eq_ok_iff.mp h).readable fun _ ht => (Token.stands_of_mem_ofText ht).word

/-! ### What was written -/

/-- **A spelling stands for its atom**, and is a word, if the atom is one of an expression that can
be written down. -/
theorem Readable.ofText?_eq (h : Readable ⟨some atom, children⟩) {word : String}
    (hword : atom.Spells word) : Atom.ofText? word = some atom ∧ Token.IsWord word := by
  cases atom with
  | number x =>
      have hnumber := Atom.ofText?_eq_number_iff.mpr hword
      exact ⟨hnumber, Atom.isWord_of_number hnumber⟩
  | boolean b =>
      cases b with
      | true =>
          obtain rfl : word = "True" := hword
          exact ⟨by decide, by decide, List.all_eq_true.mp rfl⟩
      | false =>
          obtain rfl : word = "False" := hword
          exact ⟨by decide, by decide, List.all_eq_true.mp rfl⟩
  | symbol name =>
      obtain rfl : word = name := hword
      obtain ⟨hname, hatom⟩ := h.symbol word children (.refl _)
      exact ⟨hatom, hname⟩

/-- The tokens of a row of expressions fall into the tokens of each. -/
theorem exists_parts {parts : List (List Token.Kind × Expr)}
    (h : ∀ part ∈ parts, ∀ tokens : List Token, tokens.map Token.kind = part.1 →
      Derives tokens part.2) {tokens : List Token}
    (htokens : tokens.map Token.kind = parts.flatMap Prod.fst) :
    ∃ derived : List (List Token × Expr), tokens = derived.flatMap Prod.fst ∧
      derived.map Prod.snd = parts.map Prod.snd ∧ ∀ part ∈ derived, Derives part.1 part.2 := by
  induction parts generalizing tokens with
  | nil => exact ⟨[], List.map_eq_nil_iff.mp htokens, rfl, nofun⟩
  | cons part parts ih =>
      obtain ⟨hpart, hparts⟩ := List.forall_mem_cons.mp h
      rw [List.flatMap_cons] at htokens
      obtain ⟨first, rest, rfl, hfirst, hrest⟩ := List.map_eq_append_iff.mp htokens
      obtain ⟨derived, rfl, hsnd, hderived⟩ := ih hparts hrest
      refine ⟨(first, part.2) :: derived, rfl, by rw [List.map_cons, hsnd, List.map_cons], ?_⟩
      exact List.forall_mem_cons.mpr ⟨hpart first hfirst, hderived⟩

theorem exists_span_of_map_kind {tokens : List Token} {kind : Token.Kind}
    {kinds : List Token.Kind} (h : tokens.map Token.kind = kind :: kinds) :
    ∃ s rest, tokens = ⟨kind, s⟩ :: rest ∧ rest.map Token.kind = kinds := by
  obtain ⟨⟨kind, s⟩, rest, rfl, rfl, hrest⟩ := List.map_eq_cons_iff.mp h
  exact ⟨s, rest, rfl, hrest⟩

/-- **The tokens that an expression is written with derive it**, wherever they stand. -/
theorem Writes.derives {kinds : List Token.Kind} (h : Writes kinds e) (hreadable : e.Readable)
    {tokens : List Token} (htokens : tokens.map Token.kind = kinds) : Derives tokens e := by
  induction h generalizing tokens with
  | bare hword =>
      obtain ⟨s, rest, rfl, hrest⟩ := exists_span_of_map_kind htokens
      obtain rfl := List.map_eq_nil_iff.mp hrest
      exact .word (hreadable.ofText?_eq hword).1
  | @enclosed word atom hword =>
      obtain ⟨s, behind, rfl, hbehind⟩ := exists_span_of_map_kind htokens
      obtain ⟨t, last, rfl, hlast⟩ := exists_span_of_map_kind hbehind
      obtain ⟨u, rest, rfl, hrest⟩ := exists_span_of_map_kind hlast
      obtain rfl := List.map_eq_nil_iff.mp hrest
      have hlist : Derives (⟨.opening, s⟩ :: ⟨.word word, t⟩ ::
          (List.flatMap Prod.fst [] ++ [⟨.closing, u⟩])) ⟨some atom, List.map Prod.snd []⟩ :=
        .list (hreadable.ofText?_eq hword).1 nofun
      exact hlist
  | nothing =>
      obtain ⟨s, last, rfl, hlast⟩ := exists_span_of_map_kind htokens
      obtain ⟨t, rest, rfl, hrest⟩ := exists_span_of_map_kind hlast
      obtain rfl := List.map_eq_nil_iff.mp hrest
      exact .nothing
  | @list word atom parts hword _ _ ih =>
      obtain ⟨s, behind, rfl, hbehind⟩ := exists_span_of_map_kind htokens
      obtain ⟨t, more, rfl, hmore⟩ := exists_span_of_map_kind hbehind
      obtain ⟨inner, last, rfl, hinner, hlast⟩ := List.map_eq_append_iff.mp hmore
      obtain ⟨u, rest, rfl, hrest⟩ := exists_span_of_map_kind hlast
      obtain rfl := List.map_eq_nil_iff.mp hrest
      have hparts : ∀ part ∈ parts, ∀ tokens : List Token, tokens.map Token.kind = part.1 →
          Derives tokens part.2 := fun part hpart _ heq =>
        ih part hpart (hreadable.of_mem_children (List.mem_map_of_mem hpart)) heq
      obtain ⟨derived, rfl, hchildren, hderived⟩ := exists_parts hparts hinner
      rw [← hchildren]
      exact .list (hreadable.ofText?_eq hword).1 hderived

/-- The words that an expression is written with are words. -/
theorem Writes.isWord {kinds : List Token.Kind} (h : Writes kinds e) (hreadable : e.Readable)
    {word : String} (hword : .word word ∈ kinds) : Token.IsWord word := by
  induction h with
  | bare hspells =>
      obtain ⟨rfl⟩ := List.mem_singleton.mp hword
      exact (hreadable.ofText?_eq hspells).2
  | enclosed hspells =>
      simp only [List.mem_cons, reduceCtorEq, Token.Kind.word.injEq, List.not_mem_nil, or_false,
        false_or] at hword
      subst hword
      exact (hreadable.ofText?_eq hspells).2
  | nothing => simp at hword
  | list hspells _ _ ih =>
      simp only [List.mem_cons, reduceCtorEq, Token.Kind.word.injEq, List.mem_append,
        List.mem_flatMap, List.not_mem_nil, or_false, false_or] at hword
      rcases hword with rfl | ⟨part, hpart, hword⟩
      · exact (hreadable.ofText?_eq hspells).2
      · exact ih part hpart (hreadable.of_mem_children (List.mem_map_of_mem hpart)) hword

end

end Expr

/-! ### Layouts -/

namespace Token

variable {filler back rest : List Char} {behind : Bool} {kinds : List Kind}

/-- Only a word begins with a character of a word. -/
theorem Kind.endsWord {kind : Kind} (h : ¬ kind.isWord = true) :
    EndsWord (kind.display.toList ++ rest) := by
  cases kind with
  | opening =>
      rintro c ⟨⟩
      rfl
  | closing =>
      rintro c ⟨⟩
      rfl
  | word => exact absurd rfl h

/-- A filler is a gap, whatever comes after it. -/
theorem Filler.gap (h : Filler filler) (back : List Char) : Gap back filler := by
  induction h with
  | nil => exact .nil
  | blank hblank _ ih => exact .blank hblank ih
  | @comment body rest c hbody hbreak _ ih =>
      refine .comment hbody ?_ (.blank (isBlank_of_isLineBreak hbreak) ih)
      rintro d ⟨⟩
      exact hbreak

/-- What begins with a filler, or with no word, ends a word in front of it. -/
theorem Filler.endsWord (h : Filler filler) (hback : filler = [] → EndsWord back) :
    EndsWord (filler ++ back) := by
  rcases eq_or_ne filler [] with rfl | hne
  · exact hback rfl
  · exact (h.gap back).endsWord hne

/-- **Some tokens with fillers are laid out as these tokens.** -/
theorem Spaced.exists_laidOut {text : List Char} (h : Spaced behind kinds text)
    (hwords : ∀ word, .word word ∈ kinds → IsWord word) (offset : Nat) :
    (∃ tokens, LaidOut offset text tokens ∧ tokens.map kind = kinds) ∧
      (behind = true → EndsWord text) := by
  induction h generalizing offset with
  | @last behind filler hfiller =>
      refine ⟨⟨[], .last (hfiller.gap []), rfl⟩, fun _ => ?_⟩
      rw [← List.append_nil filler]
      exact hfiller.endsWord fun _ => by simp [EndsWord]
  | @token behind filler rest kind kinds hfiller hparted _ ih =>
      obtain ⟨hword, hwords⟩ : (∀ word, kind = .word word → IsWord word) ∧
          ∀ word, .word word ∈ kinds → IsWord word :=
        ⟨fun word heq => hwords word (heq ▸ List.mem_cons_self ..),
          fun word hmem => hwords word (List.mem_cons_of_mem kind hmem)⟩
      obtain ⟨⟨tokens, hlaid, hkinds⟩, hends⟩ :=
        ih hwords (offset + byteLength filler + byteLength kind.display.toList)
      have hcons := LaidOut.cons kind hlaid fun word heq =>
        ⟨hword word heq, hends (by rw [heq, Kind.isWord])⟩
      refine ⟨⟨_, hcons.gap_append (hfiller.gap _), by rw [List.map_cons, hkinds]⟩,
        fun hbehind => hfiller.endsWord fun hnil => Kind.endsWord fun hkind => ?_⟩
      exact hparted hbehind hkind hnil

end Token

namespace Expr

variable {e : Expr} {text : String}

/-- **What was written is read again**, whatever way it was written in. -/
theorem Written.ofText_eq (h : Written text e) (hreadable : e.Readable) : ofText text = .ok e := by
  obtain ⟨kinds, hwrites, hspaced⟩ := h
  obtain ⟨⟨tokens, hlaid, hkinds⟩, -⟩ :=
    hspaced.exists_laidOut (fun _ hword => hwrites.isWord hreadable hword) 0
  have htokens : Token.ofText text = tokens := hlaid.scan_eq
  rw [ofText, htokens]
  exact ofTokens_eq_ok_iff.mpr (hwrites.derives hreadable hkinds)

/-- A head of an expression that can be written down has a spelling. -/
theorem Readable.exists_spells {atom : Atom} {children : List Expr}
    (h : Readable ⟨some atom, children⟩) : ∃ word, atom.Spells word := by
  cases atom with
  | number x =>
      obtain ⟨word, hword⟩ := Atom.exists_word_of_number (h.number x children (.refl _))
      exact ⟨word, Atom.ofText?_eq_number_iff.mp hword⟩
  | boolean b =>
      cases b with
      | true => exact ⟨"True", rfl⟩
      | false => exact ⟨"False", rfl⟩
  | symbol name => exact ⟨name, rfl⟩

/-- An expression that can be written down has tokens to be written with. -/
theorem Readable.exists_writes (h : e.Readable) : ∃ kinds, Writes kinds e := by
  induction e using Expr.induction with
  | node head children ih =>
      have hchildren : ∀ c ∈ children, ∃ kinds, Writes kinds c := fun c hc =>
        ih c hc (h.of_mem_children hc)
      cases head with
      | none =>
          obtain rfl := h.headless children (.refl _)
          exact ⟨_, .nothing⟩
      | some atom =>
          obtain ⟨word, hword⟩ := h.exists_spells
          rcases eq_or_ne children [] with rfl | hne
          · exact ⟨_, .bare hword⟩
          · choose! kinds hkinds using hchildren
            have hparts : Writes _ ⟨some atom, (children.map fun c => (kinds c, c)).map Prod.snd⟩ :=
              .list hword (by simpa using hne) (by simpa using hkinds)
            rw [List.map_map, Function.comp_def, List.map_id'] at hparts
            exact ⟨_, hparts⟩

/-- Any tokens can be spaced, with a blank before each. -/
theorem exists_spaced (behind : Bool) (kinds : List Token.Kind) :
    ∃ text, Token.Spaced behind kinds text := by
  induction kinds generalizing behind with
  | nil => exact ⟨[], .last .nil⟩
  | cons kind kinds ih =>
      obtain ⟨rest, hrest⟩ := ih kind.isWord
      exact ⟨_, .token (.blank (c := ' ') rfl .nil) (fun _ _ => List.cons_ne_nil _ _) hrest⟩

/-- **An expression is what some program is read as if it can be written down.** Then it can be
written, and whatever way it is written in, the text is read as the expression. -/
theorem readable_iff_ofText (e : Expr) :
    ((∃ text, ofText text = .ok e) ↔ e.Readable) ∧
    (e.Readable → (∃ text, Written text e) ∧ ∀ text, Written text e → ofText text = .ok e) := by
  have hwritten (h : e.Readable) : ∃ text, Written text e := by
    obtain ⟨kinds, hkinds⟩ := h.exists_writes
    obtain ⟨text, htext⟩ := exists_spaced false kinds
    exact ⟨String.ofList text, kinds, hkinds, by rwa [String.toList_ofList]⟩
  refine ⟨⟨fun ⟨_, htext⟩ => readable_of_ofText htext, fun h => ?_⟩,
    fun h => ⟨hwritten h, fun _ htext => htext.ofText_eq h⟩⟩
  obtain ⟨text, htext⟩ := hwritten h
  exact ⟨text, htext.ofText_eq h⟩

end Expr

end FlatLisp
