import FlatLisp.Proofs.Reading
import FlatLisp.Proofs.Writing

/-!
# Layout

How a text is laid out is of no account to what it is read as. A line ending parts the text for
good: whatever stands in front of it, a word, a comment or nothing, the tokens after it are those of
the rest by itself. So the line endings of a text can be exchanged for others, and a text can be
written anew with a single space between its tokens. None of this changes what a token is, and what
the tokens are is all that the reader goes by: where they stand shows in its errors only.

## Main definitions

* `Token.kinds`: the tokens of a text, without their places.
* `Text.withCarriageReturns`, `Token.respaced`: a text with other line endings, and with other gaps.
* `ReadError.unplaced`: an error without the place that it names.

## Main results

* `Token.kinds_append_lineEnding`: a line ending can be any.
* `Token.kinds_withCarriageReturns`, `Token.kinds_respaced`: rewriting a text keeps its tokens.
* `Expr.ofTokens_congr`: the reader goes by what the tokens are.
* `Expr.layout_irrelevant`: all of it together.
-/

namespace FlatLisp

open Text

namespace Text

/-- A text in which a carriage return has been put before every line feed. -/
def withCarriageReturns (text : List Char) : List Char :=
  text.flatMap fun c => if c = '\n' then ['\r', '\n'] else [c]

/-- Without a line feed in it a text stays as it is. -/
theorem withCarriageReturns_of_not_mem {text : List Char} (h : '\n' ∉ text) :
    withCarriageReturns text = text := by
  induction text with
  | nil => rfl
  | cons c rest ih =>
      rw [List.mem_cons, not_or] at h
      have hrest : withCarriageReturns rest = rest := ih h.2
      rw [withCarriageReturns, List.flatMap_cons, if_neg (Ne.symm h.1)]
      exact congrArg (c :: ·) hrest

theorem withCarriageReturns_append (front back : List Char) :
    withCarriageReturns (front ++ back) = withCarriageReturns front ++ withCarriageReturns back :=
  List.flatMap_append

end Text

/-- What an error says without the place that it names. -/
def ReadError.unplaced : ReadError → ReadError :=
  ReadError.mapSpan fun _ => .zero

namespace Token

/-- The tokens of a text, without their places. -/
def kinds (text : String) : List Kind :=
  (ofText text).map kind

/-- The tokens of a text, written with a single space between any two. -/
def respaced (text : String) : String :=
  " ".intercalate ((ofText text).map display)

/-! ### Other line endings -/

/-- **A line ending parts the text**: the tokens are those of the two pieces, whatever it is. -/
theorem kinds_append_lineEnding (front back : String) (ending : LineEnding) :
    kinds (front ++ ending.text ++ back) = kinds front ++ kinds back := by
  rw [kinds, ofText_append_lineEnding, List.map_append, List.map_map]
  rfl

/-- **Carriage returns before line feeds change no token.** The induction is on the length of the
text: what is in front of the first line feed stays as it is, and what is after it is shorter. -/
theorem kinds_withCarriageReturns (text : List Char) :
    kinds (String.ofList (withCarriageReturns text)) = kinds (String.ofList text) := by
  induction hlength : text.length using Nat.strongRecOn generalizing text with
  | ind length ih =>
      by_cases h : '\n' ∈ text
      · obtain ⟨front, back, rfl, hfront⟩ := List.eq_append_cons_of_mem h
        have hshorter : back.length < length := by
          rw [← hlength, List.length_append, List.length_cons]
          omega
        have hbefore : String.ofList (front ++ '\n' :: back) =
            String.ofList front ++ LineEnding.lineFeed.text ++ String.ofList back := by
          apply String.toList_injective
          simp [LineEnding.text]
        have hafter : String.ofList (withCarriageReturns (front ++ '\n' :: back)) =
            String.ofList front ++ LineEnding.both.text ++
              String.ofList (withCarriageReturns back) := by
          apply String.toList_injective
          rw [withCarriageReturns_append, withCarriageReturns_of_not_mem hfront]
          simp [LineEnding.text, withCarriageReturns]
        rw [hbefore, hafter, kinds_append_lineEnding, kinds_append_lineEnding,
          ih _ hshorter back rfl]
      · rw [withCarriageReturns_of_not_mem h]

/-! ### Other gaps -/

/-- Tokens joined by spaces are spaced, with any filler in front of the first. -/
theorem spaced_intercalate {behind : Bool} {filler : List Char} (h : Filler filler)
    (hparted : behind = true → filler ≠ []) (kinds : List Kind) :
    Spaced behind kinds (filler ++ [' '].intercalate (kinds.map (·.display.toList))) := by
  induction kinds generalizing behind filler with
  | nil =>
      rw [List.map_nil, List.intercalate_nil, List.append_nil]
      exact .last h
  | cons kind kinds ih =>
      cases kinds with
      | nil =>
          have hlast : Spaced kind.isWord [] [] := .last .nil
          have hone := Spaced.token h (fun hbehind _ => hparted hbehind) hlast
          rw [List.append_nil] at hone
          rwa [List.map_singleton, List.intercalate_singleton]
      | cons next kinds =>
          have hspace : Filler [' '] := .blank rfl .nil
          have hrest := @ih kind.isWord [' '] hspace (by simp)
          rw [List.map_cons, List.map_cons, List.intercalate_cons_cons, List.append_assoc]
          exact .token h (fun hbehind _ => hparted hbehind) hrest

/-- **Single spaces between the tokens change none of them.** -/
theorem kinds_respaced (text : String) : kinds (respaced text) = kinds text := by
  have hjoined : (respaced text).toList =
      [' '].intercalate ((kinds text).map (·.display.toList)) := by
    rw [respaced, String.toList_intercalate, kinds, List.map_map, List.map_map]
    rfl
  have hspaced : Spaced false (kinds text) (respaced text).toList := by
    rw [hjoined]
    exact spaced_intercalate .nil (by simp) (kinds text)
  have hwords : ∀ word, .word word ∈ kinds text → IsWord word := by
    intro word hword
    obtain ⟨t, ht, hkind⟩ := List.mem_map.mp hword
    exact (stands_of_mem_ofText ht).word word hkind
  obtain ⟨⟨tokens, hlaid, hkinds⟩, -⟩ := hspaced.exists_laidOut hwords 0
  have htokens : ofText (respaced text) = tokens := hlaid.scan_eq
  rw [kinds, htokens, hkinds]

end Token

namespace Expr

/-! ### What the reader goes by -/

/-- **The reader goes by what the tokens are.** Rows of the same tokens in other places are read as
the same expression, or with errors that are the same up to places. -/
theorem ofTokens_congr {tokens other : List Token}
    (h : tokens.map Token.kind = other.map Token.kind) :
    (ofTokens tokens).mapError ReadError.unplaced =
      (ofTokens other).mapError ReadError.unplaced := by
  have hforget (row : List Token) : row.map (Token.mapSpan fun _ => .zero) =
      (row.map Token.kind).map fun kind => Token.mk kind .zero := by
    rw [List.map_map]
    rfl
  rw [ReadError.unplaced, ← ofTokens_mapSpan, ← ofTokens_mapSpan, hforget, hforget, h]

/-- **Layout is irrelevant.** The tokens of two texts with a line ending in between are those of
both, the second further back by the bytes in front of it. So neither carriage returns before the
line feeds nor single spaces between the tokens change what the tokens are. And two texts of the
same tokens are the same expression, or fail with errors that differ in their places only. -/
theorem layout_irrelevant :
    (∀ (front back : String) (ending : LineEnding),
      Token.ofText (front ++ ending.text ++ back) = Token.ofText front ++
        (Token.ofText back).map (.move (byteLength (front ++ ending.text).toList))) ∧
    (∀ text : String,
      Token.kinds (String.ofList (withCarriageReturns text.toList)) = Token.kinds text) ∧
    (∀ text, Token.kinds (Token.respaced text) = Token.kinds text) ∧
    ∀ text other, Token.kinds text = Token.kinds other →
      (ofText text).mapError ReadError.unplaced =
        (ofText other).mapError ReadError.unplaced := by
  refine ⟨Token.ofText_append_lineEnding, fun text => ?_, Token.kinds_respaced,
    fun _ _ => ofTokens_congr⟩
  rw [Token.kinds_withCarriageReturns, String.ofList_toList]

/-- A comment and other line endings before a word that opens like a number. -/
theorem layout_irrelevant_invalid :
    Token.kinds "(x ; one\n1a)" = Token.kinds "(x\r\n1a)" ∧
      (ofText "(x ; one\n1a)").mapError ReadError.unplaced =
        (ofText "(x\r\n1a)").mapError ReadError.unplaced := by
  have h : Token.kinds "(x ; one\n1a)" = Token.kinds "(x\r\n1a)" := by decide
  exact ⟨h, layout_irrelevant.2.2.2 _ _ h⟩

end Expr

end FlatLisp
