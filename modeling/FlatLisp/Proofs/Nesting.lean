import FlatLisp.Proofs.ReadFailures

/-!
# Nesting

The parentheses of a row of tokens, apart from what stands between them. A closing parenthesis
has a partner if an opening one stands before it with a balanced row in between. Counting does
the same: one that counts the open parentheses from the left meets one that closes nothing if and
only if some closing parenthesis has no partner (`unmatched_iff_depth?_eq_none`).

The tokens of an expression are balanced. The reader counts too, since the lists that it has open
are the parentheses that are: where the tokens end before the expression does, at least one is.

## Main definitions

* `Token.depth?`: the number of open parentheses.
* `Token.Balanced`: the rows in which parentheses come in pairs.
* `Token.Unmatched`: a closing parenthesis has no partner.

## Main results

* `Token.unmatched_iff_depth?_eq_none`: counting finds the parentheses without a partner.
* `Expr.Derives.balanced`: the tokens of an expression are balanced.
* `Expr.depth?_of_unexpectedEnd`: where the tokens end too early, a parenthesis is open.
-/

namespace FlatLisp

namespace Token

/-- The number of open parentheses after a token, of which `depth` were open before it; none if
it closes a parenthesis and there is none to close. -/
def Kind.depth? : Kind → Nat → Option Nat
  | opening, depth => some (depth + 1)
  | closing, 0 => none
  | closing, depth + 1 => some depth
  | word _, depth => some depth

/-- The number of open parentheses after a row of tokens. -/
def depth? (depth : Nat) (tokens : List Token) : Option Nat :=
  tokens.foldlM (fun depth token => token.kind.depth? depth) depth

/-- The rows in which parentheses come in pairs, one inside the other or one after the other. -/
inductive Balanced : List Token → Prop
  | nil : Balanced []
  | word {text : String} {s : Span} {rest : List Token} :
      Balanced rest → Balanced (⟨.word text, s⟩ :: rest)
  | pair {s t : Span} {inside rest : List Token} : Balanced inside → Balanced rest →
      Balanced (⟨.opening, s⟩ :: (inside ++ ⟨.closing, t⟩ :: rest))

/-- Some closing parenthesis has no partner: wherever an opening one stands before it, what is in
between is not balanced. -/
def Unmatched (tokens : List Token) : Prop :=
  ∃ front s back, tokens = front ++ ⟨.closing, s⟩ :: back ∧
    ∀ before t inside, front = before ++ ⟨.opening, t⟩ :: inside → ¬Balanced inside

/-- How many tokens are of a kind. -/
def count (kind : Kind) (tokens : List Token) : Nat :=
  tokens.countP fun token => token.kind = kind

variable {tokens front back row other : List Token} {token : Token} {depth n : Nat}

/-! ### Counting -/

@[simp] theorem depth?_nil : depth? depth [] = some depth := rfl

@[simp] theorem depth?_cons :
    depth? depth (token :: tokens) = (token.kind.depth? depth).bind (depth? · tokens) := rfl

theorem depth?_append : depth? depth (front ++ back) = (depth? depth front).bind (depth? · back) :=
  List.foldlM_append ..

/-- A balanced row leaves as many open as there were. -/
theorem Balanced.depth?_eq (h : Balanced row) (depth : Nat) : depth? depth row = some depth := by
  induction h generalizing depth with
  | nil => rfl
  | word _ ih => exact ih depth
  | pair _ _ ihinside ihrest =>
      rw [depth?_cons, Kind.depth?, Option.bind_some, depth?_append, ihinside]
      exact ihrest depth

/-- Of a row without a parenthesis that closes nothing, the opening ones and those that were open
before are the closing ones and those that are open after. -/
theorem add_count_of_depth?_eq (h : depth? depth tokens = some n) :
    depth + count .opening tokens = n + count .closing tokens := by
  induction tokens generalizing depth with
  | nil =>
      cases h
      rfl
  | cons token tokens ih =>
      obtain ⟨kind, span⟩ := token
      unfold count at ih ⊢
      rw [List.countP_cons, List.countP_cons]
      rcases kind with _ | _ | text
      · have hrest := ih (h : depth? (depth + 1) tokens = some n)
        simp
        omega
      · rcases depth with _ | depth
        · cases h
        have hrest := ih (h : depth? depth tokens = some n)
        simp
        omega
      · have hrest := ih (h : depth? depth tokens = some n)
        simpa using hrest

/-- The first parenthesis that closes nothing comes where none is open. -/
theorem exists_of_depth?_eq_none (h : depth? depth tokens = none) :
    ∃ front s back, tokens = front ++ ⟨.closing, s⟩ :: back ∧ depth? depth front = some 0 := by
  induction tokens generalizing depth with
  | nil => cases h
  | cons token tokens ih =>
      rw [depth?_cons] at h
      rcases hnext : token.kind.depth? depth with _ | next
      · obtain ⟨kind, span⟩ := token
        rcases kind with _ | _ | text
        · cases hnext
        · rcases depth with _ | depth
          · exact ⟨[], span, tokens, rfl, rfl⟩
          · cases hnext
        · cases hnext
      · rw [hnext] at h
        obtain ⟨front, s, back, rfl, hfront⟩ := ih h
        refine ⟨token :: front, s, back, rfl, ?_⟩
        rw [depth?_cons, hnext]
        exact hfront

/-! ### Partners -/

theorem Balanced.append (h : Balanced row) (hother : Balanced other) : Balanced (row ++ other) := by
  induction h with
  | nil => exact hother
  | word _ ih => exact .word ih
  | pair hinside _ _ ih =>
      rw [List.cons_append, List.append_assoc, List.cons_append]
      exact .pair hinside ih

/-- A parenthesis that is open was opened, and what has come after it is balanced. The induction
is on the length of the row, since what closes is looked up before its own partner. -/
theorem exists_opening_of_depth?_eq (h : depth? 0 front = some (n + 1)) :
    ∃ before t inside, front = before ++ ⟨.opening, t⟩ :: inside ∧ Balanced inside ∧
      depth? 0 before = some n := by
  generalize hlength : front.length = length
  induction length using Nat.strongRecOn generalizing front n with
  | ind length ih =>
      rcases List.eq_nil_or_concat front with rfl | ⟨init, ⟨kind, span⟩, rfl⟩
      · cases h
      rw [List.concat_eq_append] at h hlength ⊢
      rw [List.length_append, List.length_singleton] at hlength
      rw [depth?_append] at h
      obtain ⟨m, hinit, hlast⟩ := Option.bind_eq_some_iff.mp h
      rcases kind with _ | _ | text
      · obtain rfl : m = n := by
          cases hlast
          rfl
        exact ⟨init, span, [], rfl, .nil, hinit⟩
      · rcases m with _ | m
        · cases hlast
        obtain rfl : m = n + 1 := by
          cases hlast
          rfl
        obtain ⟨before, t, inside, rfl, hinside, hbefore⟩ := ih _ (by omega) hinit rfl
        have hshorter : before.length < length := by
          rw [List.length_append] at hlength
          omega
        obtain ⟨outer, u, earlier, rfl, hearlier, houter⟩ := ih _ hshorter hbefore rfl
        refine ⟨outer, u, earlier ++ ⟨.opening, t⟩ :: (inside ++ [⟨.closing, span⟩]), by simp,
          hearlier.append (.pair hinside .nil), houter⟩
      · obtain rfl : m = n + 1 := by
          cases hlast
          rfl
        obtain ⟨before, t, inside, rfl, hinside, hbefore⟩ := ih _ (by omega) hinit rfl
        exact ⟨before, t, inside ++ [⟨.word text, span⟩], by simp, hinside.append (.word .nil),
          hbefore⟩

/-- **Counting finds the parentheses without a partner.** -/
theorem unmatched_iff_depth?_eq_none : Unmatched tokens ↔ depth? 0 tokens = none := by
  constructor
  · rintro ⟨front, s, back, rfl, hpartner⟩
    rw [depth?_append]
    rcases hfront : depth? 0 front with _ | _ | n
    · rfl
    · rfl
    · obtain ⟨before, t, inside, rfl, hinside, -⟩ := exists_opening_of_depth?_eq hfront
      exact absurd hinside (hpartner before t inside rfl)
  · intro h
    obtain ⟨front, s, back, rfl, hfront⟩ := exists_of_depth?_eq_none h
    refine ⟨front, s, back, rfl, ?_⟩
    rintro before t inside rfl hinside
    rw [depth?_append] at hfront
    obtain ⟨m, -, hm⟩ := Option.bind_eq_some_iff.mp hfront
    -- The parenthesis at `t` is still open after `inside`.
    rw [depth?_cons, Kind.depth?, Option.bind_some, hinside.depth?_eq] at hm
    cases hm

/-- Parentheses are left open if all closing ones have a partner and there are more opening
ones. -/
theorem exists_depth?_eq_succ_iff : (∃ n, depth? 0 tokens = some (n + 1)) ↔
    ¬Unmatched tokens ∧ count .closing tokens < count .opening tokens := by
  rw [unmatched_iff_depth?_eq_none]
  rcases hdepth : depth? 0 tokens with _ | n
  · simp
  · have hcount := add_count_of_depth?_eq hdepth
    rcases n with _ | n
    · simp
      omega
    · simp
      omega

/-- None is left open if all closing ones have a partner and there are no more opening ones. -/
theorem depth?_eq_zero_iff : depth? 0 tokens = some 0 ↔
    ¬Unmatched tokens ∧ ¬count .closing tokens < count .opening tokens := by
  rw [unmatched_iff_depth?_eq_none]
  rcases hdepth : depth? 0 tokens with _ | n
  · simp
  · have hcount := add_count_of_depth?_eq hdepth
    simp
    omega

end Token

/-! ### Expressions -/

namespace Expr

open Token

variable {tokens : List Token} {stack : List Frame} {e : Expr}

theorem balanced_flatMap {parts : List (List Token × Expr)}
    (h : ∀ part ∈ parts, Balanced part.1) : Balanced (parts.flatMap Prod.fst) := by
  induction parts with
  | nil => exact .nil
  | cons part parts ih =>
      rw [List.flatMap_cons]
      have hparts := ih fun other hother => h other (List.mem_cons_of_mem part hother)
      exact (h part (List.mem_cons_self ..)).append hparts

/-- **The tokens of an expression are balanced.** -/
theorem Derives.balanced (h : Derives tokens e) : Balanced tokens := by
  induction h with
  | word _ => exact .word .nil
  | nothing => exact .pair .nil .nil
  | list _ _ ih => exact .pair (.word (balanced_flatMap ih)) .nil

/-- The lists that are open are the parentheses that are. -/
theorem Pending.depth?_eq (h : Pending tokens stack) : depth? 0 tokens = some stack.length := by
  induction h with
  | nothing => rfl
  | opened _ _ ih =>
      rw [depth?_append, ih]
      rfl
  | headed _ _ _ hparts ih =>
      have hchildren := balanced_flatMap fun part hpart => (hparts part hpart).balanced
      rw [depth?_append, ih]
      exact hchildren.depth?_eq _

/-- **Where the tokens end before the expression does, a parenthesis is open**, unless there are
no tokens at all. -/
theorem depth?_of_unexpectedEnd {expected : Expected}
    (h : ofTokens tokens = .error (.unexpectedEnd expected)) (hne : tokens ≠ []) :
    ∃ n, depth? 0 tokens = some (n + 1) := by
  rcases ofTokens_error h with ⟨_, _, _, -, hsite, -⟩ | ⟨-, stack, hstack⟩
  · cases hsite
  · rcases stack with _ | ⟨frame, outer⟩
    · cases hstack
      exact absurd rfl hne
    · exact ⟨outer.length, hstack.depth?_eq⟩

end Expr

end FlatLisp
