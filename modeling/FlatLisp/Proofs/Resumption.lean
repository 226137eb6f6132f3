import FlatLisp.Proofs.Descent
import FlatLisp.Proofs.Script

/-!
# Reading On

Expressions can be read off a row of tokens one after the other, each from where the last reading
stopped, and reading goes on after failures. All that is kept between two readings is a position: a
list that was open when a reading failed is given up, and the next reading knows nothing of it.

So what matters is what one reading takes off the row. It takes a front of it, at least one token if
there is one. When it fails at a token, that token is the last that it has taken, and when it fails
for want of a token, it has taken them all. From this the course of the positions follows. And
programs on lines of their own are read one by one, since each reading stops right behind its
program.

## Main definitions

* `Expr.position`: how many tokens have been taken after some readings.
* `Text.joinLines`: programs on lines of their own.

## Main results

* `Expr.exists_readFrom_append`, `Expr.readFrom_error_token`: what one reading takes.
* `Expr.readTimes_add`: readings after readings.
* `Expr.readTimes_joinLines`: programs are read one by one.
* `Expr.readTimes_resumes`: all of it together.
-/

namespace FlatLisp

open Text

/-- Programs on lines of their own, each with the ending of its line. The last line has none. -/
def Text.joinLines : List (String × LineEnding) → String
  | [] => ""
  | [(text, _)] => text
  | (text, ending) :: rest => text ++ ending.text ++ joinLines rest

namespace Expr

/-- How many tokens of a row have been taken after so many readings. -/
def position (tokens : List Token) (count : Nat) : Nat :=
  tokens.length - (readTimes count tokens).2.length

/-- Reading goes on in a row of tokens from where it stopped, and from nothing else. -/
structure Resumes (tokens : List Token) : Prop where
  /-- Reading begins at the first token. -/
  starts : position tokens 0 = 0
  /-- Each of any number of readings has the outcome of a first reading of the tokens from its
  position on, whatever came of those before it. -/
  outcomes : ∀ count, (readTimes count tokens).1 =
    (List.range count).map fun i => (read (tokens.drop (position tokens i))).1
  /-- The position never goes back. -/
  forward : ∀ count, position tokens count ≤ position tokens (count + 1)
  /-- It never goes beyond the last token. -/
  within : ∀ count, position tokens count ≤ tokens.length
  /-- As long as there is a token, it goes on. -/
  onward : ∀ count, position tokens count < tokens.length →
    position tokens count < position tokens (count + 1)
  /-- A failure that names a token comes at the last token that was taken, in the same reading. -/
  last : ∀ count error t, (read (tokens.drop (position tokens count))).1 = .error error →
    error.token? = some t → position tokens count < position tokens (count + 1) ∧
      tokens[position tokens (count + 1) - 1]? = some t
  /-- After any other failure no token is left. -/
  ends : ∀ count error, (read (tokens.drop (position tokens count))).1 = .error error →
    error.token? = none → position tokens (count + 1) = tokens.length
  /-- Each reading does what reading by descent does, from its position on and up to the next, also
  where a failure gives up lists that are open. -/
  descends : ∀ count, Descends .expression (tokens.drop (position tokens count))
    (read (tokens.drop (position tokens count))).1 (tokens.drop (position tokens (count + 1)))
  /-- The tokens that are left are read as a whole as those from the position on are. -/
  whole : ∀ count, ofTokens (readTimes count tokens).2 =
    ofTokens (tokens.drop (position tokens count))

/-! ### One reading -/

section

variable {stack : List Frame} {tokens rest : List Token} {token : Token} {error : ReadError}

/-- **A reading takes a front of the row**, and at least one token if there is one. -/
theorem exists_readFrom_append (stack : List Frame) (tokens : List Token) :
    ∃ used, tokens = used ++ (readFrom stack tokens).2 ∧ (tokens ≠ [] → used ≠ []) := by
  induction tokens generalizing stack with
  | nil => exact ⟨[], rfl, fun h => h⟩
  | cons token tokens ih =>
      rw [readFrom]
      rcases advance token stack with error | e | inner
      · exact ⟨[token], rfl, fun _ => List.cons_ne_nil token []⟩
      · exact ⟨[token], rfl, fun _ => List.cons_ne_nil token []⟩
      · obtain ⟨used, hused, -⟩ := ih inner
        exact ⟨token :: used, congrArg (token :: ·) hused, fun _ => List.cons_ne_nil token used⟩

/-- **A failure comes at the last token that was taken**, if it names a token. Otherwise all tokens
were taken. -/
theorem readFrom_error_token (h : readFrom stack tokens = (.error error, rest)) :
    (∀ t, error.token? = some t → ∃ before, tokens = before ++ t :: rest) ∧
      (error.token? = none → rest = []) := by
  induction tokens generalizing stack with
  | nil =>
      cases h
      exact ⟨nofun, fun _ => rfl⟩
  | cons token tokens ih =>
      rw [readFrom] at h
      rcases hstep : advance token stack with cause | e | inner
      · rw [hstep] at h
        cases h
        have htoken := token?_of_advance hstep
        refine ⟨fun t ht => ⟨[], ?_⟩, fun hnone => ?_⟩
        · rw [htoken] at ht
          cases ht
          rfl
        · rw [htoken] at hnone
          cases hnone
      · rw [hstep] at h
        cases h
      · rw [hstep] at h
        obtain ⟨hnames, hend⟩ := ih h
        refine ⟨fun t ht => ?_, hend⟩
        obtain ⟨before, rfl⟩ := hnames t ht
        exact ⟨token :: before, rfl⟩

end

/-! ### One reading after the other -/

variable (tokens : List Token)

theorem readTimes_one : readTimes 1 tokens = ([(read tokens).1], (read tokens).2) := rfl

/-- **Readings after readings** begin at the tokens that are left. -/
theorem readTimes_add (m n : Nat) :
    readTimes (m + n) tokens =
      ((readTimes m tokens).1 ++ (readTimes n (readTimes m tokens).2).1,
        (readTimes n (readTimes m tokens).2).2) := by
  induction m generalizing tokens with
  | zero => rw [Nat.zero_add]; rfl
  | succ m ih =>
      rw [Nat.succ_add, readTimes, readTimes]
      dsimp only
      rw [ih]
      rfl

/-- What is left is a back of the row. -/
theorem readTimes_suffix (count : Nat) : (readTimes count tokens).2 <:+ tokens := by
  induction count generalizing tokens with
  | zero => exact List.suffix_refl tokens
  | succ count ih =>
      obtain ⟨used, hused, -⟩ := exists_readFrom_append [] tokens
      have hrest : (read tokens).2 <:+ tokens := ⟨used, hused.symm⟩
      exact (ih _).trans hrest

/-- What is left is what comes after the position. -/
theorem readTimes_snd (count : Nat) :
    (readTimes count tokens).2 = tokens.drop (position tokens count) :=
  List.suffix_iff_eq_drop.mp (readTimes_suffix tokens count)

/-- One more reading begins at the position that has been reached. -/
theorem readTimes_succ (count : Nat) :
    readTimes (count + 1) tokens =
      ((readTimes count tokens).1 ++ [(read (tokens.drop (position tokens count))).1],
        (read (tokens.drop (position tokens count))).2) := by
  rw [readTimes_add, readTimes_snd, readTimes_one]

/-- The outcomes are those of readings that begin at the positions. -/
theorem readTimes_fst (count : Nat) :
    (readTimes count tokens).1 =
      (List.range count).map fun i => (read (tokens.drop (position tokens i))).1 := by
  induction count with
  | zero => rfl
  | succ count ih => rw [readTimes_succ, ih, List.range_succ, List.map_append, List.map_singleton]

theorem position_le (count : Nat) : position tokens count ≤ tokens.length :=
  Nat.sub_le ..

/-- **From one position to the next** there are the tokens that one reading takes. -/
theorem exists_drop_position (count : Nat) :
    ∃ used, tokens.drop (position tokens count) =
        used ++ (read (tokens.drop (position tokens count))).2 ∧
      position tokens (count + 1) = position tokens count + used.length ∧
      (position tokens count < tokens.length → used ≠ []) := by
  obtain ⟨used, hused, hsome⟩ := exists_readFrom_append [] (tokens.drop (position tokens count))
  refine ⟨used, hused, ?_, fun hlt => hsome ?_⟩
  · have hle := position_le tokens count
    have hlength := congrArg List.length hused
    have hnext : position tokens (count + 1) =
        tokens.length - (readFrom [] (tokens.drop (position tokens count))).2.length := by
      rw [position, readTimes_succ]
      rfl
    rw [List.length_drop, List.length_append] at hlength
    omega
  · rw [ne_eq, List.drop_eq_nil_iff]
    omega

/-! ### Programs on lines -/

theorem readTimes_nil (count : Nat) :
    readTimes count [] = (List.replicate count (.error (.unexpectedEnd .expression)), []) := by
  induction count with
  | zero => rfl
  | succ count ih =>
      have hread : read [] = (.error (.unexpectedEnd .expression), []) := rfl
      rw [readTimes, hread]
      dsimp only
      rw [ih]
      rfl

/-- Readings of tokens in other places. -/
theorem readTimes_mapSpan (f : Span → Span) (count : Nat) :
    readTimes count (tokens.map (.mapSpan f)) =
      ((readTimes count tokens).1.map (·.mapError (.mapSpan f)),
        (readTimes count tokens).2.map (.mapSpan f)) := by
  induction count generalizing tokens with
  | zero => rfl
  | succ count ih =>
      have hread : read (tokens.map (.mapSpan f)) =
          ((read tokens).1.mapError (.mapSpan f), (read tokens).2.map (.mapSpan f)) :=
        readFrom_mapSpan f [] tokens
      rw [readTimes, hread]
      dsimp only
      rw [ih]
      rfl

/-- A reading stops right behind an expression, whatever comes after it. -/
theorem readTimes_append_of_ok {e : Expr} (h : ofTokens tokens = .ok e) (more : List Token)
    (count : Nat) :
    readTimes (count + 1) (tokens ++ more) =
      (.ok e :: (readTimes count more).1, (readTimes count more).2) := by
  have hread : read (tokens ++ more) = (.ok e, more) :=
    read_eq_ok_iff.mpr ⟨tokens, rfl, ofTokens_eq_ok_iff.mp h⟩
  rw [readTimes, hread]

/-- **Programs on lines of their own are read one by one**, and then there is nothing more. -/
theorem readTimes_joinLines {programs : List (String × LineEnding)} {trees : List Expr}
    (h : Reads (programs.map Prod.fst) trees) (extra : Nat) :
    readTimes (trees.length + extra) (Token.ofText (joinLines programs)) =
      (trees.map .ok ++ List.replicate extra (.error (.unexpectedEnd .expression)), []) := by
  induction programs generalizing trees with
  | nil =>
      cases h
      rw [List.length_nil, Nat.zero_add]
      exact readTimes_nil extra
  | cons program rest ih =>
      obtain ⟨text, ending⟩ := program
      cases h with
      | @cons _ tree _ trees htree hrest =>
          have hrow : ∃ k, Token.ofText (joinLines ((text, ending) :: rest)) =
              Token.ofText text ++ (Token.ofText (joinLines rest)).map (.move k) := by
            cases rest with
            | nil => exact ⟨0, (List.append_nil _).symm⟩
            | cons next rest => exact ⟨_, Token.ofText_append_lineEnding text _ ending⟩
          obtain ⟨k, hrow⟩ := hrow
          have hmore : readTimes (trees.length + extra)
              ((Token.ofText (joinLines rest)).map (.move k)) =
                (trees.map .ok ++ List.replicate extra (.error (.unexpectedEnd .expression)),
                  []) := by
            have hmove : Token.move k = Token.mapSpan (.move k) := rfl
            rw [hmove, readTimes_mapSpan, ih hrest]
            simp [Function.comp_def, Except.mapError, ReadError.mapSpan]
          rw [List.length_cons, Nat.succ_add, hrow, readTimes_append_of_ok _ htree, hmore]
          rfl

theorem resumes (tokens : List Token) : Resumes tokens where
  starts := by rw [position, readTimes, Nat.sub_self]
  outcomes := readTimes_fst tokens
  forward count := by
    obtain ⟨used, -, hnext, -⟩ := exists_drop_position tokens count
    omega
  within := position_le tokens
  onward count hlt := by
    obtain ⟨used, -, hnext, hsome⟩ := exists_drop_position tokens count
    have hpos := List.length_pos_iff.mpr (hsome hlt)
    omega
  last count error t herror ht := by
    obtain ⟨used, hused, hnext, -⟩ := exists_drop_position tokens count
    have hread : readFrom [] (tokens.drop (position tokens count)) =
        (.error error, (read (tokens.drop (position tokens count))).2) := Prod.ext herror rfl
    obtain ⟨before, hbefore⟩ := (readFrom_error_token hread).1 t ht
    rw [List.append_cons] at hbefore
    obtain rfl : used = before ++ [t] := List.append_cancel_right (hused.symm.trans hbefore)
    rw [List.length_append, List.length_singleton] at hnext
    have hplace : position tokens (count + 1) - 1 = position tokens count + before.length := by
      omega
    refine ⟨by omega, ?_⟩
    rw [hplace, ← List.getElem?_drop, hused]
    simp
  ends count error herror hnone := by
    have hread : readFrom [] (tokens.drop (position tokens count)) =
        (.error error, (read (tokens.drop (position tokens count))).2) := Prod.ext herror rfl
    have hrest := (readFrom_error_token hread).2 hnone
    rw [position, readTimes_succ, hrest, List.length_nil, Nat.sub_zero]
  descends count := by
    rw [descends_iff, ← readTimes_snd tokens (count + 1), readTimes_succ]
  whole count := by rw [readTimes_snd]

/-- **Reading goes on from where it stopped, and from nothing else**, in every row of tokens. And
programs on lines of their own are read one by one; after them there is an end of the tokens, as
often as it is asked for more. -/
theorem readTimes_resumes :
    (∀ tokens, Resumes tokens) ∧
    ∀ programs trees, Reads (programs.map Prod.fst) trees → ∀ extra,
      readTimes (trees.length + extra) (Token.ofText (joinLines programs)) =
        (trees.map .ok ++ List.replicate extra (.error (.unexpectedEnd .expression)), []) :=
  ⟨resumes, fun _ _ => readTimes_joinLines⟩

/-- A program with a comment behind it, and one that is read in spite of what is in the comment. -/
theorem readTimes_resumes_comment :
    let programs := [("x ; (", LineEnding.carriageReturn), ("(not x)", LineEnding.lineFeed)]
    let trees : List Expr := [.leaf (.symbol "x"), ⟨some (.symbol "not"), [.leaf (.symbol "x")]⟩]
    Reads (programs.map Prod.fst) trees ∧
      (readTimes 3 (Token.ofText (joinLines programs))).1 =
        trees.map .ok ++ [.error (.unexpectedEnd .expression)] := by
  intro programs trees
  have hreads : Reads (programs.map Prod.fst) trees := .cons rfl (.cons rfl .nil)
  exact ⟨hreads, congrArg Prod.fst (readTimes_resumes.2 programs trees hreads 1)⟩

end Expr

end FlatLisp
