import FlatLisp.Conversation
import FlatLisp.Proofs.EntryScanners

/-!
# After a Refused Line

A line that closes a parenthesis too many is refused, and nothing of it is read. One would have it
gone, so that the next line begins an entry of its own. But the conversation keeps what it has
refused, and goes on with it: the next line is judged together with it, and since no text can make
up for a parenthesis that closes nothing, that one is refused as well, with the same words, and so
is every line up to the end of the stream. None is evaluated, and none can end the conversation.

So a refused line leaves the later ones alone only if there is nothing to disturb: if no line comes
next, or one that is no text, or one that is refused by itself for a parenthesis in the same place.

## Main definitions

* `Conversation.verdict?`: the verdict on the entry with one more line.
* `Conversation.Undisturbed`: the later lines come to the same as without a line before them.

## Main results

* `Verdict.scan_append_of_unmatched`: a parenthesis that closes nothing does so whatever follows.
* `Conversation.Refuses.turnsAway`, `Conversation.Refuses.hearEach`: what one line, and any lines,
  come to when an entry has been refused.
* `Conversation.undisturbed_iff`: when a refused line leaves the later ones alone.
-/

namespace FlatLisp

/-! ### The verdict on a longer entry -/

namespace Verdict

variable {comment : Bool} {depth position p : Nat} {front back : List Char}

/-- A character either closes nothing, or the scanner goes on with the rest. -/
theorem scan_cons (comment : Bool) (depth position : Nat) (c : Char) :
    (c = ')' ∧ ∀ rest, scan comment depth position (c :: rest) = unmatched position) ∨
      ∃ comment' depth', ∀ rest,
        scan comment depth position (c :: rest) = scan comment' depth' (position + 1) rest := by
  by_cases hskip : comment = true ∨ c ≠ '(' ∧ c ≠ ')'
  · exact Or.inr ⟨_, _, scan_skip hskip depth position⟩
  rw [not_or, Bool.not_eq_true, not_and_or, not_ne_iff, not_ne_iff] at hskip
  obtain ⟨rfl, rfl | rfl⟩ := hskip
  · exact Or.inr ⟨_, _, scan_opening depth position⟩
  · rcases depth with _ | depth
    · exact Or.inl ⟨rfl, scan_closing_zero position⟩
    · exact Or.inr ⟨_, _, scan_closing_succ depth position⟩

theorem scan_nil_ne_unmatched : scan comment depth position [] ≠ unmatched p := by
  rw [scan]
  split
  · simp
  · simp

/-- **A parenthesis that closes nothing does so whatever follows.** -/
theorem scan_append_of_unmatched (h : scan comment depth position front = unmatched p)
    (back : List Char) : scan comment depth position (front ++ back) = unmatched p := by
  induction front generalizing comment depth position with
  | nil => exact absurd h scan_nil_ne_unmatched
  | cons c front ih =>
      rw [List.cons_append]
      rcases scan_cons comment depth position c with ⟨-, hrefused⟩ | ⟨comment', depth', hon⟩
      · rw [hrefused] at h ⊢
        exact h
      · rw [hon] at h ⊢
        exact ih h

/-- Where nothing is closed, nothing is closed too much. -/
theorem scan_ne_unmatched (h : ')' ∉ back) : scan comment depth position back ≠ unmatched p := by
  induction back generalizing comment depth position with
  | nil => exact scan_nil_ne_unmatched
  | cons c back ih =>
      rw [List.mem_cons, not_or] at h
      rcases scan_cons comment depth position c with ⟨hc, -⟩ | ⟨comment', depth', hon⟩
      · exact absurd hc.symm h.1
      · rw [hon]
        exact ih h.2

/-- A parenthesis that closes nothing is not in the part of a text where nothing is closed. -/
theorem scan_of_append_unmatched
    (h : scan comment depth position (front ++ back) = unmatched p) (hback : ')' ∉ back) :
    scan comment depth position front = unmatched p := by
  induction front generalizing comment depth position with
  | nil => exact absurd h (scan_ne_unmatched hback)
  | cons c front ih =>
      rw [List.cons_append] at h
      rcases scan_cons comment depth position c with ⟨-, hrefused⟩ | ⟨comment', depth', hon⟩
      · rw [hrefused] at h ⊢
        exact h
      · rw [hon] at h ⊢
        exact ih h

end Verdict

namespace Conversation

/-! ### Lines -/

/-- The verdict on the entry that goes on with a line, if the line is a text. -/
def verdict? (c : Conversation) (line : ByteArray) : Option Verdict :=
  (String.fromUTF8? line).map fun text =>
    Verdict.ofText (splitEnding (c.pending ++ text.toList)).1

/-- Two conversations have come to the same since they were `since` and `since'`: they have the same
session and the same entries to keep, both have ended or none, and they have said the same. -/
structure SameSince (since since' c c' : Conversation) : Prop where
  /-- The sessions are the same. -/
  session : c.session = c'.session
  /-- The entries to keep are the same. -/
  kept : c.kept = c'.kept
  /-- Both have ended or none. -/
  ended : c.ended = c'.ended
  /-- The same has been said on standard output. -/
  stdout : ∃ said, c.stdout = since.stdout ++ said ∧ c'.stdout = since'.stdout ++ said
  /-- The same has been said on standard error. -/
  stderr : ∃ said, c.stderr = since.stderr ++ said ∧ c'.stderr = since'.stderr ++ said

/-- The lines after `line` come to the same as if it had not been there: each of them has the same
verdict, and after each the conversation has come to the same. -/
structure Undisturbed (c : Conversation) (line : ByteArray) (later : List ByteArray) : Prop where
  /-- Each later line has the verdict that it has without `line`. -/
  verdict : ∀ heard next rest, later = heard ++ next :: rest → (c.hearEach heard).ended = false →
    ((c.hear line).hearEach heard).verdict? next = (c.hearEach heard).verdict? next
  /-- After each later line the conversation has come to the same as without `line`. -/
  same : ∀ heard rest, later = heard ++ rest →
    SameSince (c.hear line) c ((c.hear line).hearEach heard) (c.hearEach heard)

/-- Of the entry so far, the parenthesis after `position` characters closes nothing. -/
def Refuses (c : Conversation) (position : Nat) : Prop :=
  Verdict.ofText c.pending = .unmatched position

/-- A line is no text, or it is refused for the parenthesis after `position` characters. -/
def TurnsAway (c : Conversation) (position : Nat) (line : ByteArray) : Prop :=
  ∀ verdict ∈ c.verdict? line, verdict = .unmatched position

theorem hearEach_nil (c : Conversation) : c.hearEach [] = c := rfl

theorem hearEach_of_ended {c : Conversation} (h : c.ended = true) (lines : List ByteArray) :
    c.hearEach lines = c := by
  induction lines with
  | nil => rfl
  | cons line lines ih => rwa [hearEach, List.foldl_cons, if_pos h]

theorem hearEach_cons {c : Conversation} (h : c.ended = false) (line : ByteArray)
    (lines : List ByteArray) : c.hearEach (line :: lines) = (c.hear line).hearEach lines := by
  rw [hearEach, List.foldl_cons, if_neg (Bool.eq_false_iff.mp h)]
  rfl

theorem splitEnding_append (text : List Char) :
    (splitEnding text).1 ++ (splitEnding text).2 = text := by
  rw [← List.reverse_inj, splitEnding]
  split
  · next h => simp [h]
  · next h => simp [h]
  · simp

/-- What ends a line closes nothing. -/
theorem not_mem_splitEnding (text : List Char) : ')' ∉ (splitEnding text).2 := by
  rw [splitEnding]
  split
  · simp
  · simp
  · simp

section

variable {c c' since since' : Conversation} {p : Nat} {line next : ByteArray}

/-- A line that is refused stays, and the conversation says why. -/
theorem hear_of_unmatched (h : c.verdict? line = some (.unmatched p)) :
    ∃ pending, Verdict.ofText pending = .unmatched p ∧
      c.hear line = { c with pending }.complain (Verdict.unmatchedMessage p) := by
  obtain ⟨text, htext, hverdict⟩ := Option.map_eq_some_iff.mp h
  refine ⟨_, hverdict, ?_⟩
  rw [hear, htext]
  simp only [hearText, hverdict]

theorem TurnsAway.verdict?_eq (h : c.TurnsAway p line) :
    c.verdict? line = (String.fromUTF8? line).map fun _ => .unmatched p := by
  refine Option.map_congr fun text htext => h _ ?_
  rw [verdict?, htext]
  rfl

/-- What a line comes to that is turned away: the end of the conversation if it is no text, and
otherwise the entry is refused with it. -/
theorem TurnsAway.hear (h : c.TurnsAway p line) :
    String.fromUTF8? line = none ∧ c.hear line = c.hearNoText ∨
      String.fromUTF8? line ≠ none ∧ ∃ pending, Verdict.ofText pending = .unmatched p ∧
        c.hear line = { c with pending }.complain (Verdict.unmatchedMessage p) := by
  have hverdict := h.verdict?_eq
  rcases htext : String.fromUTF8? line with _ | text
  · exact Or.inl ⟨rfl, by rw [Conversation.hear, htext]⟩
  · rw [htext] at hverdict
    exact Or.inr ⟨by simp, hear_of_unmatched hverdict⟩

/-! ### Lines after a refused one -/

/-- **What has been refused is refused again**, with any line. -/
theorem Refuses.turnsAway (h : c.Refuses p) (line : ByteArray) : c.TurnsAway p line := by
  intro verdict hmem
  obtain ⟨text, -, rfl⟩ := Option.map_eq_some_iff.mp hmem
  have hmore := Verdict.scan_append_of_unmatched h text.toList
  rw [← splitEnding_append (c.pending ++ text.toList)] at hmore
  exact Verdict.scan_of_append_unmatched hmore (not_mem_splitEnding _)

/-- **After a refused line nothing is taken any more**, however the later lines read: each that is a
text is refused as before, none is evaluated or kept, and nothing is said on standard output. -/
theorem Refuses.hearEach (h : c.Refuses p) (lines : List ByteArray) :
    ((c.hearEach lines).ended = false → (c.hearEach lines).Refuses p) ∧
      (c.hearEach lines).session = c.session ∧ (c.hearEach lines).kept = c.kept ∧
      (c.hearEach lines).stdout = c.stdout := by
  induction lines generalizing c with
  | nil => exact ⟨fun _ => h, rfl, rfl, rfl⟩
  | cons line lines ih =>
      rcases hended : c.ended with _ | _
      · rw [hearEach_cons hended]
        rcases (h.turnsAway line).hear with ⟨-, heq⟩ | ⟨-, pending, hpending, heq⟩
        · rw [heq, hearEach_of_ended rfl]
          exact ⟨nofun, rfl, rfl, rfl⟩
        · have hrefuses : ({ c with pending }.complain (Verdict.unmatchedMessage p)).Refuses p :=
            hpending
          rw [heq]
          exact ih hrefuses
      · rw [hearEach_of_ended hended]
        exact ⟨fun _ => h, rfl, rfl, rfl⟩

/-! ### With and without a refused line -/

theorem SameSince.refl (h : c.session = c'.session) (hkept : c.kept = c'.kept)
    (hended : c.ended = c'.ended) : SameSince c c' c c' :=
  ⟨h, hkept, hended, ⟨"", by simp⟩, ⟨"", by simp⟩⟩

theorem SameSince.complain (h : SameSince since since' c c') (text : String) :
    SameSince since since' (c.complain text) (c'.complain text) := by
  obtain ⟨said, hsaid, hsaid'⟩ := h.stderr
  refine ⟨h.session, h.kept, h.ended, h.stdout, said ++ text, ?_, ?_⟩
  · rw [Conversation.complain, hsaid, String.append_assoc]
  · rw [Conversation.complain, hsaid', String.append_assoc]

/-- Two conversations that have come to the same, and have both ended or both refused the same
parenthesis. -/
structure SameRefusal (p : Nat) (since since' c c' : Conversation) : Prop
    extends SameSince since since' c c' where
  /-- Both are over, or nothing more is taken. -/
  finished : c.ended = true ∨ c.Refuses p ∧ c'.Refuses p

/-- Two conversations that turn a line away for the same parenthesis take it alike. -/
theorem SameSince.hear (h : SameSince since since' c c') (hc : c.TurnsAway p line)
    (hc' : c'.TurnsAway p line) : SameRefusal p since since' (c.hear line) (c'.hear line) := by
  rcases hc.hear with ⟨hno, heq⟩ | ⟨htext, pending, hpending, heq⟩
  · obtain ⟨-, heq'⟩ := hc'.hear.resolve_right fun htext => htext.1 hno
    have hover : SameSince since since' { c with ended := true } { c' with ended := true } :=
      ⟨h.session, h.kept, rfl, h.stdout, h.stderr⟩
    rw [heq, heq']
    exact ⟨hover.complain _, Or.inl rfl⟩
  · obtain ⟨-, pending', hpending', heq'⟩ := hc'.hear.resolve_left fun hno => htext hno.1
    have hkept : SameSince since since' { c with pending } { c' with pending := pending' } :=
      ⟨h.session, h.kept, h.ended, h.stdout, h.stderr⟩
    rw [heq, heq']
    exact ⟨hkept.complain _, Or.inr ⟨hpending, hpending'⟩⟩

/-- After the same refusal all lines are taken alike. -/
theorem SameRefusal.hearEach (h : SameRefusal p since since' c c') (lines : List ByteArray) :
    SameRefusal p since since' (c.hearEach lines) (c'.hearEach lines) := by
  induction lines generalizing c c' with
  | nil => exact h
  | cons line lines ih =>
      rcases hended : c.ended with _ | _
      · obtain ⟨hc, hc'⟩ := h.finished.resolve_left (by simp [hended])
        rw [hearEach_cons hended, hearEach_cons (h.ended ▸ hended)]
        exact ih (h.hear (hc.turnsAway line) (hc'.turnsAway line))
      · rwa [hearEach_of_ended hended, hearEach_of_ended (h.ended ▸ hended)]

theorem undisturbed_nil (h : SameSince (c.hear line) c (c.hear line) c) :
    c.Undisturbed line [] where
  verdict heard next rest heq := by simp at heq
  same heard rest heq := by
    obtain ⟨rfl, rfl⟩ := List.append_eq_nil_iff.mp heq.symm
    exact h

/-- If the first of the later lines is turned away for the same parenthesis without the line before
it, then all of them come to the same. -/
theorem undisturbed_cons (hended : c.ended = false) (hrefuses : (c.hear line).Refuses p)
    (h : SameSince (c.hear line) c (c.hear line) c) (hnext : c.TurnsAway p next)
    (later : List ByteArray) : c.Undisturbed line (next :: later) := by
  have hagain := hrefuses.turnsAway next
  have hall (lines : List ByteArray) : SameRefusal p (c.hear line) c
      ((c.hear line).hearEach (next :: lines)) (c.hearEach (next :: lines)) := by
    rw [hearEach_cons (h.ended.trans hended), hearEach_cons hended]
    exact (h.hear hagain hnext).hearEach lines
  refine ⟨fun heard other rest heq hheard => ?_, fun heard rest heq => ?_⟩
  · rcases heard with _ | ⟨first, heard⟩
    · obtain ⟨rfl, -⟩ := List.cons.inj heq
      exact hagain.verdict?_eq.trans hnext.verdict?_eq.symm
    · obtain ⟨rfl, -⟩ := List.cons.inj heq
      obtain ⟨hc, hc'⟩ := (hall heard).finished.resolve_left (by simp [(hall heard).ended, hheard])
      exact (hc.turnsAway other).verdict?_eq.trans (hc'.turnsAway other).verdict?_eq.symm
  · rcases heard with _ | ⟨first, heard⟩
    · exact h
    · obtain ⟨rfl, -⟩ := List.cons.inj heq
      exact (hall heard).toSameSince

/-- **When a refused line leaves the later ones alone**: only if no line comes next, or one that is
no text, or one that is refused by itself for a parenthesis in the same place. In any case nothing
of the later lines is evaluated or kept, and each that is heard is turned away. -/
theorem undisturbed_iff (hended : c.ended = false)
    (hline : c.verdict? line = some (.unmatched p)) (later : List ByteArray) :
    (c.Undisturbed line later ↔ ∀ next ∈ later.head?, c.TurnsAway p next) ∧
    ∀ heard rest, later = heard ++ rest →
      ((c.hear line).hearEach heard).session = c.session ∧
      ((c.hear line).hearEach heard).kept = c.kept ∧
      ((c.hear line).hearEach heard).stdout = c.stdout ∧
      (((c.hear line).hearEach heard).ended = false →
        ∀ next ∈ rest, ((c.hear line).hearEach heard).TurnsAway p next) := by
  obtain ⟨pending, hpending, heq⟩ := hear_of_unmatched hline
  have hrefuses : (c.hear line).Refuses p := by
    rw [heq]
    exact hpending
  have hsame : SameSince (c.hear line) c (c.hear line) c := by
    rw [heq]
    exact .refl rfl rfl rfl
  refine ⟨⟨fun h next hnext verdict hmem => ?_, fun h => ?_⟩, fun heard rest _ => ?_⟩
  · obtain ⟨rest, rfl⟩ := List.head?_eq_some_iff.mp hnext
    have hverdict := h.verdict [] next rest rfl hended
    rw [hearEach_nil, hearEach_nil] at hverdict
    exact hrefuses.turnsAway next verdict (hverdict ▸ hmem)
  · rcases later with _ | ⟨next, later⟩
    · exact undisturbed_nil hsame
    · exact undisturbed_cons hended hrefuses hsame (h next rfl) later
  · obtain ⟨hrest, hsession, hkept, hstdout⟩ := hrefuses.hearEach heard
    have hline : (c.hear line).session = c.session ∧ (c.hear line).kept = c.kept ∧
        (c.hear line).stdout = c.stdout := by
      rw [heq]
      exact ⟨rfl, rfl, rfl⟩
    exact ⟨hsession.trans hline.1, hkept.trans hline.2.1, hstdout.trans hline.2.2,
      fun hopen next _ => (hrest hopen).turnsAway next⟩

end

/-- Of two closing parentheses on lines of their own, the second is refused either way. -/
theorem undisturbed_closing :
    let c := opening {} false
    c.verdict? ")\n".toUTF8 = some (.unmatched 0) ∧
      c.Undisturbed ")\n".toUTF8 [")\n".toUTF8, "1\n".toUTF8] := by
  have hline : (opening {} false).verdict? ")\n".toUTF8 = some (.unmatched 0) := by decide
  refine ⟨hline, (undisturbed_iff rfl hline _).1.mpr fun next hnext verdict hmem => ?_⟩
  obtain rfl := Option.some.inj hnext
  rw [hline] at hmem
  exact (Option.some.inj hmem).symm

/-- A closing parenthesis in a new conversation, and a sum on the next line: the sum is refused
with it, though alone it can be read. And the word that ends a conversation does not end it. -/
theorem not_undisturbed_sum :
    let c := opening {} false
    c.pending = [] ∧ c.verdict? ")\n".toUTF8 = some (.unmatched 0) ∧
      ¬c.Undisturbed ")\n".toUTF8 ["(+ 1 2)\n".toUTF8, "exit\n".toUTF8] ∧
      (c.hearEach ["(+ 1 2)\n".toUTF8, "exit\n".toUTF8]).ended = true ∧
      ((c.hear ")\n".toUTF8).hearEach ["(+ 1 2)\n".toUTF8, "exit\n".toUTF8]).ended = false := by
  have hline : (opening {} false).verdict? ")\n".toUTF8 = some (.unmatched 0) := by decide
  have hsum : (opening {} false).verdict? "(+ 1 2)\n".toUTF8 = some .complete := by decide
  refine ⟨rfl, hline, fun h => ?_, by decide +kernel, by decide +kernel⟩
  have hverdict := h.verdict [] _ _ rfl rfl
  rw [hearEach_nil, hearEach_nil, hsum] at hverdict
  exact absurd hverdict (by decide)

end Conversation

end FlatLisp
