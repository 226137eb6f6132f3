import FlatLisp.Diagnostic
import FlatLisp.Proofs.ReadFailures
import Mathlib.Data.List.Basic

/-!
# Where a Report Points

The heading of a report names a line and a column. A reader finds the place of an error by
counting lines and characters from the beginning of the text (`Location.after`). The report counts
as the reader does, with a table of lines, but it takes the offset of the token, which is in
bytes, for a number of characters.

The table of lines is not at fault: the place that it gives for a number of characters is the one
that the reader finds after so many, and it gives different places for different numbers. So a
report points at the error if and only if the offset is the same number in bytes and in
characters, which is to say that every character before the error takes one byte. Two conditions
are at the ends. A token with characters of more than one byte may end beyond the text, counted
so, and then the report has no heading. And after a line end at the end of the text the table has
no further line, so that the report points behind the line end instead of at the beginning of the
line after it.

## Main definitions

* `Location.after`: the place that a reader finds.
* `ReadError.location`: the place of an error.
* `ReadError.PointsAt`: a report has a heading with a place.
* `ReadError.CountsAlike`: the condition on the text before and in the token.

## Main results

* `Diagnostic.shownAt_append`: the table of lines gives the place that the reader finds.
* `ReadError.pointsAt_iff`: the place that the heading has.
* `reportPoints_iff`: reports point at the error exactly under the condition.
-/

namespace FlatLisp

open Text

/-! ### Places -/

/-- A place in a text. -/
structure Location where
  /-- The number of the line, from one. -/
  line : Nat
  /-- The number of the character in the line, from one. -/
  column : Nat
deriving DecidableEq, Repr

namespace Location

/-- The place of the first character. -/
def origin : Location := ⟨1, 1⟩

/-- The place after a text that begins at a place. Lines end as `Text.endsLine` tells, and a
carriage return and the line feed after it end one line together. -/
def after (p : Location) : List Char → Location
  | [] => p
  | c :: rest =>
    if endsLine c && !(c == '\r' && rest.head? == some '\n') then after ⟨p.line + 1, 1⟩ rest
    else after ⟨p.line, p.column + 1⟩ rest

/-- After a character that ends a line comes the first place of the next one. -/
theorem after_concat_of_endsLine {c : Char} (h : endsLine c = true) (p : Location)
    (front : List Char) : (p.after (front ++ [c])).column = 1 := by
  induction front generalizing p with
  | nil => simp [after, h]
  | cons d front ih =>
      rw [List.cons_append, after]
      split
      · exact ih _
      · exact ih _

/-- The line of a report that names a place. -/
def heading (p : Location) (width : Nat) (source : String) : String :=
  String.ofList (List.replicate width ' ') ++ "╭─[ " ++ source ++ ":" ++ toString p.line ++ ":" ++
    toString p.column ++ " ]\n"

end Location

namespace ReadError

/-- The place of an error in a text: the first character of the token that it names, or the end
of the text. -/
def location (e : ReadError) (text : List Char) : Location :=
  match e.site? with
  | some (_, span) => Location.origin.after (takeBytes span.start text)
  | none => Location.origin.after text

/-- The report of an error has a heading with a place. -/
def PointsAt (e : ReadError) (source text : String) (p : Location) : Prop :=
  ∃ width rest, e.report source text =
    "Error: " ++ (Diagnostic.ofReadError text.utf8ByteSize e).title ++ "\n" ++
      p.heading width source ++ rest

/-- Bytes and characters count alike up to an error. Every character before it takes one byte;
and the token that it names ends at most one place beyond the text when its bytes are counted as
characters, or, if it names none, the text does not end with the end of a line. -/
def CountsAlike (e : ReadError) (text : List Char) : Prop :=
  match e.site? with
  | some (_, span) =>
    (∀ c ∈ takeBytes span.start text, c.utf8Size = 1) ∧ span.stop ≤ text.length + 1
  | none => (∀ c ∈ text, c.utf8Size = 1) ∧ ∀ c ∈ text.getLast?, endsLine c = false

end ReadError

/-- If a text is no expression, then the report of why points at the error, whatever the text
comes from. -/
def ReportPoints (text : String) : Prop :=
  ∀ error, Expr.ofText text = .error error →
    ∀ source, error.PointsAt source text (error.location text.toList)

/-! ### Bytes and characters -/

namespace Text

theorem length_le_byteLength (text : List Char) : text.length ≤ byteLength text := by
  induction text with
  | nil => exact Nat.le_refl _
  | cons c rest ih =>
      have hc := c.utf8Size_pos
      rw [List.length_cons, byteLength_cons]
      omega

/-- A text has as many bytes as characters when each of them takes one. -/
theorem byteLength_eq_length_iff {text : List Char} :
    byteLength text = text.length ↔ ∀ c ∈ text, c.utf8Size = 1 := by
  induction text with
  | nil => simp
  | cons c rest ih =>
      have hc := c.utf8Size_pos
      have hrest := length_le_byteLength rest
      rw [List.forall_mem_cons, ← ih, byteLength_cons, List.length_cons]
      omega

theorem utf8ByteSize_eq_byteLength (text : String) :
    text.utf8ByteSize = byteLength text.toList := by
  have h : ∀ all : List Char, (String.ofList all).utf8ByteSize = byteLength all := by
    intro all
    induction all with
    | nil => rfl
    | cons c rest ih =>
        rw [String.ofList_cons, String.utf8ByteSize_append, String.utf8ByteSize_singleton, ih,
          byteLength_cons]
  rw [← h, String.ofList_toList]

/-- A part of a text that ends at the first character without some property can be told. -/
theorem append_cons_inj {p : Char → Bool} {c : Char} {front front' back back' : List Char}
    (hfront : ∀ d ∈ front, p d = true) (hfront' : ∀ d ∈ front', p d = true) (hc : p c = false)
    (h : front ++ c :: back = front' ++ c :: back') : front = front' ∧ back = back' := by
  have htake := congrArg (List.takeWhile p) h
  rw [List.takeWhile_append_of_pos hfront, List.takeWhile_append_of_pos hfront',
    List.takeWhile_cons_of_neg (by simp [hc]), List.takeWhile_cons_of_neg (by simp [hc]),
    List.append_nil, List.append_nil] at htake
  subst htake
  exact ⟨rfl, (List.cons.inj (List.append_cancel_left h)).2⟩

/-- A number that is followed by something else than a digit can be told. -/
theorem toString_append_cons_inj {n m : Nat} {c : Char} {back back' : List Char}
    (hc : c.isDigit = false)
    (h : (toString n).toList ++ c :: back = (toString m).toList ++ c :: back') :
    n = m ∧ back = back' := by
  simp only [Nat.toString_eq_repr, Nat.toList_repr] at h
  have hdigits : ∀ k, ∀ d ∈ Nat.toDigits 10 k, d.isDigit = true := fun k d hd =>
    Nat.isDigit_of_mem_toDigits (by decide) (by decide) hd
  obtain ⟨hsame, hback⟩ := append_cons_inj (hdigits n) (hdigits m) hc h
  have hvalue := congrArg (Nat.ofDigitChars 10 · 0) hsame
  simp only [Nat.ofDigitChars_ten_toDigits] at hvalue
  exact ⟨hvalue, hback⟩

/-! ### A table of lines -/

/-- The lines that remain when `front` has been taken off the first of them, with it again. -/
def joinLine (front : List Char) : List (List Char) → List (List Char)
  | [] => [front]
  | line :: rest => (front ++ line) :: rest

theorem lines_eq_joinLine (text : List Char) : lines text = joinLine [] (splitLines text) := by
  unfold lines
  cases splitLines text with
  | nil => rfl
  | cons line rest => rfl

theorem exists_lines_eq_cons (text : List Char) : ∃ line rest, lines text = line :: rest := by
  rw [lines_eq_joinLine]
  cases splitLines text with
  | nil => exact ⟨_, _, rfl⟩
  | cons line rest => exact ⟨_, _, rfl⟩

theorem joinLine_consLine (front : List Char) (c : Char) (all : List (List Char)) :
    joinLine front (consLine c all) = joinLine (front ++ [c]) all := by
  cases all with
  | nil => rfl
  | cons line rest => simp [consLine, joinLine]

theorem exists_splitLines_eq_cons {text : List Char} (h : text ≠ []) :
    ∃ line rest, splitLines text = line :: rest := by
  refine List.exists_cons_of_ne_nil fun hnil => h ?_
  rw [← flatten_splitLines text, hnil, List.flatten_nil]

/-- No line of a text is empty, with what ends it. -/
theorem ne_nil_of_mem_splitLines {text line : List Char} (h : line ∈ splitLines text) :
    line ≠ [] := by
  induction text generalizing line with
  | nil => cases h
  | cons c rest ih =>
      rw [splitLines] at h
      split at h
      · rcases List.mem_cons.mp h with rfl | hrest
        · exact List.cons_ne_nil c _
        · exact ih hrest
      · rcases hrest : splitLines rest with _ | ⟨first, others⟩
        · rw [hrest, consLine, List.mem_singleton] at h
          rw [h]
          exact List.cons_ne_nil c _
        · rw [hrest, consLine] at h
          rcases List.mem_cons.mp h with rfl | hothers
          · exact List.cons_ne_nil c _
          · exact ih (hrest ▸ List.mem_cons_of_mem first hothers)

theorem joinLine_nil_splitLines {text : List Char} (h : text ≠ []) :
    joinLine [] (splitLines text) = splitLines text := by
  obtain ⟨line, rest, hlines⟩ := exists_splitLines_eq_cons h
  rw [hlines]
  rfl

end Text

namespace Diagnostic

/-- The place that a line gives to a number of characters of the text. -/
def Line.shownAt (line : Line) (index : Nat) : Location :=
  ⟨line.number, index - line.start + 1⟩

/-- The place that the table of lines gives to a number of characters. -/
def shownAt (index : Nat) (text : List Char) : Location :=
  (lineAt index ⟨1, 0, []⟩ 1 0 (lines text)).shownAt index

section

variable {index number start : Nat} {found : Line} {all : List (List Char)}

theorem start_lineAt_le (h : found.start ≤ index) :
    (lineAt index found number start all).start ≤ index := by
  induction all generalizing found number start with
  | nil => exact h
  | cons line rest ih =>
      rw [lineAt]
      split
      · next hstart => exact ih hstart
      · exact h

theorem le_number_lineAt {least : Nat} (hfound : least ≤ found.number) (h : least ≤ number) :
    least ≤ (lineAt index found number start all).number := by
  induction all generalizing found number start with
  | nil => exact hfound
  | cons line rest ih =>
      rw [lineAt]
      split
      · exact ih h (Nat.le_succ_of_le h)
      · exact hfound

/-- The number of a line tells the line. -/
theorem lineAt_eq_of_number_eq {other : Nat} (h : found.number < number)
    (hnumber : (lineAt index found number start all).number =
      (lineAt other found number start all).number) :
    lineAt index found number start all = lineAt other found number start all := by
  induction all generalizing found number start with
  | nil => rfl
  | cons line rest ih =>
      have hlater : ∀ k, number ≤
          (lineAt k ⟨number, start, line⟩ (number + 1) (start + line.length) rest).number :=
        fun k => le_number_lineAt (Nat.le_refl number) (Nat.le_succ number)
      rw [lineAt, lineAt] at hnumber ⊢
      split at hnumber
      · split at hnumber
        · rw [if_pos ‹_›, if_pos ‹_›]
          exact ih (Nat.lt_succ_self number) hnumber
        · have := hlater index
          omega
      · split at hnumber
        · have := hlater other
          omega
        · rw [if_neg ‹_›, if_neg ‹_›]

/-- A line that begins at the place or before it is passed on the way. -/
theorem lineAt_of_le {line : List Char} {rest : List (List Char)} (h : start ≤ index) :
    lineAt index found number start (line :: rest) =
      lineAt index ⟨number, start, line⟩ (number + 1) (start + line.length) rest :=
  if_pos h

/-- When all lines are passed over, the place is behind the last of them. -/
theorem shownAt_lineAt_of_flatten (hfound : found.start + found.content.length = start)
    (hnumber : found.number + 1 = number) (hindex : index = start + all.flatten.length) :
    (lineAt index found number start all).shownAt index =
      ⟨found.number + all.length, (all.getLastD found.content).length + 1⟩ := by
  induction all generalizing found number start with
  | nil =>
      have hcolumn : index - found.start = found.content.length := by
        rw [hindex, List.flatten_nil, List.length_nil]
        omega
      rw [lineAt, Line.shownAt, hcolumn]
      rfl
  | cons line rest ih =>
      have hcount : number + rest.length = found.number + (line :: rest).length := by
        rw [List.length_cons]
        omega
      rw [List.flatten_cons, List.length_append] at hindex
      rw [lineAt_of_le (by omega), ih rfl rfl (by rw [hindex, Nat.add_assoc]), List.getLastD_cons,
        hcount]

/-- In the course of a line of which `read` has been read, the table of lines gives a place in this
line. -/
theorem shownAt_lineAt_joinLine {read : List Char} (back : List Char)
    (hindex : index = start + read.length) :
    (lineAt index found number start (joinLine read (splitLines back))).shownAt index =
      ⟨number, read.length + 1⟩ := by
  have hstart : start ≤ index := by omega
  have hline : ∀ line, (Line.mk number start line).shownAt index = ⟨number, read.length + 1⟩ := by
    intro line
    have hcolumn : index - start = read.length := by omega
    rw [Line.shownAt, hcolumn]
  by_cases hback : back = []
  · rw [hback, splitLines, joinLine, lineAt_of_le hstart, lineAt, hline]
  obtain ⟨line, rest, hlines⟩ := exists_splitLines_eq_cons hback
  have hlength : 0 < line.length :=
    List.length_pos_of_ne_nil (ne_nil_of_mem_splitLines (hlines ▸ List.mem_cons_self ..))
  rw [hlines, joinLine, lineAt_of_le hstart]
  cases rest with
  | nil => rw [lineAt, hline]
  | cons next rest =>
      -- The next line begins behind the place, since this one goes on.
      have hnext : ¬start + (read ++ line).length ≤ index := by
        rw [List.length_append]
        omega
      rw [lineAt, if_neg hnext, hline]

/-- In the course of a text, after `front`, the table of lines gives the place that a reader
finds. The reader has come from a place in line `number` that `read` begins; so the lines that
remain are those of the rest of the text with `read` in front.

The induction is on `front`: a character that ends the line completes the first of the lines, and
any other goes over to `read`. -/
theorem shownAt_lineAt_append {read front back : List Char}
    (hlineFeed : back.head? ≠ some '\n')
    (hend : back = [] → ∀ c ∈ front.getLast?, endsLine c = false)
    (hindex : index = start + read.length + front.length) :
    (lineAt index found number start (joinLine read (splitLines (front ++ back)))).shownAt index =
      Location.after ⟨number, read.length + 1⟩ front := by
  induction front generalizing found number start read with
  | nil => exact shownAt_lineAt_joinLine back hindex
  | cons c front ih =>
      have hhead : ((front ++ back).head? == some '\n') = (front.head? == some '\n') := by
        cases front with
        | nil => simpa using hlineFeed
        | cons d front => rfl
      have hend' : back = [] → ∀ d ∈ front.getLast?, endsLine d = false := by
        intro hback d hd
        cases front with
        | nil => cases hd
        | cons e front => exact hend hback d (by rwa [List.getLast?_cons_cons])
      rw [List.cons_append, splitLines, Location.after, hhead]
      split
      · next hends =>
          have hmore : front ++ back ≠ [] := by
            rintro hnil
            obtain ⟨rfl, rfl⟩ := List.append_eq_nil_iff.mp hnil
            have hc := hend rfl c (by simp)
            simp [hc] at hends
          rw [joinLine, lineAt_of_le (by omega), ← joinLine_nil_splitLines hmore]
          refine ih hend' ?_
          rw [hindex]
          simp only [List.length_append, List.length_cons, List.length_nil]
          omega
      · rw [joinLine_consLine, ih hend']
        · rw [List.length_append, List.length_singleton]
        · rw [hindex]
          simp only [List.length_append, List.length_cons, List.length_nil]
          omega

end

section

variable {text front back : List Char}

/-- **The table of lines gives the place that a reader finds.** -/
theorem shownAt_append (hlineFeed : back.head? ≠ some '\n')
    (hend : back = [] → ∀ c ∈ front.getLast?, endsLine c = false) :
    shownAt front.length (front ++ back) = Location.origin.after front := by
  rw [shownAt, lines_eq_joinLine]
  exact shownAt_lineAt_append hlineFeed hend (by simp)

/-- The table of lines gives different places for different numbers of characters. -/
theorem shownAt_injective (text : List Char) : Function.Injective (shownAt · text) := by
  intro index other h
  obtain ⟨line, rest, hlines⟩ := exists_lines_eq_cons text
  simp only [shownAt, hlines, lineAt_of_le (Nat.zero_le _), Nat.zero_add, Line.shownAt,
    Location.mk.injEq] at h
  obtain ⟨hnumber, hcolumn⟩ := h
  have hbegin : ∀ k, (lineAt k ⟨1, 0, line⟩ (1 + 1) line.length rest).start ≤ k :=
    fun k => start_lineAt_le (Nat.zero_le k)
  have hindex := hbegin index
  have hother := hbegin other
  rw [lineAt_eq_of_number_eq (Nat.lt_succ_self 1) hnumber] at hcolumn hindex
  omega

/-- The place that the table of lines gives to the end of a text: in the last line, behind its
characters and what ends it. -/
theorem shownAt_length (text : List Char) :
    shownAt text.length text =
      ⟨(lines text).length, ((lines text).getLastD []).length + 1⟩ := by
  obtain ⟨line, rest, hlines⟩ := exists_lines_eq_cons text
  have hlength : text.length = line.length + rest.flatten.length := by
    rw [← List.length_append, ← List.flatten_cons, ← hlines, flatten_lines]
  rw [shownAt, hlines, lineAt_of_le (Nat.zero_le _), Nat.zero_add, List.getLastD_cons,
    List.length_cons, Nat.add_comm rest.length]
  exact shownAt_lineAt_of_flatten (Nat.zero_add line.length) rfl hlength

/-- The table of lines does not begin a line with the end of a text, unless it is empty. -/
theorem column_shownAt_length_ne (h : text ≠ []) : (shownAt text.length text).column ≠ 1 := by
  obtain ⟨line, rest, hlines⟩ := exists_splitLines_eq_cons h
  have hlast : (lines text).getLastD [] ∈ splitLines text := by
    rw [lines_eq_joinLine, joinLine_nil_splitLines h, hlines, List.getLastD_cons]
    exact List.getLastD_mem_cons ..
  have hpos := List.length_pos_of_ne_nil (ne_nil_of_mem_splitLines hlast)
  rw [shownAt_length]
  exact Nat.ne_of_gt (Nat.succ_lt_succ hpos)

end

/-! ### The heading -/

/-- The span of a diagnostic, counted in characters, is in the text. -/
def Fits (d : Diagnostic) (text : List Char) : Prop :=
  d.span.start ≤ text.length ∧ (d.span.start < d.span.stop → d.span.stop ≤ text.length + 1)

section

variable {d : Diagnostic} {source : String} {text : List Char}

theorem render_of_not_fits (h : ¬d.Fits text) :
    d.render source text = "Error: " ++ d.title ++ "\n" := by
  rw [render]
  apply if_pos
  simp only [Bool.or_eq_true, Bool.and_eq_true, decide_eq_true_eq]
  unfold Fits at h
  omega

/-- The heading of the drawing is all that depends on the source. -/
theorem exists_render (h : d.Fits text) :
    ∃ width rest, ∀ source, d.render source text = "Error: " ++ d.title ++ "\n" ++
      (shownAt d.span.start text).heading width source ++ rest := by
  have hfits : ¬(text.length < d.span.start ||
      d.span.start < d.span.stop && text.length < d.span.stop - 1) = true := by
    simp only [Bool.or_eq_true, Bool.and_eq_true, decide_eq_true_eq]
    unfold Fits at h
    omega
  simp only [render, if_neg hfits, Location.heading, String.append_assoc]
  exact ⟨_, _, fun _ => rfl⟩

end

end Diagnostic

/-- A heading tells its place. -/
theorem Location.heading_append_inj {p q : Location} {source rest rest' : String}
    {width width' : Nat}
    (h : p.heading width source ++ rest = q.heading width' source ++ rest') : p = q := by
  have hlist := congrArg String.toList h
  simp only [heading, String.toList_append, String.toList_ofList, List.append_assoc] at hlist
  have hspace : ∀ k, ∀ c ∈ List.replicate k ' ', (c == ' ') = true := by
    intro k c hc
    rw [List.eq_of_mem_replicate hc]
    rfl
  obtain ⟨-, hsource⟩ := append_cons_inj (hspace width) (hspace width') (by decide) hlist
  have hline := List.append_cancel_left (List.append_cancel_left hsource)
  obtain ⟨hline, hcolumn⟩ := toString_append_cons_inj (by decide) (List.cons.inj hline).2
  obtain ⟨hcolumn, -⟩ := toString_append_cons_inj (by decide) hcolumn
  obtain ⟨line, column⟩ := p
  rw [Location.mk.injEq]
  exact ⟨hline, hcolumn⟩

theorem Token.Stands.exists_display {text : List Char} {t : Token} (h : t.Stands text) :
    ∃ c rest, t.display.toList = c :: rest ∧ c ≠ '\n' := by
  obtain ⟨kind, span⟩ := t
  cases kind with
  | opening => exact ⟨'(', [], display_opening span, by decide⟩
  | closing => exact ⟨')', [], display_closing span, by decide⟩
  | word w =>
      obtain ⟨hne, hall⟩ := h.word w rfl
      obtain ⟨c, rest, hw⟩ := List.exists_cons_of_ne_nil hne
      refine ⟨c, rest, hw, ?_⟩
      rintro rfl
      have hc := hall '\n' (by simp [hw])
      cases hc

namespace ReadError

variable {error : ReadError} {source text : String} {p : Location}

/-- **The heading of a report** has the place that the table of lines gives to the offset of the
error, if the span is in the text, where offset and span are counted in characters. -/
theorem pointsAt_iff :
    error.PointsAt source text p ↔
      (Diagnostic.ofReadError text.utf8ByteSize error).Fits text.toList ∧
        Diagnostic.shownAt (Diagnostic.ofReadError text.utf8ByteSize error).span.start text.toList =
          p := by
  unfold PointsAt report
  generalize Diagnostic.ofReadError text.utf8ByteSize error = d
  constructor
  · rintro ⟨width, rest, hreport⟩
    by_cases hfits : d.Fits text.toList
    · refine ⟨hfits, ?_⟩
      obtain ⟨width', rest', hrender⟩ := d.exists_render hfits
      simp only [hrender, String.append_assoc, String.append_right_inj] at hreport
      exact Location.heading_append_inj hreport
    · have hlist := congrArg String.toList hreport
      simp [Diagnostic.render_of_not_fits hfits, Location.heading] at hlist
  · rintro ⟨hfits, rfl⟩
    obtain ⟨width, rest, hrender⟩ := d.exists_render hfits
    exact ⟨width, rest, hrender source⟩

/-- The span of what is shown of an error that names a token. -/
theorem span_ofReadError {size : Nat} {found : String} {span : Span}
    (h : error.site? = some (found, span)) :
    (Diagnostic.ofReadError size error).span = span := by
  cases error with
  | unexpectedToken token expected => exact (Prod.mk.inj (Option.some.inj h)).2
  | unexpectedEnd expected => cases h
  | invalidWord word at' => exact (Prod.mk.inj (Option.some.inj h)).2

theorem span_ofReadError_end {size : Nat} (h : error.site? = none) :
    (Diagnostic.ofReadError size error).span = ⟨size, size⟩ := by
  cases error with
  | unexpectedToken token expected => cases h
  | unexpectedEnd expected => rfl
  | invalidWord word at' => cases h

/-- An error that names a token of the text. -/
theorem pointsAt_token_iff {t : Token} (ht : t.Stands text.toList)
    (hsite : error.site? = some (t.display, t.span)) :
    error.PointsAt source text (error.location text.toList) ↔ error.CountsAlike text.toList := by
  obtain ⟨front, back, htext, hspan⟩ := ht.place
  obtain ⟨c, rest, hdisplay, hc⟩ := ht.exists_display
  have hsize := c.utf8Size_pos
  have hfront : takeBytes t.span.start text.toList = front := by
    rw [htext, hspan, List.append_assoc, takeBytes_byteLength_append]
  have hplace : Diagnostic.shownAt front.length text.toList = Location.origin.after front := by
    rw [htext, List.append_assoc, hdisplay]
    exact Diagnostic.shownAt_append (by simpa using hc) (by simp)
  have hle := length_le_byteLength front
  have hstart : t.span.start = byteLength front := congrArg Span.start hspan
  have hstop : t.span.start < t.span.stop := by
    rw [hspan, hdisplay, byteLength_cons]
    show byteLength front < byteLength front + _
    omega
  rw [pointsAt_iff, location, CountsAlike, hsite]
  simp only [hfront]
  rw [← byteLength_eq_length_iff, ← hplace, span_ofReadError hsite, Diagnostic.Fits,
    span_ofReadError hsite, hstart, (Diagnostic.shownAt_injective text.toList).eq_iff]
  constructor
  · rintro ⟨⟨-, hfits⟩, hsame⟩
    exact ⟨hsame, hfits (hstart ▸ hstop)⟩
  · rintro ⟨hsame, hfits⟩
    exact ⟨⟨by omega, fun _ => hfits⟩, hsame⟩

/-- An error that names none. -/
theorem pointsAt_end_iff (hsite : error.site? = none) :
    error.PointsAt source text (error.location text.toList) ↔ error.CountsAlike text.toList := by
  rw [pointsAt_iff, location, CountsAlike, hsite]
  simp only
  rw [← byteLength_eq_length_iff, Diagnostic.Fits, span_ofReadError_end hsite,
    utf8ByteSize_eq_byteLength]
  have hle := length_le_byteLength text.toList
  have hshown : (∀ c ∈ text.toList.getLast?, endsLine c = false) →
      Diagnostic.shownAt text.toList.length text.toList = Location.origin.after text.toList := by
    intro hend
    have hwhole := Diagnostic.shownAt_append (by simp) fun _ : [] = [] => hend
    rwa [List.append_nil] at hwhole
  constructor
  · rintro ⟨⟨hfits, -⟩, hplace⟩
    have hsame : byteLength text.toList = text.toList.length := by
      show byteLength text.toList = _
      exact Nat.le_antisymm hfits hle
    refine ⟨hsame, fun c hc => ?_⟩
    obtain ⟨front, htext⟩ := List.getLast?_eq_some_iff.mp hc
    rcases hends : endsLine c with _ | _
    · rfl
    · have hne : text.toList ≠ [] := by simp [htext]
      refine absurd ?_ (Diagnostic.column_shownAt_length_ne hne)
      rw [← hsame, hplace, htext]
      exact Location.after_concat_of_endsLine hends Location.origin front
  · rintro ⟨hsame, hend⟩
    simp only [hsame]
    exact ⟨⟨Nat.le_refl _, fun h => absurd h (Nat.lt_irrefl _)⟩, hshown hend⟩

/-- At the end of a text in which every character takes one byte, the heading has the place behind
the last line, with what ends it. -/
theorem pointsAt_end (hsite : error.site? = none) (h : ∀ c ∈ text.toList, c.utf8Size = 1) :
    error.PointsAt source text
      ⟨(lines text.toList).length, ((lines text.toList).getLastD []).length + 1⟩ := by
  rw [pointsAt_iff, Diagnostic.Fits, span_ofReadError_end hsite, utf8ByteSize_eq_byteLength,
    byteLength_eq_length_iff.mpr h]
  exact ⟨⟨Nat.le_refl _, fun h => absurd h (Nat.lt_irrefl _)⟩, Diagnostic.shownAt_length _⟩

end ReadError

theorem Expr.pointsAt_location_iff {text source : String} {error : ReadError}
    (h : Expr.ofText text = .error error) :
    error.PointsAt source text (error.location text.toList) ↔ error.CountsAlike text.toList := by
  rcases Expr.ofTokens_error h with ⟨before, token, after, htokens, hsite, -⟩ | ⟨hsite, -⟩
  · have hmem : token ∈ Token.ofText text := by simp [htokens]
    exact ReadError.pointsAt_token_iff (Token.stands_of_mem_ofText hmem) hsite
  · exact ReadError.pointsAt_end_iff hsite

/-- **The report of a reading error points at the error** if and only if bytes and characters
count alike up to it. At the end of a text in which they do, it always points behind the last
line, a line end included. -/
theorem reportPoints_iff (text : String) :
    (ReportPoints text ↔
      ∀ error, Expr.ofText text = .error error → error.CountsAlike text.toList) ∧
    ∀ error, Expr.ofText text = .error error → error.site? = none →
      (∀ c ∈ text.toList, c.utf8Size = 1) → ∀ source, error.PointsAt source text
        ⟨(lines text.toList).length, ((lines text.toList).getLastD []).length + 1⟩ := by
  refine ⟨⟨fun h error herror => ?_, fun h error herror source => ?_⟩,
    fun error _ hsite hbytes source => ReadError.pointsAt_end hsite hbytes⟩
  · exact (Expr.pointsAt_location_iff herror).mp (h error herror "")
  · exact (Expr.pointsAt_location_iff herror).mpr (h error herror)

/-- A letter of two bytes after the error does no harm. -/
theorem reportPoints_beforeLetter : ReportPoints ")é" := by
  refine (reportPoints_iff ")é").1.mpr fun error herror => ?_
  have hread : Expr.ofText ")é" = .error (.unexpectedToken ⟨.closing, ⟨0, 1⟩⟩ .atomOrList) := rfl
  obtain rfl := Except.error.inj (hread.symm.trans herror)
  exact ⟨List.forall_mem_nil _, by decide⟩

/-- After a letter of two bytes the heading is one column too far to the right, and after two of
them there is none. -/
theorem not_reportPoints_afterLetter :
    (¬ReportPoints "é)" ∧ ∃ error, Expr.ofText "é)" = .error error ∧
      error.location "é)".toList = ⟨1, 2⟩ ∧ ∀ source, error.PointsAt source "é)" ⟨1, 3⟩) ∧
    ∃ error, Expr.ofText "éé)" = .error error ∧ error.location "éé)".toList = ⟨1, 3⟩ ∧
      ∀ source p, ¬error.PointsAt source "éé)" p := by
  have hletter : Expr.ofText "é)" = .error (.unexpectedToken ⟨.closing, ⟨2, 3⟩⟩ .endOfInput) := rfl
  have hletters : Expr.ofText "éé)" = .error (.unexpectedToken ⟨.closing, ⟨4, 5⟩⟩ .endOfInput) :=
    rfl
  refine ⟨⟨fun h => ?_, _, hletter, by decide, fun source => ?_⟩, _, hletters, by decide,
    fun source p hpoints => ?_⟩
  · have hcount := (Expr.pointsAt_location_iff hletter).mp (h _ hletter "")
    exact absurd (hcount.1 'é' (by decide)) (by decide)
  · exact ReadError.pointsAt_iff.mpr ⟨⟨by decide, fun _ => by decide⟩, by decide⟩
  · exact absurd (ReadError.pointsAt_iff.mp hpoints).1.1 (by decide)

end FlatLisp
