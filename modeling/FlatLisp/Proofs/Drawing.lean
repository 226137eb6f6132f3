import FlatLisp.Proofs.Partners

/-!
# Drawing in One Pass

A line is drawn in one pass, and when a closing parenthesis turns out to be lit, the sequences of
its partner are put in what has been drawn already, at an offset that was kept on the stack. What
stands between the offset in the line and the one in the drawing are the sequences of comments and
of red parentheses, and characters of several bytes.

What a drawing is after a front of the line is said by `Drawing.Shows`: it is the front in the
styles that it has by itself, with the pair that is lit in it; and each entry of the stack tells
where an opening parenthesis begins, in the line and in the drawing. One character keeps this. When
it lights a pair, nothing was lit before, as a parenthesis has one partner; so the drawing changes
at the two parentheses only, and since what waits below on the stack stands in front of the pair,
its places stay what they are.

## Main definitions

* `Highlight.ink`: placed characters with their sequences.
* `Drawing.Shows`: what a drawing is after a front of its line.

## Main results

* `Drawing.Shows.add`, `Drawing.Shows.addAll`: one character keeps it, and so does a line.
* `Highlight.draw?_eq_render`: drawing never fails, and gives the line with its colour sequences.
* `Highlight.draw?_coloured`: how each character of a line is drawn.
-/

namespace FlatLisp

namespace Highlight

open Text Entry

/-- Placed characters, each with its sequences, when this pair is lit. -/
def ink (pair : Option (Nat × Nat)) (line : List Placed) : List Char :=
  line.flatMap fun p => (paint p.char (p.style pair)).toList

/-- The characters of a front of a line in their places. -/
def placed (front : List Char) : List Placed :=
  place false [] 0 front

/-- The pair that is lit in a front of a line. -/
def pairIn (cursor : Nat) (front : List Char) : Option (Nat × Nat) :=
  lit? cursor (placed front)

/-- What a drawing is after a front of its line. -/
structure Drawing.Shows (cursor : Nat) (front : List Char) (d : Drawing) :
    Prop where
  comment : d.comment = Entry.comment front
  stack : d.stack.map Prod.fst = waiting front
  drawn : d.drawn = ink (pairIn cursor front) (placed front)
  /-- Each entry of the stack is an opening parenthesis, and its place is the one at which it has
  been drawn. -/
  places : ∀ entry ∈ d.stack, ∃ before inside, front = before ++ '(' :: inside ∧
    Entry.comment before = false ∧
    entry = (byteLength before, byteLength (ink (pairIn cursor front) (placed before)))

/-! ### Replacing a byte -/

theorem replaceByte?_append {c : Char} (hc : c.utf8Size = 1) (front new back : List Char) :
    replaceByte? (byteLength front) new (front ++ c :: back) = some (front ++ new ++ back) := by
  induction front with
  | nil => simp [replaceByte?, hc]
  | cons d front ih =>
      have hd := d.utf8Size_pos
      have hzero : ¬d.utf8Size + byteLength front = 0 := by omega
      have hlater : ¬d.utf8Size + byteLength front < d.utf8Size := by omega
      rw [List.cons_append, replaceByte?, byteLength_cons, if_neg hzero, if_neg hlater,
        Nat.add_sub_cancel_left, ih]
      rfl

/-! ### Places -/

section

variable {front : List Char} {cursor opening closing : Nat}

theorem placed_append (front back : List Char) :
    placed (front ++ back) = placed front ++
      place (comment front) (waiting front) (byteLength front) back := by
  rw [placed, place_append, Nat.zero_add]
  rfl

theorem offset_of_mem_place {comment : Bool} {stack : List Nat} {offset : Nat} {text : List Char}
    {p : Placed} (h : p ∈ place comment stack offset text) :
    offset ≤ p.offset ∧ p.offset < offset + byteLength text := by
  induction text generalizing comment stack offset with
  | nil => cases h
  | cons c rest ih =>
      have hc := c.utf8Size_pos
      rw [place_cons] at h
      rw [byteLength_cons]
      rcases List.mem_cons.mp h with rfl | hrest
      · exact ⟨Nat.le_refl _, by dsimp only; omega⟩
      · have hbounds := ih hrest
        omega

theorem lt_of_mem_waiting (h : opening ∈ waiting front) : opening < byteLength front := by
  induction front using List.reverseRecOn with
  | nil => cases h
  | append_singleton front c ih =>
      have hc := c.utf8Size_pos
      rw [waiting_concat] at h
      rw [byteLength_append, byteLength_cons, byteLength_nil]
      rcases mem_stackAfter h with hbefore | ⟨-, rfl⟩
      · have hlt := ih hbefore
        omega
      · omega

end

/-! ### Ink -/

section

variable {line line' : List Placed} {pair : Option (Nat × Nat)} {opening closing : Nat}

theorem ink_append : ink pair (line ++ line') = ink pair line ++ ink pair line' :=
  List.flatMap_append

theorem ink_singleton (p : Placed) : ink pair [p] = (paint p.char (p.style pair)).toList :=
  List.flatMap_singleton ..

/-- Characters that do not stand in the pair are not lit. -/
theorem style_eq_none {p : Placed} (hopening : p.offset ≠ opening) (hclosing : p.offset ≠ closing) :
    p.style (some (opening, closing)) = p.style none := by
  unfold Placed.style
  rcases p.role with _ | _ | _ | _ <;> simp [hopening, hclosing]

theorem ink_eq_none (h : ∀ p ∈ line, p.offset ≠ opening ∧ p.offset ≠ closing) :
    ink (some (opening, closing)) line = ink none line := by
  have hink : ∀ p ∈ line, (paint p.char (p.style (some (opening, closing)))).toList =
      (paint p.char (p.style none)).toList :=
    fun p hp => by rw [style_eq_none (h p hp).1 (h p hp).2]
  rw [ink, ink, List.flatMap_def, List.flatMap_def, List.map_congr_left hink]

end

/-! ### One character -/

section

variable {cursor : Nat} {front : List Char} {c : Char} {d : Drawing}

theorem placed_concat (front : List Char) (c : Char) :
    placed (front ++ [c]) =
      placed front ++ [⟨c, byteLength front, roleOf (comment front) (waiting front) c⟩] := by
  rw [placed_append, place_cons]
  rfl

theorem before?_eq_some_iff {cursor opening : Nat} :
    before? cursor = some opening ↔ cursor = opening + 1 := by
  cases cursor <;> simp [before?]

/-- A character that lights no pair. -/
theorem pairIn_concat (h : ∀ opening, roleOf (comment front) (waiting front) c = .closes opening →
      cursor ≠ opening + 1 ∧ cursor ≠ byteLength front + 1) :
    pairIn cursor (front ++ [c]) = pairIn cursor front := by
  unfold pairIn
  rw [placed_concat]
  cases cursor with
  | zero => rfl
  | succ before =>
      unfold lit? pairAt?
      dsimp only
      rw [List.findSome?_append]
      rcases hrole : roleOf (comment front) (waiting front) c with _ | _ | opening | _
      case closes =>
        have hapart := h opening hrole
        simp only [ne_eq, Nat.succ_inj] at hapart
        simp [Ne.symm hapart.1, Ne.symm hapart.2]
      all_goals simp

/-- A closing parenthesis that lights its pair: nothing was lit before. -/
theorem pairIn_closing {opening : Nat}
    (h : Lit (front ++ [')']) cursor opening (byteLength front)) :
    pairIn cursor (front ++ [')']) = some (opening, byteLength front) ∧
      pairIn cursor front = none := by
  refine ⟨lit?_eq_some_iff.mpr h, ?_⟩
  rcases hpair : pairIn cursor front with _ | ⟨opening', closing'⟩
  · rfl
  · obtain ⟨hpartners, hmeet⟩ := lit?_eq_some_iff.mp hpair
    have hlit : Lit (front ++ [')']) cursor opening' closing' := ⟨hpartners.append _, hmeet⟩
    exact absurd (hlit.unique h).2 (Nat.ne_of_lt hpartners.closing_lt)

/-- What comes after a front is outside the pair that is lit in it. -/
theorem apart_of_pairIn {opening closing : Nat}
    (h : pairIn cursor front = some (opening, closing)) :
    byteLength front ≠ opening ∧ byteLength front ≠ closing := by
  obtain ⟨hpartners, -⟩ := lit?_eq_some_iff.mp h
  have hlt := hpartners.lt
  have hclosing := hpartners.closing_lt
  omega

/-- A character that lights no pair is drawn as it is, if it is in no comment and not unmatched. -/
theorem style_eq_bare {role : Role} (hcomment : role ≠ .comment) (hunmatched : role ≠ .unmatched) :
    Placed.style (pairIn cursor front) ⟨c, byteLength front, role⟩ = .bare := by
  rcases hpair : pairIn cursor front with _ | ⟨opening, closing⟩
  · cases role <;> simp_all [Placed.style]
  · obtain ⟨hopening, hclosing⟩ := apart_of_pairIn hpair
    rw [style_eq_none hopening hclosing]
    cases role <;> simp_all [Placed.style]

/-- A character that lights no pair is drawn behind what has been drawn. -/
theorem Drawing.Shows.concat {d' : Drawing} (h : d.Shows cursor front) (style : Style)
    (hpair : pairIn cursor (front ++ [c]) = pairIn cursor front)
    (hstyle : Placed.style (pairIn cursor front)
      ⟨c, byteLength front, roleOf (Entry.comment front) (waiting front) c⟩ = style)
    (hcomment : d'.comment = commentAfter (Entry.comment front) c)
    (hstack : d'.stack.map Prod.fst =
      stackAfter (Entry.comment front) (waiting front) (byteLength front) c)
    (hplaces : ∀ entry ∈ d'.stack, entry ∈ d.stack ∨
      c = '(' ∧ Entry.comment front = false ∧ entry = (byteLength front, byteLength d.drawn))
    (hdrawn : d'.drawn = d.drawn ++ (paint c style).toList) : d'.Shows cursor (front ++ [c]) where
  comment := by rw [hcomment, comment_concat]
  stack := by rw [hstack, waiting_concat]
  drawn := by rw [hdrawn, h.drawn, hpair, placed_concat, ink_append, ink_singleton, hstyle]
  places entry hentry := by
    rw [hpair]
    rcases hplaces entry hentry with hbefore | ⟨rfl, hfront, rfl⟩
    · obtain ⟨before, inside, rfl, hopening, hplace⟩ := h.places entry hbefore
      exact ⟨before, inside ++ [c], by simp, hopening, hplace⟩
    · exact ⟨front, [], rfl, hfront, by rw [h.drawn]⟩

/-- A front of a line from one of its opening parentheses on. -/
theorem placed_opening {before : List Char} (h : comment before = false) (inside : List Char) :
    placed (before ++ '(' :: inside) =
      placed before ++ [⟨'(', byteLength before, .other⟩] ++
        place false (byteLength before :: waiting before) (byteLength before + '('.utf8Size)
          inside := by
  rw [placed_append, place_cons, h, List.append_assoc]
  rfl

/-- The ink of a front that is cut at one of its opening parentheses, when this pair is lit and the
other parenthesis of the pair comes later. -/
theorem ink_lit {before inside : List Char} (h : comment before = false) :
    ink (some (byteLength before, byteLength (before ++ '(' :: inside)))
        (placed (before ++ '(' :: inside)) =
      ink none (placed before) ++ (paint '(' .opening).toList ++
        ink none (place false (byteLength before :: waiting before)
          (byteLength before + '('.utf8Size) inside) := by
  have hlength : byteLength (before ++ '(' :: inside) =
      byteLength before + '('.utf8Size + byteLength inside := by
    rw [byteLength_append, byteLength_cons, Nat.add_assoc]
  have hpos := '('.utf8Size_pos
  have hfront : ∀ p ∈ placed before, p.offset ≠ byteLength before ∧
      p.offset ≠ byteLength (before ++ '(' :: inside) := by
    intro p hp
    have hbounds := offset_of_mem_place hp
    omega
  have hinside : ∀ p ∈ place false (byteLength before :: waiting before)
      (byteLength before + '('.utf8Size) inside, p.offset ≠ byteLength before ∧
        p.offset ≠ byteLength (before ++ '(' :: inside) := by
    intro p hp
    have hbounds := offset_of_mem_place hp
    omega
  rw [placed_opening h, ink_append, ink_append, ink_eq_none hfront, ink_eq_none hinside,
    ink_singleton]
  simp [Placed.style]

/-- **A closing parenthesis that lights its pair** is drawn in blue, and the sequences of its
partner are put in where that has been drawn. -/
theorem Drawing.Shows.light (h : d.Shows cursor front) {opening place : Nat}
    {outer : List (Nat × Nat)} (hstack : d.stack = (opening, place) :: outer)
    (hlit : Lit (front ++ [')']) cursor opening (byteLength front)) :
    ∃ drawn, replaceByte? place (paint '(' .opening).toList
        (d.drawn ++ (paint ')' .closing).toList) = some drawn ∧
      Drawing.Shows cursor (front ++ [')']) { d with stack := outer, drawn } := by
  obtain ⟨hpair', hpair⟩ := pairIn_closing hlit
  have hcomment : Entry.comment front = false := by
    obtain ⟨front', back, hline, hin, -, hclosing⟩ := hlit.1
    obtain ⟨rfl, -⟩ := append_inj_of_byteLength hline hclosing
    exact (not_inComment_iff (by decide)).mp hin
  have hwaiting : waiting front = opening :: outer.map Prod.fst := by
    rw [← h.stack, hstack]
    rfl
  obtain ⟨before, inside, rfl, hbefore, hentry⟩ := h.places (opening, place) (by simp [hstack])
  obtain ⟨rfl, rfl⟩ := Prod.mk.inj hentry
  have hdrawn : d.drawn ++ (paint ')' .closing).toList = ink none (placed before) ++ '(' ::
      (ink none (place false (byteLength before :: waiting before)
        (byteLength before + '('.utf8Size) inside) ++ (paint ')' .closing).toList) := by
    rw [h.drawn, hpair, placed_opening hbefore, ink_append, ink_append, ink_singleton]
    simp [Placed.style, paint, Style.sequence?]
  have hreplaced := replaceByte?_append (rfl : '('.utf8Size = 1) (ink none (placed before))
    (paint '(' .opening).toList (ink none (place false (byteLength before :: waiting before)
      (byteLength before + '('.utf8Size) inside) ++ (paint ')' .closing).toList)
  rw [hpair, hdrawn]
  refine ⟨_, hreplaced, ?_, ?_, ?_, ?_⟩
  · dsimp only
    rw [h.comment, comment_concat, hcomment]
    rfl
  · rw [waiting_concat, hcomment, hwaiting]
    rfl
  · have hrole : roleOf false (byteLength before :: outer.map Prod.fst) ')' =
        .closes (byteLength before) := rfl
    have hstyle : Placed.style (some (byteLength before, byteLength (before ++ '(' :: inside)))
        ⟨')', byteLength (before ++ '(' :: inside), .closes (byteLength before)⟩ = .closing :=
      style_eq_closing_iff.mpr ⟨by simp, by simp, _, rfl, Nat.ne_of_lt hlit.1.lt⟩
    rw [hpair', placed_concat, ink_append, ink_lit hbefore, ink_singleton, hcomment, hwaiting,
      hrole, hstyle, ← List.append_assoc]
  · intro entry hentry
    obtain ⟨start, middle, hfront, hstart, rfl⟩ :=
      h.places entry (hstack ▸ List.mem_cons_of_mem _ hentry)
    refine ⟨start, middle ++ [')'], by rw [hfront]; simp, hstart, ?_⟩
    -- What waits below on the stack stands in front of the pair.
    have hbelow : byteLength start < byteLength before := by
      obtain ⟨before', inside', -, -, -, hopening, houter⟩ :=
        innermost_of_waiting hcomment hwaiting
      have hmem : byteLength start ∈ waiting before' :=
        houter ▸ List.mem_map_of_mem hentry
      exact hopening ▸ lt_of_mem_waiting hmem
    have hapart : ∀ p ∈ placed start, p.offset ≠ byteLength before ∧
        p.offset ≠ byteLength (before ++ '(' :: inside) := by
      intro p hp
      have hbounds := offset_of_mem_place hp
      rw [byteLength_append]
      omega
    rw [hpair', hpair, ink_eq_none hapart]

/-- A character of a comment. -/
theorem Drawing.Shows.add_comment (h : d.Shows cursor front) (hin : d.comment = true ∨ c = ';') :
    ∃ d', d.add? (before? cursor) (byteLength front) c = some d' ∧
      d'.Shows cursor (front ++ [c]) := by
  have hadd : d.add? (before? cursor) (byteLength front) c = some { d with
      comment := c != '\n', drawn := d.drawn ++ (paint c .comment).toList } := by
    simp [Drawing.add?, hin]
  rw [h.comment] at hin
  have hrole : roleOf (Entry.comment front) (waiting front) c = .comment :=
    roleOf_eq_comment_iff.mpr hin
  refine ⟨_, hadd, h.concat .comment (pairIn_concat (by simp [hrole])) (by rw [hrole]; rfl) ?_ ?_
    (fun entry hentry => .inl hentry) rfl⟩
  · simp [commentAfter, hin]
  · simp [stackAfter, hin, h.stack]

/-- A closing parenthesis outside comments: it closes nothing, or lights its pair, or does not. -/
theorem Drawing.Shows.add_closing (h : d.Shows cursor front) (hcomment : d.comment = false) :
    ∃ d', d.add? (before? cursor) (byteLength front) ')' = some d' ∧
      d'.Shows cursor (front ++ [')']) := by
  have hfront : Entry.comment front = false := h.comment ▸ hcomment
  have hafter : commentAfter (Entry.comment front) ')' = false := by
    rw [hfront]
    rfl
  have hwaiting := h.stack
  rcases hstack : d.stack with _ | ⟨⟨opening, place⟩, outer⟩
  · rw [hstack, List.map_nil] at hwaiting
    have hrole : roleOf (Entry.comment front) (waiting front) ')' = .unmatched := by
      rw [hfront, ← hwaiting]
      rfl
    have hadd : d.add? (before? cursor) (byteLength front) ')' = some { d with
        drawn := d.drawn ++ (paint ')' .unmatched).toList } := by
      simp [Drawing.add?, hcomment, hstack]
    refine ⟨_, hadd, h.concat .unmatched (pairIn_concat (by simp [hrole])) (by rw [hrole]; rfl)
      (hcomment.trans hafter.symm) ?_ (fun entry hentry => .inl hentry) rfl⟩
    simp [stackAfter, hstack, ← hwaiting]
  rw [hstack, List.map_cons] at hwaiting
  have hrole : roleOf (Entry.comment front) (waiting front) ')' = .closes opening := by
    rw [hfront, ← hwaiting]
    rfl
  by_cases hmeet : cursor = opening + 1 ∨ cursor = byteLength front + 1
  · obtain ⟨-, hin, hwaits⟩ := roleOf_eq_closes_iff.mp hrole
    have hpartners : Partners (front ++ [')']) opening (byteLength front) :=
      ⟨front, [], rfl, hin, hwaits, rfl⟩
    obtain ⟨drawn, hreplace, hshows⟩ := h.light hstack ⟨hpartners, hmeet⟩
    refine ⟨_, ?_, hshows⟩
    simp [Drawing.add?, hcomment, hstack, before?_eq_some_iff, hmeet, hreplace]
  · have hadd : d.add? (before? cursor) (byteLength front) ')' = some { d with
        stack := outer, drawn := d.drawn ++ [')'] } := by
      simp [Drawing.add?, hcomment, hstack, before?_eq_some_iff, hmeet]
    have hpair : pairIn cursor (front ++ [')']) = pairIn cursor front := by
      refine pairIn_concat fun other hother => ?_
      obtain rfl := Role.closes.inj (hrole.symm.trans hother)
      exact not_or.mp hmeet
    have hstyle : Placed.style (pairIn cursor front) ⟨')', byteLength front,
        roleOf (Entry.comment front) (waiting front) ')'⟩ = .bare := by
      rw [hrole]
      exact style_eq_bare (by simp) (by simp)
    refine ⟨_, hadd, h.concat .bare hpair hstyle (hcomment.trans hafter.symm) ?_ ?_
      (by simp [paint, Style.sequence?])⟩
    · simp [stackAfter, hfront, ← hwaiting]
    · exact fun entry hentry => .inl (hstack ▸ List.mem_cons_of_mem _ hentry)

/-- Any other character is drawn as it is, and an opening parenthesis waits from now on. -/
theorem Drawing.Shows.add_other (h : d.Shows cursor front) (hcomment : d.comment = false)
    (hsemicolon : c ≠ ';') (hclosing : c ≠ ')') :
    ∃ d', d.add? (before? cursor) (byteLength front) c = some d' ∧
      d'.Shows cursor (front ++ [c]) := by
  have hfront : Entry.comment front = false := h.comment ▸ hcomment
  have hafter : commentAfter (Entry.comment front) c = false := by
    simp [commentAfter, hfront, hsemicolon]
  have hrole : roleOf (Entry.comment front) (waiting front) c = .other := by
    simp [roleOf, hfront, hsemicolon, hclosing]
  have hpair : pairIn cursor (front ++ [c]) = pairIn cursor front :=
    pairIn_concat (by simp [hrole])
  have hstyle : Placed.style (pairIn cursor front)
      ⟨c, byteLength front, roleOf (Entry.comment front) (waiting front) c⟩ = .bare := by
    rw [hrole]
    exact style_eq_bare (by simp) (by simp)
  by_cases hopening : c = '('
  · subst hopening
    have hadd : d.add? (before? cursor) (byteLength front) '(' = some { d with
        stack := (byteLength front, byteLength d.drawn) :: d.stack
        drawn := d.drawn ++ ['('] } := by
      simp [Drawing.add?, hcomment]
    refine ⟨_, hadd, h.concat .bare hpair hstyle (hcomment.trans hafter.symm) ?_ ?_
      (by simp [paint, Style.sequence?])⟩
    · simp [stackAfter, hfront, h.stack]
    · intro entry hentry
      exact (List.mem_cons.mp hentry).symm.imp_right fun hnew => ⟨rfl, hfront, hnew⟩
  · have hadd : d.add? (before? cursor) (byteLength front) c =
        some { d with drawn := d.drawn ++ [c] } := by
      simp [Drawing.add?, hcomment, hsemicolon, hopening, hclosing]
    refine ⟨_, hadd, h.concat .bare hpair hstyle (hcomment.trans hafter.symm) ?_
      (fun entry hentry => .inl hentry) (by simp [paint, Style.sequence?])⟩
    simp [stackAfter, hfront, h.stack, hopening, hclosing]

/-- **One character keeps it**, and never fails. -/
theorem Drawing.Shows.add (h : d.Shows cursor front) (c : Char) :
    ∃ d', d.add? (before? cursor) (byteLength front) c = some d' ∧
      d'.Shows cursor (front ++ [c]) := by
  by_cases hin : d.comment = true ∨ c = ';'
  · exact h.add_comment hin
  rw [not_or, Bool.not_eq_true] at hin
  by_cases hclosing : c = ')'
  · subst hclosing
    exact h.add_closing hin.1
  · exact h.add_other hin.1 hin.2 hclosing

end

/-! ### The whole line -/

/-- **A line keeps it**, and drawing it never fails. -/
theorem Drawing.Shows.addAll {cursor : Nat} {front : List Char} {d : Drawing}
    (h : d.Shows cursor front) (back : List Char) :
    ∃ d', d.addAll? (before? cursor) (byteLength front) back = some d' ∧
      d'.Shows cursor (front ++ back) := by
  induction back generalizing front d with
  | nil => exact ⟨d, rfl, by rwa [List.append_nil]⟩
  | cons c back ih =>
      obtain ⟨next, hnext, hshows⟩ := h.add c
      obtain ⟨last, hlast, hall⟩ := ih hshows
      rw [byteLength_append, byteLength_cons, byteLength_nil, Nat.add_zero] at hlast
      rw [List.append_assoc] at hall
      refine ⟨last, ?_, hall⟩
      rw [Drawing.addAll?, hnext]
      exact hlast

/-- **Drawing a line in one pass never fails**, and gives the line with its colour sequences. -/
theorem draw?_eq_render (line : String) (cursor : Nat) :
    draw? line cursor = some (render line cursor) := by
  have hempty : Drawing.Shows cursor [] ⟨false, [], []⟩ := {
    comment := rfl
    stack := rfl
    drawn := rfl
    places := by simp }
  obtain ⟨d, hd, hshows⟩ := hempty.addAll line.toList
  have hdrawn : String.ofList d.drawn = render line cursor := by
    apply String.toList_injective
    rw [hshows.drawn, render, String.toList_join, styles_eq_map, String.toList_ofList, ink,
      List.nil_append, List.map_map, List.flatMap_map]
    rfl
  have hall : Drawing.addAll? (before? cursor) 0 ⟨false, [], []⟩ line.toList = some d := hd
  rw [draw?, hall]
  exact congrArg some hdrawn

/-! ### What is drawn -/

/-- A part of what is drawn. -/
inductive Part where
  /-- A colour sequence. -/
  | sequence (text : String)
  /-- A character of the line. -/
  | character (c : Char)

/-- The text of a part. -/
def Part.text : Part → String
  | sequence text => text
  | character c => String.singleton c

/-- The character of a part. A sequence has none. -/
def Part.character? : Part → Option Char
  | sequence _ => none
  | character c => some c

/-- The parts of a character in its style. -/
def parts (c : Char) (style : Style) : List Part :=
  match style.sequence? with
  | none => [.character c]
  | some text => [.sequence text, .character c, .sequence "\x1b[0m"]

/-- A text without its colour sequences, each from an escape character up to the next `m`. -/
def uncoloured (within : Bool) : List Char → List Char
  | [] => []
  | c :: rest =>
    if within then uncoloured (c != 'm') rest
    else if c = '\x1b' then uncoloured true rest
    else c :: uncoloured false rest

theorem join_parts (c : Char) (style : Style) :
    String.join ((parts c style).map Part.text) = paint c style := by
  apply String.toList_injective
  cases style <;> simp [parts, paint, Style.sequence?, Part.text]

theorem filterMap_parts (c : Char) (style : Style) :
    (parts c style).filterMap Part.character? = [c] := by
  cases style <;> rfl

theorem uncoloured_paint {c : Char} (hc : c ≠ '\x1b') (style : Style) (rest : List Char) :
    uncoloured false ((paint c style).toList ++ rest) = c :: uncoloured false rest := by
  cases style <;> simp [paint, Style.sequence?, uncoloured, hc]

section

variable (styled : List (Char × Style))

theorem join_flatMap_parts :
    String.join ((styled.flatMap fun (c, style) => parts c style).map Part.text) =
      String.join (styled.map fun (c, style) => paint c style) := by
  induction styled with
  | nil => rfl
  | cons entry styled ih =>
      rw [List.flatMap_cons, List.map_append, String.join_append, ih, join_parts, List.map_cons,
        String.join_cons]

theorem filterMap_flatMap_parts :
    (styled.flatMap fun (c, style) => parts c style).filterMap Part.character? =
      styled.map Prod.fst := by
  induction styled with
  | nil => rfl
  | cons entry styled ih =>
      rw [List.flatMap_cons, List.filterMap_append, ih, filterMap_parts]
      rfl

theorem uncoloured_join (h : '\x1b' ∉ styled.map Prod.fst) :
    uncoloured false (String.join (styled.map fun (c, style) => paint c style)).toList =
      styled.map Prod.fst := by
  induction styled with
  | nil => rfl
  | cons entry styled ih =>
      rw [List.map_cons, List.mem_cons, not_or] at h
      rw [List.map_cons, String.join_cons, String.toList_append, uncoloured_paint (Ne.symm h.1),
        ih h.2]
      rfl

end

/-- What is drawn of a line, with the style of each character, is as it is to be. -/
structure Coloured (line : String) (cursor : Nat) (styled : List (Char × Style))
    (drawn : String) : Prop where
  /-- Each character of the line is drawn once, in order, with the sequences of its style. -/
  painted : drawn = String.join (styled.map fun (c, style) => paint c style)
  characters : styled.map Prod.fst = line.toList
  /-- Each is in the style that it is to have. -/
  fits : ∀ front c back, line.toList = front ++ c :: back →
    ∃ style, styled[front.length]? = some (c, style) ∧ style.Fits line.toList cursor front c
  /-- At most one pair is blue. -/
  pair : ∀ opening closing opening' closing', Lit line.toList cursor opening closing →
    Lit line.toList cursor opening' closing' → opening = opening' ∧ closing = closing'
  /-- Without the sequences that are put in, it is the line. -/
  deleted : drawn = String.join ((styled.flatMap fun (c, style) => parts c style).map Part.text) ∧
    (styled.flatMap fun (c, style) => parts c style).filterMap Part.character? = line.toList
  /-- If there is none in the line itself, all that look like sequences can be deleted. -/
  plain : '\x1b' ∉ line.toList → uncoloured false drawn.toList = line.toList

theorem coloured (line : String) (cursor : Nat) :
    Coloured line cursor (styles line.toList cursor) (render line cursor) where
  painted := rfl
  characters := map_fst_styles line.toList cursor
  fits _ _ _ hline := exists_style_fits hline
  pair _ _ _ _ h h' := h.unique h'
  deleted := by
    rw [join_flatMap_parts, filterMap_flatMap_parts, map_fst_styles]
    exact ⟨rfl, rfl⟩
  plain h := by
    rw [← map_fst_styles line.toList cursor] at h
    rw [render, uncoloured_join _ h, map_fst_styles]

/-- **How a line is drawn**: it never fails, and each character is as it is to be. -/
theorem draw?_coloured (line : String) (cursor : Nat) :
    ∃ styled drawn, draw? line cursor = some drawn ∧ Coloured line cursor styled drawn :=
  ⟨_, _, draw?_eq_render line cursor, coloured line cursor⟩

/-- A pair that is lit around a character of two bytes, when the cursor stands behind its opening
parenthesis. -/
theorem draw?_coloured_pair :
    Lit "(é))".toList 1 0 3 ∧ '\x1b' ∉ "(é))".toList ∧
      ∃ (styled : List (Char × Style)) (drawn : String), draw? "(é))" 1 = some drawn ∧
        styled[0]? = some ('(', Style.opening) ∧
          uncoloured false drawn.toList = "(é))".toList := by
  have hinside : Balanced ['é'] := .other (by decide) (by decide) (by decide) .nil
  have hwaits : Waits ['(', 'é'] 0 :=
    ⟨[], ['é'], rfl, (not_inComment_iff (by decide)).mpr rfl, hinside, rfl⟩
  have hlit : Lit "(é))".toList 1 0 3 :=
    ⟨⟨['(', 'é'], [')'], rfl, (not_inComment_iff (by decide)).mpr rfl, hwaits, rfl⟩, .inl rfl⟩
  have hplain : '\x1b' ∉ "(é))".toList := by decide
  obtain ⟨styled, drawn, hdrawn, hcoloured⟩ := draw?_coloured "(é))" 1
  obtain ⟨style, hstyle, hfits⟩ := hcoloured.fits [] '(' ['é', ')', ')'] rfl
  obtain rfl : style = .opening := hfits.opening.mpr ⟨3, hlit⟩
  exact ⟨hlit, hplain, styled, drawn, hdrawn, hstyle, hcoloured.plain hplain⟩

/-- The parenthesis behind that pair closes nothing. -/
example : draw? "(é))" 1 =
    some "\x1b[1;34m(\x1b[0mé\x1b[34m)\x1b[0m\x1b[31m)\x1b[0m" := by
  decide

end Highlight

end FlatLisp
