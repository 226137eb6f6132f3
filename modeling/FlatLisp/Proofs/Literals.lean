import FlatLisp.Proofs.Numbers

/-!
# What a Decimal Literal Is

A decimal literal is a sign or none, then a mantissa, then an exponent or none. The mantissa is a
row of digits, which may have a point behind it and further digits behind that, or a point and
digits. The exponent is the letter `e` in either case, a sign or none, and digits.

This is the grammar, and a text is read as a literal exactly if it has this form. The reader takes
the longest parts that it can, from the left, so that the one thing to see is where each of its
parts ends: what comes next in the grammar never goes on with the part before it.

## Main definitions

* `Decimal.IsSign`, `Decimal.IsMantissa`, `Decimal.IsExponent`, `Decimal.IsLiteral`: the grammar.

## Main results

* `Decimal.Literal.ofChars?_of_parts`: what a literal of some parts says.
* `Decimal.Literal.isSome_ofChars?`: the texts that are read as literals.
-/

namespace FlatLisp.Decimal

/-- A row of digits, perhaps empty. -/
def IsDigits (text : List Char) : Prop := ∀ c ∈ text, c.isDigit = true

/-- A sign, or none. -/
inductive IsSign : List Char → Prop
  | none : IsSign []
  | plus : IsSign ['+']
  | minus : IsSign ['-']

/-- The digits of a literal, with a point or without one. -/
inductive IsMantissa : List Char → Prop
  | whole {whole : List Char} : whole ≠ [] → IsDigits whole → IsMantissa whole
  | pointed {whole fraction : List Char} : whole ≠ [] → IsDigits whole → IsDigits fraction →
      IsMantissa (whole ++ '.' :: fraction)
  | fraction {fraction : List Char} : fraction ≠ [] → IsDigits fraction →
      IsMantissa ('.' :: fraction)

/-- An exponent, or none. -/
inductive IsExponent : List Char → Prop
  | none : IsExponent []
  | some {mark : Char} {sign digits : List Char} : mark = 'e' ∨ mark = 'E' → IsSign sign →
      digits ≠ [] → IsDigits digits → IsExponent (mark :: (sign ++ digits))

/-- A decimal literal. -/
def IsLiteral (text : List Char) : Prop :=
  ∃ sign mantissa exponent, IsSign sign ∧ IsMantissa mantissa ∧ IsExponent exponent ∧
    text = sign ++ (mantissa ++ exponent)

/-! ### Where the parts end -/

/-- A digit is no sign and no point. -/
theorem IsDigits.ne_of_head? {text : List Char} (h : IsDigits text) {c : Char}
    (hc : c ∈ text.head?) : c ≠ '+' ∧ c ≠ '-' ∧ c ≠ '.' := by
  have hdigit := h c (List.mem_of_mem_head? hc)
  refine ⟨?_, ?_, ?_⟩ <;> rintro rfl <;> cases hdigit

/-- An exponent begins with its letter. -/
theorem IsExponent.ne_of_head? {text : List Char} (h : IsExponent text) {c : Char}
    (hc : c ∈ text.head?) : c.isDigit = false ∧ c ≠ '.' ∧ c ≠ '+' ∧ c ≠ '-' := by
  cases h with
  | none => cases hc
  | some hmark =>
      cases hc
      rcases hmark with rfl | rfl <;> decide

namespace Literal

section

variable {sign text front back whole fraction rest : List Char}

/-- A sign ends in front of what does not begin with one. -/
theorem splitSign_append (hsign : IsSign sign) (hback : ∀ c ∈ back.head?, c ≠ '+' ∧ c ≠ '-') :
    splitSign (sign ++ back) = (sign == ['-'], back) := by
  cases hsign with
  | plus => rfl
  | minus => rfl
  | none =>
      rw [List.nil_append, splitSign]
      · rfl
      · rintro rest rfl
        exact (hback '-' rfl).2 rfl
      · rintro rest rfl
        exact (hback '+' rfl).1 rfl

/-- A row of digits ends in front of what does not begin with one. -/
theorem span_append (hfront : IsDigits front) (hback : ∀ c ∈ back.head?, c.isDigit = false) :
    (front ++ back).span Char.isDigit = (front, back) := by
  have hstop : back.takeWhile Char.isDigit = [] ∧ back.dropWhile Char.isDigit = back := by
    cases back with
    | nil => exact ⟨rfl, rfl⟩
    | cons c back =>
        have hc : ¬ c.isDigit = true := by simp [hback c rfl]
        exact ⟨List.takeWhile_cons_of_neg hc, List.dropWhile_cons_of_neg hc⟩
  rw [List.span_eq_takeWhile_dropWhile, List.takeWhile_append_of_pos hfront,
    List.dropWhile_append_of_pos hfront, hstop.1, hstop.2, List.append_nil]

theorem splitFraction_point (hfraction : IsDigits fraction)
    (hrest : ∀ c ∈ rest.head?, c.isDigit = false) :
    splitFraction ('.' :: (fraction ++ rest)) = (fraction, rest) :=
  span_append hfraction hrest

theorem splitFraction_of_head? (h : ∀ c ∈ text.head?, c ≠ '.') :
    splitFraction text = ([], text) := by
  rw [splitFraction]
  rintro rest rfl
  exact h '.' rfl rfl

/-! ### What the parts say -/

/-- The exponent that a text spells. -/
theorem isSome_exponent?_of_isExponent (h : IsExponent rest) : (exponent? rest).isSome = true := by
  cases h with
  | none => rfl
  | @some mark sign digits hmark hsign hne hdigits =>
      have hsplit : splitSign (sign ++ digits) = (sign == ['-'], digits) :=
        splitSign_append hsign fun c hc =>
          ⟨(hdigits.ne_of_head? hc).1, (hdigits.ne_of_head? hc).2.1⟩
      have hcond : ((mark == 'e' || mark == 'E') && !digits.isEmpty && digits.all Char.isDigit) =
          true := by
        rw [Bool.and_eq_true, Bool.and_eq_true, List.all_eq_true]
        exact ⟨⟨by simpa using hmark, by simpa using hne⟩, hdigits⟩
      simp only [exponent?, hsplit, hcond, if_true, Option.isSome_some]

/-- **What a literal says**, by its parts: the sign, all digits as one number, and the exponent,
less one for each digit behind the point. -/
theorem ofChars?_of_parts (hsign : IsSign sign) (hwhole : IsDigits whole)
    (hback : ∀ c ∈ back.head?, c.isDigit = false ∧ c ≠ '+' ∧ c ≠ '-')
    (hfraction : splitFraction back = (fraction, rest)) (hne : ¬ (whole = [] ∧ fraction = [])) :
    ofChars? (sign ++ (whole ++ back)) = (exponent? rest).map fun exponent =>
      ⟨sign == ['-'], spelledNat (whole ++ fraction), exponent - fraction.length⟩ := by
  have hunsigned : ∀ c ∈ (whole ++ back).head?, c ≠ '+' ∧ c ≠ '-' := by
    intro c hc
    cases whole with
    | nil => exact (hback c hc).2
    | cons d whole => exact ⟨(hwhole.ne_of_head? hc).1, (hwhole.ne_of_head? hc).2.1⟩
  have hspan : (whole ++ back).span Char.isDigit = (whole, back) :=
    span_append hwhole fun c hc => (hback c hc).1
  have hempty : ¬ (whole.isEmpty && fraction.isEmpty) = true := by simpa using hne
  simp only [ofChars?, splitSign_append hsign hunsigned, hspan, hfraction, if_neg hempty]

/-- Whole digits are read as their number. -/
theorem ofChars?_whole (hsign : IsSign sign) (hne : whole ≠ []) (hwhole : IsDigits whole)
    (hrest : IsExponent rest) :
    ofChars? (sign ++ (whole ++ rest)) = (exponent? rest).map fun exponent =>
      ⟨sign == ['-'], spelledNat whole, exponent⟩ := by
  have hfraction : splitFraction rest = ([], rest) :=
    splitFraction_of_head? fun c hc => (hrest.ne_of_head? hc).2.1
  rw [ofChars?_of_parts hsign hwhole (fun c hc => ?_) hfraction fun h => hne h.1]
  · simp
  · exact ⟨(hrest.ne_of_head? hc).1, (hrest.ne_of_head? hc).2.2⟩

/-- Digits around a point are read as one number, which is divided by ten for each digit behind the
point. -/
theorem ofChars?_pointed (hsign : IsSign sign) (hwhole : IsDigits whole)
    (hfraction : IsDigits fraction) (hne : ¬ (whole = [] ∧ fraction = []))
    (hrest : IsExponent rest) :
    ofChars? (sign ++ (whole ++ '.' :: (fraction ++ rest))) =
      (exponent? rest).map fun exponent =>
        ⟨sign == ['-'], spelledNat (whole ++ fraction), exponent - fraction.length⟩ := by
  have hsplit : splitFraction ('.' :: (fraction ++ rest)) = (fraction, rest) :=
    splitFraction_point hfraction fun c hc => (hrest.ne_of_head? hc).1
  refine ofChars?_of_parts hsign hwhole ?_ hsplit hne
  rintro c ⟨⟩
  decide

end

/-! ### The texts that are read -/

section

variable {text : List Char}

theorem exists_sign (text : List Char) :
    ∃ sign, IsSign sign ∧ text = sign ++ (splitSign text).2 := by
  unfold splitSign
  split
  · exact ⟨_, .minus, rfl⟩
  · exact ⟨_, .plus, rfl⟩
  · exact ⟨_, .none, rfl⟩

theorem isDigits_span (text : List Char) : IsDigits (text.span Char.isDigit).1 := by
  rw [List.span_eq_takeWhile_dropWhile]
  exact fun _ => List.mem_takeWhile_imp

theorem span_fst_append_snd (text : List Char) :
    (text.span Char.isDigit).1 ++ (text.span Char.isDigit).2 = text := by
  rw [List.span_eq_takeWhile_dropWhile]
  exact List.takeWhile_append_dropWhile

/-- Of the digits behind a point there are none if there is no point. -/
theorem splitFraction_cases (text : List Char) :
    ((splitFraction text).1 = [] ∧ (splitFraction text).2 = text) ∨
      text = '.' :: ((splitFraction text).1 ++ (splitFraction text).2) ∧
        IsDigits (splitFraction text).1 := by
  unfold splitFraction
  split
  · next rest => exact .inr ⟨by rw [span_fst_append_snd], isDigits_span rest⟩
  · exact .inl ⟨rfl, rfl⟩

theorem isExponent_of_isSome_exponent? (h : (exponent? text).isSome = true) : IsExponent text := by
  rcases text with _ | ⟨mark, rest⟩
  · exact .none
  simp only [exponent?] at h
  split at h
  · next hcond =>
      rw [Bool.and_eq_true, Bool.and_eq_true, List.all_eq_true] at hcond
      obtain ⟨⟨hmark, hne⟩, hdigits⟩ := hcond
      obtain ⟨sign, hsign, hrest⟩ := exists_sign rest
      rw [hrest]
      exact .some (by simpa using hmark) hsign (by simpa using hne) hdigits
  · cases h

/-- The reader by the parts that it takes off the text. -/
theorem isSome_ofChars?_iff :
    (ofChars? text).isSome = true ↔
      ¬ (((splitSign text).2.span Char.isDigit).1 = [] ∧
        (splitFraction ((splitSign text).2.span Char.isDigit).2).1 = []) ∧
      (exponent? (splitFraction ((splitSign text).2.span Char.isDigit).2).2).isSome = true := by
  have hguard (whole fraction : List Char) (exponent : Option Int) (f : Int → Literal) :
      (if (whole.isEmpty && fraction.isEmpty) = true then none else exponent.map f).isSome = true ↔
        ¬ (whole = [] ∧ fraction = []) ∧ exponent.isSome = true := by
    split
    · next hempty => exact iff_of_false nofun fun h => h.1 (by simpa using hempty)
    · next hempty => rw [Option.isSome_map, and_iff_right (by simpa using hempty)]
  exact hguard _ _ _ _

/-- What is read as a literal has the form of one. -/
theorem isLiteral_of_isSome_ofChars? (h : (ofChars? text).isSome = true) : IsLiteral text := by
  obtain ⟨hne, hexponent⟩ := isSome_ofChars?_iff.mp h
  obtain ⟨sign, hsign, htext⟩ := exists_sign text
  have hwhole := isDigits_span (splitSign text).2
  have hunsigned := span_fst_append_snd (splitSign text).2
  generalize ((splitSign text).2.span Char.isDigit).1 = whole at *
  generalize ((splitSign text).2.span Char.isDigit).2 = back at *
  have hrest := isExponent_of_isSome_exponent? hexponent
  rcases splitFraction_cases back with ⟨hnone, hback⟩ | ⟨hback, hfraction⟩
  · refine ⟨sign, whole, back, hsign, .whole (fun hnil => hne ⟨hnil, hnone⟩) hwhole, ?_, ?_⟩
    · rwa [hback] at hrest
    · rw [hunsigned, ← htext]
  · generalize (splitFraction back).1 = fraction at *
    generalize (splitFraction back).2 = rest at *
    refine ⟨sign, whole ++ '.' :: fraction, rest, hsign, ?_, hrest, ?_⟩
    · rcases eq_or_ne whole [] with rfl | hwhole'
      · exact .fraction (fun hnil => hne ⟨rfl, hnil⟩) hfraction
      · exact .pointed hwhole' hwhole hfraction
    · rw [List.append_assoc, List.cons_append, ← hback, hunsigned, ← htext]

/-- **A text is read as a literal exactly if it has the form of one.** -/
theorem isSome_ofChars? : (ofChars? text).isSome = true ↔ IsLiteral text := by
  constructor
  · exact isLiteral_of_isSome_ofChars?
  · rintro ⟨sign, mantissa, rest, hsign, hmantissa, hrest, rfl⟩
    have hexponent := isSome_exponent?_of_isExponent hrest
    cases hmantissa with
    | whole hne hwhole => rw [ofChars?_whole hsign hne hwhole hrest, Option.isSome_map, hexponent]
    | pointed hne hwhole hfraction =>
        rw [List.append_assoc, List.cons_append,
          ofChars?_pointed hsign hwhole hfraction (fun h => hne h.1) hrest, Option.isSome_map,
          hexponent]
    | @fraction fraction hne hfraction =>
        have hread :=
          ofChars?_pointed hsign (nofun : IsDigits []) hfraction (fun h => hne h.2) hrest
        rw [List.nil_append] at hread
        rw [List.cons_append, hread, Option.isSome_map, hexponent]

end

end Literal

end FlatLisp.Decimal
