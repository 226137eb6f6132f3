import FlatLisp.Proofs.Rounding
import FlatLisp.Proofs.Trimming

/-!
# The Numbers in Programs

A word that is a decimal literal stands for a number. The numbers that words stand for are all
doubles but what is no number: a literal is rounded to a number, and every other double has a
literal. An infinity has `1e999`, and `m * 2 ^ e` has the literal of its own decimal expansion,
whose digits are found by taking `10 ^ 1100` times the number, which is whole whatever the double.

## Main definitions

* `Decimal.Literal.ofBinary`: the literal of `m * 2 ^ e`.
* `Decimal.Literal.spell`: a text that a literal is read from.

## Main results

* `Decimal.Literal.isNaN_toFloat`: what a literal stands for is a number.
* `Decimal.Literal.magnitude_eq_of_near`: a literal becomes the double that it is near to.
* `Atom.exists_word_of_number`: every number has a word.
-/

namespace FlatLisp

namespace Decimal.Literal

/-! ### What a literal stands for -/

/-- **What a literal stands for is a number.** -/
theorem isNaN_toFloat (l : Literal) : l.toFloat.isNaN = false := by
  have hmagnitude : l.magnitude.isNaN = false := by
    simp only [magnitude]
    split
    · decide
    split
    · decide
    · exact Double.isNaN_ofScientific _ _ _
  rw [toFloat]
  split
  · exact Double.isNaN_neg hmagnitude
  · exact hmagnitude

/-! ### A text of every literal -/

/-- A minus in front, if there is one. -/
def signed (negative : Bool) (text : List Char) : List Char :=
  if negative then '-' :: text else text

/-- A text that a literal is read from: without a point and with an exponent. -/
def spell (l : Literal) : List Char :=
  signed l.negative (Nat.toDigits 10 l.digits ++
    'e' :: signed (l.exponent < 0) (Nat.toDigits 10 l.exponent.natAbs))

theorem splitSign_signed (negative : Bool) {c : Char} (hc : c.isDigit = true) (rest : List Char) :
    splitSign (signed negative (c :: rest)) = (negative, c :: rest) := by
  cases negative with
  | true => rfl
  | false =>
      show splitSign (c :: rest) = _
      rw [splitSign]
      · rintro _ ⟨⟩
        cases hc
      · rintro _ ⟨⟩
        cases hc

theorem exists_toDigits (n : Nat) : ∃ c rest, Nat.toDigits 10 n = c :: rest ∧ c.isDigit = true := by
  obtain ⟨c, rest, h⟩ := List.exists_cons_of_ne_nil (Nat.toDigits_ne_nil (n := n) (b := 10))
  refine ⟨c, rest, h, Nat.isDigit_of_mem_toDigits (b := 10) (n := n) (by decide) (by decide) ?_⟩
  rw [h]
  exact List.mem_cons_self ..

theorem spelledNat_toDigits (n : Nat) : spelledNat (Nat.toDigits 10 n) = n :=
  Nat.ofDigitChars_ten_toDigits

theorem all_isDigit_toDigits (n : Nat) : ∀ c ∈ Nat.toDigits 10 n, c.isDigit = true :=
  fun _ hc => Nat.isDigit_of_mem_toDigits (by decide) (by decide) hc

theorem exponent?_signed (k : Int) :
    exponent? ('e' :: signed (k < 0) (Nat.toDigits 10 k.natAbs)) = some k := by
  obtain ⟨c, rest, h, hc⟩ := exists_toDigits k.natAbs
  have hall := all_isDigit_toDigits k.natAbs
  have hn := spelledNat_toDigits k.natAbs
  rw [h] at hall hn ⊢
  simp only [exponent?, splitSign_signed _ hc, hn, List.all_eq_true.mpr hall]
  have hsign : (if decide (k < 0) = true then -(k.natAbs : Int) else k.natAbs) = k := by
    split <;> simp only [decide_eq_true_eq] at * <;> omega
  rw [hsign]
  rfl

/-- **Every literal is read from a text.** -/
theorem ofChars?_spell (l : Literal) : ofChars? l.spell = some l := by
  obtain ⟨c, rest, h, hc⟩ := exists_toDigits l.digits
  have hall := all_isDigit_toDigits l.digits
  have hn := spelledNat_toDigits l.digits
  have hexponent := exponent?_signed l.exponent
  have hmark : 'e'.isDigit = false := rfl
  rw [spell]
  rw [h] at hall hn ⊢
  generalize signed (l.exponent < 0) (Nat.toDigits 10 l.exponent.natAbs) = tail at hexponent
  have hspan : (c :: rest ++ 'e' :: tail).span Char.isDigit = (c :: rest, 'e' :: tail) := by
    rw [List.span_eq_takeWhile_dropWhile, List.takeWhile_append_of_pos hall,
      List.dropWhile_append_of_pos hall, List.takeWhile_cons_of_neg (by simp [hmark]),
      List.dropWhile_cons_of_neg (by simp [hmark]), List.append_nil]
  have hfraction : splitFraction ('e' :: tail) = ([], 'e' :: tail) := rfl
  have hsign : splitSign (signed l.negative (c :: rest ++ 'e' :: tail)) =
      (l.negative, c :: rest ++ 'e' :: tail) := splitSign_signed _ hc _
  simp only [ofChars?, hsign, hspan, hfraction, hexponent, List.append_nil, hn]
  simp

/-! ### Every number has a literal -/

/-- The literal of `m * 2 ^ e` with its sign, where `e` is at least `-1100`. -/
def ofBinary (negative : Bool) (m : Nat) (e : Int) : Literal :=
  ⟨negative, m * 2 ^ (e + 1100).toNat * 5 ^ 1100, -1100⟩

/-- How many digits a number has tells its size. -/
theorem exists_length_toDigits {d : Nat} (hd : d ≠ 0) :
    ∃ p, (Nat.toDigits 10 d).length = p + 1 ∧ 10 ^ p ≤ d ∧ d < 10 ^ (p + 1) := by
  obtain ⟨p, hp⟩ := Nat.exists_eq_succ_of_ne_zero (Nat.length_toDigits_pos (b := 10) (n := d)).ne'
  refine ⟨p, hp, ?_, ?_⟩
  · rcases Nat.eq_zero_or_pos p with rfl | hpos
    · exact Nat.pos_of_ne_zero hd
    · have hle := Nat.length_toDigits_le_iff (b := 10) (n := d) (by decide) hpos
      rw [← Nat.not_lt, ← hle, hp]
      exact Nat.not_succ_le_self p
  · exact (Nat.length_toDigits_le_iff (by decide) p.succ_pos).mp hp.le

/-- **A literal becomes the double that it is near to.** -/
theorem magnitude_eq_of_near {l : Literal} {m : Nat} {e : Int} (h : Double.Fits m e)
    (hv : Double.Near m e ((l.digits : ℚ) * 10 ^ l.exponent)) :
    l.magnitude = Double.ofParts (.finite .positive m e h.pos) := by
  have hdigits : l.digits ≠ 0 := (hv.digits_pos h).ne'
  obtain ⟨p, hp, hlower, hupper⟩ := exists_length_toDigits hdigits
  obtain ⟨hleast, hgreatest⟩ := hv.bounds h
  have hten : (1 : ℚ) < 10 := by norm_num
  have hunit : (0 : ℚ) < 10 ^ l.exponent := zpow_pos (by norm_num) _
  -- No double is as small or as large as the literals that are not rounded at all.
  have hsmall : -324 < (p + 1 : Nat) + l.exponent := by
    have hpower : (10 : ℚ) ^ (-324 : Int) ≤ 2 ^ (-1075 : Int) := by
      rw [zpow_neg, zpow_neg]
      refine inv_anti₀ (by positivity) ?_
      exact_mod_cast (by decide +kernel : 2 ^ 1075 ≤ 10 ^ 324)
    have hvalue : l.digits * (10 : ℚ) ^ l.exponent < 10 ^ ((p + 1 : Nat) + l.exponent) := by
      rw [zpow_add₀ (by norm_num), zpow_natCast]
      exact mul_lt_mul_of_pos_right (by exact_mod_cast hupper) hunit
    exact (zpow_lt_zpow_iff_right₀ hten).mp ((hpower.trans hleast).trans_lt hvalue)
  have hlarge : p + l.exponent < 309 := by
    have hpower : (2 : ℚ) ^ (1024 : Int) ≤ 10 ^ (309 : Int) := by
      exact_mod_cast (by decide +kernel : 2 ^ 1024 ≤ 10 ^ 309)
    have hvalue : (10 : ℚ) ^ (p + l.exponent) ≤ l.digits * 10 ^ l.exponent := by
      rw [zpow_add₀ (by norm_num), zpow_natCast]
      exact mul_le_mul_of_nonneg_right (by exact_mod_cast hlower) hunit.le
    exact (zpow_lt_zpow_iff_right₀ hten).mp ((hvalue.trans_lt hgreatest).trans_le hpower)
  have hlog : p ≤ l.digits.log2 :=
    (Nat.le_log2 hdigits).mpr ((Nat.pow_le_pow_left (by decide) p).trans hlower)
  rw [magnitude, hp, if_neg, if_neg (by omega)]
  · exact hv.ofScientific h (by omega) (by omega)
  · rw [Bool.or_eq_true, decide_eq_true_eq, decide_eq_true_eq, not_or]
    exact ⟨hdigits, by omega⟩

/-- The decimal expansion of a binary number. -/
theorem expansion_eq (m : Nat) {e : Int} {j k : Nat} (hj : (j : Int) = e + k) :
    ((m * 2 ^ j * 5 ^ k : Nat) : ℚ) * 10 ^ (-(k : Int)) = m * 2 ^ e := by
  have hten : (10 : ℚ) ^ k = 2 ^ k * 5 ^ k := by
    rw [← mul_pow]
    norm_num
  have he : e = (j : Int) - k := by omega
  rw [he, zpow_sub₀ two_ne_zero, zpow_neg, zpow_natCast, zpow_natCast, zpow_natCast, hten]
  push_cast
  field_simp

/-- The literal of a double without its sign is rounded to it, and nothing is lost. -/
theorem magnitude_ofBinary {m : Nat} {e : Int} (h : Double.Fits m e) (negative : Bool) :
    (ofBinary negative m e).magnitude = Double.ofParts (.finite .positive m e h.pos) := by
  have hbits : ((e + 1100).toNat : Int) = e + (1100 : Nat) := by
    have hlower := h.lower
    omega
  have hnear := Double.near_self m e
  rw [← expansion_eq m hbits] at hnear
  exact magnitude_eq_of_near h hnear

/-- A literal stands for a double if it has its sign and its magnitude. -/
theorem toFloat_eq {x : Float} {l : Literal} (hsign : l.negative = Double.signBit x)
    (hmagnitude : l.magnitude = Double.ofParts (Double.parts x).abs) : l.toFloat = x := by
  have hparts := Double.parts_eq x
  rw [toFloat, hsign, hmagnitude]
  split at hparts
  · next hnegative =>
      have hneg : Double.parts (-x) = (Double.parts x).abs := by
        rw [Double.parts_neg, hparts, Double.neg_neg_parts, ← hparts]
      rw [if_pos hnegative, ← hneg, Double.ofParts_parts]
      exact Double.neg_neg x
  · next hnegative => rw [if_neg hnegative, ← hparts, Double.ofParts_parts]

/-- **Every number is what some literal stands for.** -/
theorem exists_toFloat_eq {x : Float} (h : x.isNaN = false) : ∃ l : Literal, l.toFloat = x := by
  rw [Double.isNaN_eq_false_iff] at h
  cases hx : Double.parts x with
  | notANumber => exact absurd hx h
  | infinity s =>
      have hmagnitude : ∀ b, (Literal.mk b 1 999).magnitude =
          Double.ofParts (.infinity .positive) := by decide +kernel
      refine ⟨_, toFloat_eq rfl ((hmagnitude (Double.signBit x)).trans ?_)⟩
      rw [hx]
      rfl
  | zero s =>
      have hmagnitude : ∀ b, (Literal.mk b 0 0).magnitude =
          Double.ofParts (.zero .positive) := by decide +kernel
      refine ⟨_, toFloat_eq rfl ((hmagnitude (Double.signBit x)).trans ?_)⟩
      rw [hx]
      rfl
  | finite s n k hn =>
      have hmagnitude := magnitude_ofBinary (Double.fits_of_parts hx)
      refine ⟨_, toFloat_eq rfl ((hmagnitude (Double.signBit x)).trans ?_)⟩
      rw [hx]
      rfl

end Decimal.Literal

/-! ### Words for numbers -/

/-- What a literal is spelled with parts no words. -/
theorem Token.isWordChar_of_isSpelling {c : Char} (h : Decimal.Literal.isSpelling c = true) :
    isWordChar c = true := by
  by_contra hc
  simp only [isWordChar, isBlank, Bool.not_eq_true', Bool.not_eq_false, Bool.or_eq_true,
    beq_iff_eq, or_assoc] at hc
  rcases hc with rfl | rfl | rfl | rfl | rfl | rfl | rfl | rfl | rfl
  all_goals cases h

namespace Atom

/-- A word stands for a number if it is a literal of it. -/
theorem ofText?_eq_number_iff {word : String} {x : Float} :
    ofText? word = some (.number x) ↔
      ∃ l, Decimal.Literal.ofChars? word.toList = some l ∧ l.toFloat = x := by
  unfold ofText?
  rcases hread : Decimal.Literal.ofChars? word.toList with _ | l
  · simp only [reduceCtorEq, false_and, exists_false, iff_false]
    split
    · simp
    split
    · simp
    split
    · simp
    split
    · simp
    · simp
  · simp

/-- A word for a number is one. -/
theorem isWord_of_number {word : String} {x : Float} (h : ofText? word = some (.number x)) :
    Token.IsWord word := by
  obtain ⟨l, hread, -⟩ := ofText?_eq_number_iff.mp h
  refine ⟨fun hempty => ?_, fun c hc => ?_⟩
  · rw [hempty] at hread
    cases hread
  · exact Token.isWordChar_of_isSpelling (Decimal.Literal.isSpelling_of_ofChars? hread hc)

/-- **Every number has a word.** -/
theorem exists_word_of_number {x : Float} (h : x.isNaN = false) :
    ∃ word, ofText? word = some (.number x) := by
  obtain ⟨l, rfl⟩ := Decimal.Literal.exists_toFloat_eq h
  refine ⟨String.ofList l.spell, ofText?_eq_number_iff.mpr ⟨l, ?_, rfl⟩⟩
  rw [String.toList_ofList]
  exact Decimal.Literal.ofChars?_spell l

end Atom

end FlatLisp
