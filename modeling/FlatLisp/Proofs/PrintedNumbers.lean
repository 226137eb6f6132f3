import FlatLisp.Proofs.Literals
import FlatLisp.Proofs.Shortest

/-!
# Printed Numbers

A finite number is printed with the digits of its shortest decimal, and a point if it needs one.
This text is a literal of the very number, sign and all, so that a program may contain what another
one printed: wherever the point is put, the reader finds the same decimal again, and this one is
rounded to the number.

## Main definitions

* `Layout.printed`: the decimal that is printed for the magnitude of a number.

## Main results

* `Layout.exists_ofChars?_spelled`: a decimal without an exponent is read as the same number.
* `Literal.exists_ofChars?_render`: a printed number is read back.
-/

namespace FlatLisp

namespace Decimal

/-! ### The text that is printed -/

theorem isDigits_replicate (k : Nat) : IsDigits (List.replicate k '0') := fun c hc => by
  rw [List.eq_of_mem_replicate hc]
  rfl

theorem IsDigits.append {front back : List Char} (hfront : IsDigits front)
    (hback : IsDigits back) : IsDigits (front ++ back) := fun c hc =>
  (List.mem_append.mp hc).elim (hfront c) (hback c)

namespace Literal

/-- Zeros behind the digits of a number are factors of ten. -/
theorem spelledNat_append_zeros (d k : Nat) :
    spelledNat (Nat.toDigits 10 d ++ List.replicate k '0') = d * 10 ^ k := by
  show Nat.ofDigitChars 10 _ 0 = _
  rw [Nat.ofDigitChars_append, Nat.ofDigitChars_ten_toDigits, Nat.ofDigitChars_replicate_zero,
    mul_comm]

/-- Zeros in front of the digits of a number do not count. -/
theorem spelledNat_zeros_append (d k : Nat) :
    spelledNat (List.replicate k '0' ++ Nat.toDigits 10 d) = d := by
  show Nat.ofDigitChars 10 _ 0 = _
  rw [Nat.ofDigitChars_append, Nat.ofDigitChars_replicate_zero, mul_zero,
    Nat.ofDigitChars_ten_toDigits]

theorem exists_sign_signed (negative : Bool) (text : List Char) :
    ∃ sign, IsSign sign ∧ signed negative text = sign ++ text ∧ (sign == ['-']) = negative := by
  cases negative with
  | true => exact ⟨['-'], .minus, rfl, rfl⟩
  | false => exact ⟨[], .none, rfl, rfl⟩

end Literal

namespace Layout

open Literal

/-- **A decimal that is written without an exponent is read as the same number**, wherever its point
is. -/
theorem exists_ofChars?_spelled (negative : Bool) (d : Nat) (k : Int) :
    ∃ l, ofChars? (signed negative (spelled ⟨false, none⟩ (Nat.toDigits 10 d) k)) = some l ∧
      l.negative = negative ∧ (l.digits : ℚ) * 10 ^ l.exponent = d * 10 ^ k := by
  obtain ⟨sign, hsign, hsigned, hnegative⟩ := exists_sign_signed negative
    (spelled ⟨false, none⟩ (Nat.toDigits 10 d) k)
  have hdigits : IsDigits (Nat.toDigits 10 d) := all_isDigit_toDigits d
  have hlength := Nat.length_toDigits_pos (b := 10) (n := d)
  rw [hsigned, ← hnegative]
  simp only [spelled]
  split
  · next hk =>
      -- There is no point.
      obtain ⟨i, rfl⟩ := Int.eq_ofNat_of_zero_le hk
      have hwhole : IsDigits (Nat.toDigits 10 d ++ List.replicate i '0') :=
        hdigits.append (isDigits_replicate i)
      have hread := ofChars?_whole hsign (by simp [Nat.toDigits_ne_nil]) hwhole .none
      refine ⟨_, hread, rfl, ?_⟩
      rw [spelledNat_append_zeros, zpow_zero, mul_one, zpow_natCast]
      push_cast
      rfl
  split
  · next hk hpoint =>
      -- The point is in front of all digits.
      have hfraction : IsDigits (List.replicate (-(k + (Nat.toDigits 10 d).length)).toNat '0' ++
          Nat.toDigits 10 d) := (isDigits_replicate _).append hdigits
      have hread := ofChars?_pointed hsign (isDigits_replicate 1) hfraction nofun .none
      rw [List.append_nil] at hread
      refine ⟨_, hread, rfl, ?_⟩
      rw [← List.append_assoc, ← List.replicate_add, spelledNat_zeros_append, List.length_append,
        List.length_replicate]
      show (d : ℚ) * 10 ^ ((0 : Int) - _) = _
      congr 2
      omega
  · next hk hpoint =>
      -- The point is between the digits.
      have hwhole : IsDigits ((Nat.toDigits 10 d).take (k + (Nat.toDigits 10 d).length).toNat) :=
        fun c hc => hdigits c (List.mem_of_mem_take hc)
      have hfraction : IsDigits
          ((Nat.toDigits 10 d).drop (k + (Nat.toDigits 10 d).length).toNat) :=
        fun c hc => hdigits c (List.mem_of_mem_drop hc)
      have hread := ofChars?_pointed hsign hwhole hfraction (fun h => ?_) .none
      · rw [List.append_nil] at hread
        refine ⟨_, hread, rfl, ?_⟩
        rw [List.take_append_drop, spelledNat_toDigits, List.length_drop]
        show (d : ℚ) * 10 ^ ((0 : Int) - _) = _
        congr 2
        omega
      · have hnil :=
          List.take_append_drop (k + (Nat.toDigits 10 d).length).toNat (Nat.toDigits 10 d)
        rw [h.1, h.2] at hnil
        exact Nat.toDigits_ne_nil hnil.symm

end Layout

namespace Layout

/-- The decimal that is printed for the magnitude of a number. -/
def printed (x : Float) : Scaled :=
  if x == 0 then ⟨0, 0⟩ else (Cell.ofBits x.toBits).shortest

theorem toList_render {x : Float} (hfinite : x.isFinite = true) :
    (Atom.displayedNumber.render x).toList = Literal.signed (Double.signBit x)
      (spelled ⟨false, none⟩ (Nat.toDigits 10 (printed x).digits) (printed x).exponent) := by
  have hlaidOut : (if x == 0 then Atom.displayedNumber.layOut ⟨0, 0⟩
      else Atom.displayedNumber.layOut (Cell.ofBits x.toBits).shortest) =
        spelled ⟨false, none⟩ (Nat.toDigits 10 (printed x).digits) (printed x).exponent := by
    rw [printed]
    split <;> rfl
  obtain ⟨hnan, hinf⟩ := Double.isNaN_isInf_of_isFinite hfinite
  simp only [render, hnan, hinf, Bool.false_eq_true, if_false, hlaidOut, String.toList_ofList,
    Literal.signed, Double.signBit, decide_eq_true_eq]

end Layout

open Double in
/-- **A printed number is read back**: what is written for a finite number is a literal of this very
number, sign and all. -/
theorem Literal.exists_ofChars?_render {x : Float} (hfinite : x.isFinite = true) :
    ∃ l, ofChars? (Atom.displayedNumber.render x).toList = some l ∧ l.toFloat = x := by
  have hbeq : (x == 0) = (parts x).beq (.zero .positive) := rfl
  rw [Layout.toList_render hfinite]
  obtain ⟨l, hread, hnegative, hvalue⟩ := Layout.exists_ofChars?_spelled (signBit x)
    (Layout.printed x).digits (Layout.printed x).exponent
  refine ⟨l, hread, toFloat_eq hnegative ?_⟩
  cases hx : parts x with
  | notANumber => exact absurd hfinite (by rw [isFinite_eq, hx]; nofun)
  | infinity s => exact absurd hfinite (by rw [isFinite_eq, hx]; nofun)
  | zero s =>
      have hprinted : Layout.printed x = ⟨0, 0⟩ := by
        rw [Layout.printed, hbeq, hx]
        rfl
      have hdigits : l.digits = 0 := by
        rw [hprinted, Nat.cast_zero, zero_mul, mul_eq_zero] at hvalue
        exact_mod_cast hvalue.resolve_right (zpow_ne_zero _ (by norm_num))
      rw [magnitude, hdigits]
      rfl
  | finite s m e h =>
      have hprinted : Layout.printed x = (Cell.ofBits x.toBits).shortest := by
        rw [Layout.printed, hbeq, hx]
        cases s <;> rfl
      have hnear := (Cell.shortest_best hx hprinted.symm).1
      rw [← hvalue] at hnear
      exact magnitude_eq_of_near (fits_of_parts hx) hnear

end Decimal

end FlatLisp
