import Mathlib

/-!
# Doubles Taken Apart

A double is sixty-four bits: a sign, an exponent and a fraction. Arithmetic takes the bits apart,
calculates, rounds, and packs the result into bits again. Two facts about this are needed of the
numbers in programs, whatever is calculated.

A double that is taken apart and packed again is the same, and so is one that is negated twice. And
what is packed is no number only if it was none before.

Doubles are compared as IEEE 754 has it. Their equality is the identity, but for the two zeros,
which are equal, and for what is not a number, which is equal to nothing.

## Main definitions

* `Double.parts`, `Double.ofParts`: a double taken apart, and packed.
* `Double.Fits`: the significands and exponents of doubles other than zero.
* `Double.signBit`: the bit of the sign.

## Main results

* `Double.ofParts_parts`, `Double.parts_ofParts`, `Double.neg_neg`: nothing is lost by taking a
  double apart.
* `Double.parts_ofParts_ne`: what is packed is no number only if it was none before.
* `Double.exists_fields`, `Double.parts_eq`: what the bits of a double say.
* `Double.beq_self_iff`, `Double.beq_symm`, `Double.beq_trans`: the laws of this equality.
* `Double.isNaN_ofScientific`: what a decimal is rounded to is a number.
-/

namespace FlatLisp.Double

open Float.Model Float.Model.UnpackedFloat

/-- The format of doubles. -/
abbrev format : Float.Model.Format := .binary64

/-- A double taken apart. -/
def parts (x : Float) : UnpackedFloat := x.toModel.unpack

/-- The double that a sign, a significand and an exponent are packed into. -/
def ofParts (u : UnpackedFloat) : Float := .ofModel (.pack u)

/-- A significand and an exponent that doubles have: fifty-three bits, unless the exponent is the
least one. -/
structure Fits (m : Nat) (e : Int) : Prop where
  /-- The double is not zero. -/
  pos : 0 < m
  /-- There are no more bits than the format has. -/
  lt : m < 2 ^ 53
  /-- All bits are used, unless the exponent is the least one. -/
  full : 2 ^ 52 ≤ m ∨ e = -1074
  /-- No exponent is below the least one. -/
  lower : -1074 ≤ e
  /-- No exponent is above the greatest one. -/
  upper : e ≤ 971

/-! ### Packing -/

theorem isNaN_eq_false_iff {x : Float} : x.isNaN = false ↔ parts x ≠ .notANumber := by
  show (parts x).isNaN = false ↔ _
  rw [← Bool.not_eq_true, UnpackedFloat.isNaN_iff]

theorem isFinite_eq (x : Float) : x.isFinite = (parts x).isFinite := rfl

/-- A finite double is a number, and not infinite. -/
theorem isNaN_isInf_of_isFinite {x : Float} (h : x.isFinite = true) :
    x.isNaN = false ∧ x.isInf = false := by
  show (parts x).isNaN = false ∧ (parts x).isInf = false
  rw [isFinite_eq] at h
  cases hx : parts x with
  | notANumber => rw [hx] at h; cases h
  | infinity => rw [hx] at h; cases h
  | zero => exact ⟨rfl, rfl⟩
  | finite => exact ⟨rfl, rfl⟩

/-- **A double that is taken apart and packed again is the same.** -/
theorem ofParts_parts (x : Float) : ofParts (parts x) = x := by
  obtain ⟨⟨bits, hvalid⟩⟩ := x
  have hpack := UnpackedFloat.pack_unpack_of_valid hvalid
  show Float.ofModel (.pack (UnpackedFloat.unpack format bits.toBitVec)) = _
  simp only [Float.Model.pack, hpack]

/-- Every double has a sign, an exponent and a fraction. -/
theorem exists_packComponents (b : BitVec format.numBits) :
    ∃ s e m, b = packComponents format s e m :=
  ⟨_, _, _, (packComponents_unpackSign_unpackExponent_unpackMantissa b).symm⟩

theorem unpack_pack_unpack (b : BitVec 64) :
    UnpackedFloat.unpack format (UnpackedFloat.pack format (UnpackedFloat.unpack format b)) =
      UnpackedFloat.unpack format b := by
  rw [UnpackedFloat.pack_unpack]
  split
  · next hnan =>
      rw [isNaNBits, decide_eq_true_eq] at hnan
      rw [unpack_packedNaN, UnpackedFloat.unpack, if_pos hnan.1, if_neg hnan.2]
  · rfl

/-- The negative of a double has the other sign. -/
theorem neg_unpack (s : Sign) (e : BitVec 11) (m : BitVec 52) :
    (UnpackedFloat.unpack format (packComponents format s e m)).neg =
      UnpackedFloat.unpack format (packComponents format (-s) e m) := by
  simp only [UnpackedFloat.unpack, unpackMantissa_packComponents, unpackExponent_packComponents,
    unpackSign_packComponents, Sign.ofBitVec_toBitVec]
  split
  · split <;> rfl
  split
  · split <;> rfl
  · rfl

/-- The magnitude of a double has the positive sign. -/
theorem abs_unpack (s : Sign) (e : BitVec 11) (m : BitVec 52) :
    (UnpackedFloat.unpack format (packComponents format s e m)).abs =
      UnpackedFloat.unpack format (packComponents format .positive e m) := by
  simp only [UnpackedFloat.unpack, unpackMantissa_packComponents, unpackExponent_packComponents,
    unpackSign_packComponents, Sign.ofBitVec_toBitVec]
  split
  · split <;> rfl
  split
  · split <;> rfl
  · rfl

theorem parts_neg (x : Float) : parts (-x) = (parts x).neg := by
  obtain ⟨s, e, m, hbits⟩ := exists_packComponents x.toBits.toBitVec
  show UnpackedFloat.unpack format (UnpackedFloat.pack format
    (UnpackedFloat.unpack format x.toBits.toBitVec).neg) =
      (UnpackedFloat.unpack format x.toBits.toBitVec).neg
  rw [hbits, neg_unpack]
  exact unpack_pack_unpack _

theorem neg_neg_parts (u : UnpackedFloat) : u.neg.neg = u := by
  rcases u with s | _ | s | ⟨s, m, e, h⟩
  · cases s <;> rfl
  · rfl
  · cases s <;> rfl
  · cases s <;> rfl

/-- **A double that is negated twice is the same.** -/
theorem neg_neg (x : Float) : - -x = x := by
  rw [← ofParts_parts (- -x), parts_neg, parts_neg, neg_neg_parts, ofParts_parts]

/-- What is no number has a fraction. -/
theorem packComponents_zero_ne (s : Sign) (e : BitVec 11) :
    packComponents format s e 0#52 ≠ packedNaN format := by
  intro heq
  have hfraction := congrArg unpackMantissa heq
  rw [packedNaN, unpackMantissa_packComponents, unpackMantissa_packComponents] at hfraction
  exact absurd hfraction (by decide)

/-- What is no number has the greatest exponent. -/
theorem packComponents_ne {e : BitVec 11} (h : e ≠ -1#11) (s : Sign) (m : BitVec 52) :
    packComponents format s e m ≠ packedNaN format := by
  intro heq
  have hexponent := congrArg unpackExponent heq
  rw [packedNaN, unpackExponent_packComponents, unpackExponent_packComponents] at hexponent
  exact h hexponent

theorem ofNat_ne_ones {n : Nat} (h : n + 1 < 2 ^ 11) : BitVec.ofNat 11 n ≠ -1#11 := by
  intro heq
  have hvalue := congrArg BitVec.toNat heq
  have hones : (-1#11).toNat = 2047 := rfl
  rw [hones, BitVec.toNat_ofNat, Nat.mod_eq_of_lt (by omega)] at hvalue
  omega

/-- **What is packed is no number only if it was none before**, in whatever range its significand
and its exponent are. -/
theorem parts_ofParts_ne {u : UnpackedFloat} (h : u ≠ .notANumber) :
    parts (ofParts u) ≠ .notANumber := by
  show ¬ UnpackedFloat.unpack format (UnpackedFloat.pack format u) = .notANumber
  rw [unpack_eq_notANumber_iff_of_valid valid_pack]
  cases u with
  | notANumber => exact absurd rfl h
  | infinity s => exact packComponents_zero_ne s _
  | zero s => exact packComponents_zero_ne s _
  | finite s m e hm =>
      rw [UnpackedFloat.pack]
      split
      · exact packComponents_zero_ne s _
      · next hlt =>
          split
          · exact packComponents_ne (ofNat_ne_ones (Nat.lt_of_not_le hlt)) s _
          · exact packComponents_ne (by decide) s _

theorem toNat_append {k n : Nat} (a : BitVec k) (b : BitVec n) :
    (a ++ b).toNat = a.toNat * 2 ^ n + b.toNat := by
  rw [BitVec.toNat_append, ← Nat.shiftLeft_add_eq_or_of_lt b.isLt, Nat.shiftLeft_eq]

theorem toNat_one_append (m : BitVec 52) : (1#1 ++ m).toNat = 2 ^ 52 + m.toNat := by
  rw [toNat_append]
  rfl

/-- The bits of a double as one number: the sign, then the exponent, then the fraction. -/
theorem toNat_packComponents (s : Sign) (k : BitVec 11) (n : BitVec 52) :
    (packComponents format s k n).toNat =
      (s.toBitVec.toNat * 2 ^ 11 + k.toNat) * 2 ^ 52 + n.toNat := by
  rw [packComponents, toNat_append, toNat_append]

/-- The bit of the sign. -/
def signBit (x : Float) : Bool := Nat.pow 2 63 ≤ x.toBits.toNat

theorem signBit_eq {x : Float} {s : Sign} {k : BitVec 11} {n : BitVec 52}
    (hbits : x.toBits.toBitVec = packComponents format s k n) :
    signBit x = (s == .negative) := by
  have htoNat : x.toBits.toNat = (s.toBitVec.toNat * 2 ^ 11 + k.toNat) * 2 ^ 52 + n.toNat :=
    (congrArg BitVec.toNat hbits).trans (toNat_packComponents s k n)
  have hk := k.isLt
  have hn := n.isLt
  rw [signBit, htoNat]
  cases s with
  | positive =>
      have hzero : Sign.positive.toBitVec.toNat = 0 := rfl
      rw [hzero]
      exact decide_eq_false (by show ¬ 2 ^ 63 ≤ _; omega)
  | negative =>
      have hone : Sign.negative.toBitVec.toNat = 1 := rfl
      rw [hone]
      exact decide_eq_true (by show 2 ^ 63 ≤ _; omega)

/-- A double is its magnitude with its sign. -/
theorem parts_eq (x : Float) :
    parts x = if signBit x then (parts x).abs.neg else (parts x).abs := by
  obtain ⟨s, k, n, hbits⟩ := exists_packComponents x.toBits.toBitVec
  have hparts : parts x = UnpackedFloat.unpack format (packComponents format s k n) :=
    congrArg (UnpackedFloat.unpack format) hbits
  rw [signBit_eq hbits, hparts, abs_unpack, neg_unpack]
  cases s <;> rfl

/-- The fields of a finite double other than zero. -/
theorem exists_fields {x : Float} {s : Sign} {m : Nat} {e : Int} {h : 0 < m}
    (hx : parts x = .finite s m e h) :
    ∃ k n : Nat, x.toBits.toNat = (s.toBitVec.toNat * 2 ^ 11 + k) * 2 ^ 52 + n ∧
      k < 2047 ∧ n < 2 ^ 52 ∧
      (k = 0 ∧ m = n ∧ e = -1074 ∨ 0 < k ∧ m = 2 ^ 52 + n ∧ e = k - 1075) := by
  obtain ⟨t, k, n, hbits⟩ := exists_packComponents x.toBits.toBitVec
  have hunpack : UnpackedFloat.unpack format x.toBits.toBitVec = .finite s m e h := hx
  have hbias : ((format.exponentBias : Nat) : Int) + (52 : Nat) = 1075 := rfl
  have hn : n.toNat < 2 ^ 52 := n.isLt
  have hk : k.toNat < 2 ^ 11 := k.isLt
  have htoNat : x.toBits.toNat = (t.toBitVec.toNat * 2 ^ 11 + k.toNat) * 2 ^ 52 + n.toNat :=
    (congrArg BitVec.toNat hbits).trans (toNat_packComponents t k n)
  rw [hbits] at hunpack
  simp only [UnpackedFloat.unpack, unpackMantissa_packComponents, unpackExponent_packComponents,
    unpackSign_packComponents, Sign.ofBitVec_toBitVec, hbias] at hunpack
  split at hunpack
  · split at hunpack <;> cases hunpack
  next hones =>
    have hlt : k.toNat ≠ 2047 := fun heq => hones (BitVec.eq_of_toNat_eq heq)
    split at hunpack
    · next hzero =>
        split at hunpack
        · cases hunpack
        · -- The exponent is the least one.
          obtain ⟨rfl, rfl, rfl⟩ := UnpackedFloat.finite.inj hunpack
          have hleast : k.toNat = 0 := congrArg BitVec.toNat hzero
          exact ⟨k.toNat, n.toNat, htoNat, by omega, hn, .inl ⟨hleast, rfl, by omega⟩⟩
    · next hzero =>
        -- A bit is in front of the fraction.
        obtain ⟨rfl, rfl, rfl⟩ := UnpackedFloat.finite.inj hunpack
        have hpos : k.toNat ≠ 0 := fun heq => hzero (BitVec.eq_of_toNat_eq heq)
        exact ⟨k.toNat, n.toNat, htoNat, by omega, hn,
          .inr ⟨Nat.pos_of_ne_zero hpos, toNat_one_append n, rfl⟩⟩

/-- The significand and the exponent of a double are in the ranges of the format. -/
theorem fits_of_parts {x : Float} {s : Sign} {m : Nat} {e : Int} {h : 0 < m}
    (hx : parts x = .finite s m e h) : Fits m e := by
  obtain ⟨k, n, -, hk, hn, ⟨rfl, rfl, rfl⟩ | ⟨hpos, rfl, rfl⟩⟩ := exists_fields hx
  · exact ⟨h, by omega, .inr rfl, by omega, by omega⟩
  · exact ⟨h, by omega, .inl (by omega), by omega, by omega⟩

/-- **What is packed and taken apart is the same**, if a double has its significand and its
exponent. -/
theorem parts_ofParts {m : Nat} {e : Int} (h : Fits m e) (s : Sign) :
    parts (ofParts (.finite s m e h.pos)) = .finite s m e h.pos := by
  obtain ⟨hpos, hlt, hfull, hlower, hupper⟩ := h
  have hbias : ((format.exponentBias : Nat) : Int) + (52 : Nat) = 1075 := rfl
  show UnpackedFloat.unpack format (UnpackedFloat.pack format (.finite s m e hpos)) = _
  have hfinite : ¬ 2 ^ format.exponentBits ≤ (e + 1075).toNat + 1 := by
    show ¬ 2 ^ 11 ≤ (e + 1075).toNat + 1
    omega
  have hmantissa : format.mantissaBits = 53 := rfl
  rw [UnpackedFloat.pack, add_assoc, hbias, if_neg hfinite, hmantissa]
  split
  · next hbits =>
      -- The first of fifty-three bits is left out.
      have hfull' : 2 ^ 52 ≤ m := (Nat.le_log2 hpos.ne').mp (by omega)
      have hexponent : (BitVec.ofNat 11 (e + 1075).toNat).toNat = (e + 1075).toNat := by
        rw [BitVec.toNat_ofNat, Nat.mod_eq_of_lt (by omega)]
      have hones : BitVec.ofNat 11 (e + 1075).toNat ≠ -1#11 := ofNat_ne_ones (by omega)
      have hzero : BitVec.ofNat 11 (e + 1075).toNat ≠ 0#11 := fun heq => by
        have hvalue := congrArg BitVec.toNat heq
        rw [hexponent] at hvalue
        have : (0#11).toNat = 0 := rfl
        omega
      have hvalue : (1#1 ++ BitVec.ofNat 52 m).toNat = m := by
        rw [toNat_one_append, BitVec.toNat_ofNat]
        omega
      simp only [UnpackedFloat.unpack, unpackMantissa_packComponents, unpackExponent_packComponents,
        unpackSign_packComponents, Sign.ofBitVec_toBitVec, hbias, if_neg hones, if_neg hzero,
        hexponent, hvalue, UnpackedFloat.finite.injEq, true_and]
      omega
  · next hbits =>
      have hlt' : m < 2 ^ 52 := by
        have hlog : m.log2 < 53 := (Nat.log2_lt hpos.ne').mpr hlt
        exact (Nat.log2_lt hpos.ne').mp (by omega)
      have hvalue : (BitVec.ofNat 52 m).toNat = m := by
        rw [BitVec.toNat_ofNat, Nat.mod_eq_of_lt hlt']
      have hzero : BitVec.ofNat 52 m ≠ 0#52 := fun heq => by
        have hvalue' := congrArg BitVec.toNat heq
        rw [hvalue] at hvalue'
        exact hpos.ne' hvalue'
      have hones : 0#11 ≠ -1#11 := by decide
      simp only [UnpackedFloat.unpack, unpackMantissa_packComponents, unpackExponent_packComponents,
        unpackSign_packComponents, Sign.ofBitVec_toBitVec, hbias, if_neg hones, if_true,
        dif_neg hzero, hvalue, UnpackedFloat.finite.injEq, true_and]
      have hleast : (0#11).toNat = 0 := rfl
      omega

/-! ### Equality -/

section

variable {x y z : Float}

/-- Only what is not a number is not equal to itself. -/
theorem beq_self_iff : (x == x) = true ↔ x.isNaN = false := by
  rw [Float.beq_self_iff, Float.isNaN_eq_decide_eq_nan, decide_eq_false_iff_not]

theorem beq_symm (h : (x == y) = true) : (y == x) = true := by
  rw [Float.beq_iff_ne_nan_and_eq] at h ⊢
  obtain ⟨hx, hy, rfl | ⟨rfl, rfl⟩ | ⟨rfl, rfl⟩⟩ := h
  · exact ⟨hx, hx, Or.inl rfl⟩
  · exact ⟨hy, hx, Or.inr (Or.inr ⟨rfl, rfl⟩)⟩
  · exact ⟨hy, hx, Or.inr (Or.inl ⟨rfl, rfl⟩)⟩

/-- Numbers that are equal to one number are equal: where they are not the same, all are zeros. -/
theorem beq_trans (h : (x == y) = true) (h' : (y == z) = true) : (x == z) = true := by
  rw [Float.beq_iff_ne_nan_and_eq] at h h' ⊢
  obtain ⟨hx, -, hxy⟩ := h
  obtain ⟨-, hz, hyz⟩ := h'
  refine ⟨hx, hz, ?_⟩
  obtain rfl | ⟨rfl, rfl⟩ | ⟨rfl, rfl⟩ := hxy
  · exact hyz
  · obtain rfl | ⟨-, rfl⟩ | ⟨-, rfl⟩ := hyz
    · exact Or.inr (Or.inl ⟨rfl, rfl⟩)
    · exact Or.inr (Or.inl ⟨rfl, rfl⟩)
    · exact Or.inl rfl
  · obtain rfl | ⟨-, rfl⟩ | ⟨-, rfl⟩ := hyz
    · exact Or.inr (Or.inr ⟨rfl, rfl⟩)
    · exact Or.inl rfl
    · exact Or.inr (Or.inr ⟨rfl, rfl⟩)

/-- A number other than zero is equal to itself only. -/
theorem eq_of_beq_of_ne_zero (h : (x == y) = true) (hpositive : y ≠ 0) (hnegative : y ≠ -0) :
    x = y := by
  obtain ⟨-, -, hsame | ⟨-, hy⟩ | ⟨-, hy⟩⟩ := Float.beq_iff_ne_nan_and_eq.mp h
  · exact hsame
  · exact absurd hy hnegative
  · exact absurd hy hpositive

end

/-! ### What arithmetic gives -/

section

variable {u v : UnpackedFloat}

/-- Rounding gives a number. -/
theorem roundWithAccuracy_ne (s : Sign) (m : Nat) (e : Int) (accuracy : Accuracy) :
    roundWithAccuracy format s m e accuracy ≠ .notANumber := by
  simp only [roundWithAccuracy]
  split <;> nofun

/-- A finite number other than zero. -/
def IsRegular (u : UnpackedFloat) : Prop :=
  ∃ s m e h, u = .finite s m e h

theorem mul_ne (hu : u ≠ .notANumber) (hv : IsRegular v) :
    UnpackedFloat.mul format u v ≠ .notANumber := by
  obtain ⟨s, m, e, h, rfl⟩ := hv
  cases u with
  | notANumber => exact absurd rfl hu
  | infinity => nofun
  | zero => nofun
  | finite => exact roundWithAccuracy_ne _ _ _ _

theorem div_ne (hu : u ≠ .notANumber) (hv : IsRegular v) :
    UnpackedFloat.div format u v ≠ .notANumber := by
  obtain ⟨s, m, e, h, rfl⟩ := hv
  cases u with
  | notANumber => exact absurd rfl hu
  | infinity => nofun
  | zero => nofun
  | finite => exact roundWithAccuracy_ne _ _ _ _

theorem ofNat_ne (n : Nat) : UnpackedFloat.ofNat format n ≠ .notANumber := by
  simp only [UnpackedFloat.ofNat, UnpackedFloat.ofInt, UnpackedFloat.normalize]
  split
  · exact roundWithAccuracy_ne _ _ _ _
  · nofun
  · exact roundWithAccuracy_ne _ _ _ _

theorem ofScientific_ne (m : Nat) (e : Int) :
    UnpackedFloat.ofScientific format m e ≠ .notANumber := by
  unfold UnpackedFloat.ofScientific
  split
  · nofun
  split
  · nofun
  split
  · nofun
  split
  · exact mul_ne nofun ⟨_, _, _, _, rfl⟩
  · exact div_ne nofun ⟨_, _, _, _, rfl⟩

/-- The powers of ten that doubles have. -/
theorem exists_parts_powerOfTen (i : Fin 23) :
    ∃ n k hn, parts Float.exactlyRepresentablePowersOfTen[i] = .finite .positive n k hn ∧
      (n : ℚ) * 2 ^ k = 10 ^ (i : Nat) := by
  have hexact : ∀ i : Fin 23, (match parts Float.exactlyRepresentablePowersOfTen[i] with
      | .finite .positive n k _ => n * 2 ^ k.toNat == 10 ^ (i : Nat) * 2 ^ (-k).toNat
      | _ => false) = true := by decide
  have h := hexact i
  split at h
  · next n k hn heq =>
      refine ⟨n, k, hn, heq, ?_⟩
      have hcast : (n : ℚ) * 2 ^ k.toNat = 10 ^ (i : Nat) * 2 ^ (-k).toNat := by
        exact_mod_cast eq_of_beq h
      rcases Int.eq_nat_or_neg k with ⟨j, rfl | rfl⟩
      · simpa using hcast
      · rw [zpow_neg, zpow_natCast]
        simp at hcast
        rw [hcast]
        field_simp
  · cases h

/-- **What a decimal is rounded to is a number.** -/
theorem isNaN_ofScientific (m : Nat) (s : Bool) (e : Nat) :
    (Float.ofScientific m s e).isNaN = false := by
  rw [isNaN_eq_false_iff, Float.ofScientific]
  split
  · next h =>
      obtain ⟨n, k, hn, hpower, -⟩ := exists_parts_powerOfTen ⟨e, by omega⟩
      have hregular := (⟨_, n, k, hn, hpower⟩ : IsRegular _)
      have hdigits : parts m.toUInt64.toFloat ≠ .notANumber := parts_ofParts_ne (ofNat_ne _)
      split
      · exact parts_ofParts_ne (div_ne hdigits hregular)
      · exact parts_ofParts_ne (mul_ne hdigits hregular)
  · exact parts_ofParts_ne (ofScientific_ne _ _)

theorem isNaN_neg {x : Float} (h : x.isNaN = false) : (-x).isNaN = false := by
  rw [isNaN_eq_false_iff] at h ⊢
  rw [parts_neg]
  cases hx : parts x with
  | notANumber => exact absurd hx h
  | infinity => nofun
  | zero => nofun
  | finite => nofun

end

end FlatLisp.Double
