import FlatLisp.Proofs.Doubles

/-!
# Which Numbers Round to a Double

Which rational numbers does arithmetic turn into a given double? Those that are nearer to it than to
any other double, and those halfway to a neighbour if its significand is even.

Rounding does not see the number itself. It has a significand, and two bits for all that was cut off
behind it (`Truncates`); shifting keeps this, so that in the end the nearest whole number can be
told from these bits (`Truncates.nearest`). What is left is to know at which exponent the shifting
ends. It is the exponent of the binade of the number, and this is the binade of the double, with one
exception: just below a power of two a number is in the binade below. There it is rounded to the end
of this binade, and a second shift takes this to the double.

From this it follows what products, quotients and decimals become, all in one way: the exact result
is near to the double, and enough of its bits are there.

## Main definitions

* `Double.Truncates`: the numbers that a significand with two further bits stands for.
* `Double.Nearest`: the whole number that is nearest to a number.
* `Double.Near`: the numbers that round to a double.

## Main results

* `Double.Near.roundWithAccuracy`: rounding gives the double that a number is near to.
* `Double.Near.mul`, `Double.Near.div`: what products and quotients become.
* `Double.Near.ofScientific`: what decimals become.
-/

namespace FlatLisp.Double

open Float.Model Float.Model.UnpackedFloat

/-! ### Significands with two further bits -/

section

variable {em : ExtendedMantissa} {x : ℚ}

/-- The numbers that a significand and the two bits behind it stand for. The second of these bits
stands for all that follow. -/
def Truncates (em : ExtendedMantissa) (x : ℚ) : Prop :=
  match em.roundBit, em.stickyBit with
  | false, false => x = em.mantissa
  | false, true => em.mantissa < x ∧ x < em.mantissa + 1 / 2
  | true, false => x = em.mantissa + 1 / 2
  | true, true => em.mantissa + 1 / 2 < x ∧ x < em.mantissa + 1

/-- The whole number that is nearest to a number, which is even if there are two. -/
def Nearest (n : Nat) (x : ℚ) : Prop :=
  n - 1 / 2 ≤ x ∧ x ≤ n + 1 / 2 ∧ (n % 2 = 0 ∨ n - 1 / 2 < x ∧ x < n + 1 / 2)

theorem truncates_exact (n : Nat) :
    Truncates (ExtendedMantissa.ofMantissaAndAccuracy n .exact) n :=
  rfl

/-- The quotient and what is left of a division stand for the fraction. -/
theorem truncates_div {d : Nat} (hd : 0 < d) (n : Nat) :
    Truncates (.ofMantissaAndAccuracy (n / d) (accuracyOfFraction (n % d) d)) (n / d) := by
  have hd' : (0 : ℚ) < d := by exact_mod_cast hd
  have hsum : (n : ℚ) / d = (n / d : Nat) + (n % d : Nat) / d := by
    rw [div_eq_iff hd'.ne', add_mul, div_mul_cancel₀ _ hd'.ne']
    exact_mod_cast (Nat.div_add_mod' n d).symm
  have hlt : ((n % d : Nat) : ℚ) < d := by exact_mod_cast Nat.mod_lt n hd
  rw [hsum]
  generalize n / d = q
  generalize n % d = r at *
  rw [accuracyOfFraction]
  split
  · next hr =>
      subst hr
      simp [ExtendedMantissa.ofMantissaAndAccuracy, Truncates]
  next hr =>
    have hpos : (0 : ℚ) < r / d := div_pos (by exact_mod_cast Nat.pos_of_ne_zero hr) hd'
    rcases hcompare : compare (2 * r) d
    · have hhalf : (r : ℚ) / d < 1 / 2 := by
        rw [div_lt_iff₀ hd']
        have hcast : (2 * r : ℚ) < d := by exact_mod_cast Nat.compare_eq_lt.mp hcompare
        linarith
      exact ⟨lt_add_of_pos_right _ hpos, add_lt_add_right hhalf _⟩
    · have hhalf : (r : ℚ) / d = 1 / 2 := by
        rw [div_eq_iff hd'.ne']
        have hcast : (2 * r : ℚ) = d := by exact_mod_cast Nat.compare_eq_eq.mp hcompare
        linarith
      exact congrArg _ hhalf
    · have hhalf : 1 / 2 < (r : ℚ) / d := by
        rw [lt_div_iff₀ hd']
        have hcast : (d : ℚ) < 2 * r := by exact_mod_cast Nat.compare_eq_gt.mp hcompare
        linarith
      have hone : (r : ℚ) / d < 1 := (div_lt_one hd').mpr hlt
      exact ⟨add_lt_add_right hhalf _, add_lt_add_right hone _⟩

theorem Truncates.mantissa_le (h : Truncates em x) : em.mantissa ≤ x ∧ x < em.mantissa + 1 := by
  obtain ⟨n, r, s⟩ := em
  cases r <;> cases s <;> simp only [Truncates] at h ⊢ <;> constructor <;> linarith

/-- A shift by one bit halves the number. -/
theorem Truncates.shiftRightOne (h : Truncates em x) : Truncates em.shiftRightOne (x / 2) := by
  obtain ⟨n, r, s⟩ := em
  have hsum : (n : ℚ) = 2 * (n / 2 : Nat) + (n % 2 : Nat) := by
    exact_mod_cast (Nat.div_add_mod n 2).symm
  have hbit : n % 2 = 0 ∨ n % 2 = 1 := Nat.mod_two_eq_zero_or_one n
  rcases hbit with hbit | hbit <;> rw [hbit] at hsum <;> push_cast at hsum <;> cases r <;>
    cases s <;> simp [Truncates, ExtendedMantissa.shiftRightOne, hbit] at h ⊢ <;>
    first | linarith | (constructor <;> linarith)

theorem Truncates.shiftRight (h : Truncates em x) (k : Nat) :
    Truncates (em >>> k) (x / 2 ^ k) := by
  show Truncates (k.repeat ExtendedMantissa.shiftRightOne em) _
  induction k with
  | zero => simpa [Nat.repeat] using h
  | succ k ih =>
      rw [pow_succ, ← div_div]
      exact ih.shiftRightOne

/-- Only one whole number is nearest. -/
theorem Nearest.unique {a b : Nat} (ha : Nearest a x) (hb : Nearest b x) : a = b := by
  obtain ⟨hlower, hupper, hends⟩ := ha
  obtain ⟨hlower', hupper', hends'⟩ := hb
  have hle : (a : ℚ) ≤ (b + 1 : Nat) := by push_cast; linarith
  have hle' : (b : ℚ) ≤ (a + 1 : Nat) := by push_cast; linarith
  have hne : (a : ℚ) = b + 1 → a % 2 = 0 ∧ b % 2 = 0 := fun heq =>
    ⟨hends.resolve_right fun h => by linarith, hends'.resolve_right fun h => by linarith⟩
  have hne' : (b : ℚ) = a + 1 → a % 2 = 0 ∧ b % 2 = 0 := fun heq =>
    ⟨hends.resolve_right fun h => by linarith, hends'.resolve_right fun h => by linarith⟩
  norm_cast at hle hle' hne hne'
  omega

/-- **Rounding gives the nearest whole number.** -/
theorem Truncates.nearest (h : Truncates em x) : Nearest em.roundedMantissa x := by
  obtain ⟨n, r, s⟩ := em
  cases r <;> cases s
  · obtain rfl : x = n := h
    exact ⟨sub_le_self _ (by norm_num), le_add_of_nonneg_right (by norm_num),
      .inr ⟨sub_lt_self _ (by norm_num), lt_add_of_pos_right _ (by norm_num)⟩⟩
  · obtain ⟨hlower, hupper⟩ : (n : ℚ) < x ∧ x < n + 1 / 2 := h
    have hlt : (n : ℚ) - 1 / 2 < x := by linarith
    exact ⟨hlt.le, hupper.le, .inr ⟨hlt, hupper⟩⟩
  · -- There are two.
    obtain rfl : x = n + 1 / 2 := h
    have hrounded : (⟨n, true, false⟩ : ExtendedMantissa).roundedMantissa = n + n % 2 := rfl
    rw [hrounded]
    rcases Nat.mod_two_eq_zero_or_one n with hbit | hbit <;> rw [hbit]
    · exact ⟨by push_cast; linarith, by push_cast; linarith, .inl hbit⟩
    · exact ⟨by push_cast; linarith, by push_cast; linarith, .inl (by omega)⟩
  · obtain ⟨hlower, hupper⟩ : n + 1 / 2 < x ∧ x < (n : ℚ) + 1 := h
    have hrounded : (⟨n, true, true⟩ : ExtendedMantissa).roundedMantissa = n + 1 := rfl
    have hlt : ((n + 1 : Nat) : ℚ) - 1 / 2 < x := by push_cast; linarith
    have hlt' : x < ((n + 1 : Nat) : ℚ) + 1 / 2 := by push_cast; linarith
    rw [hrounded]
    exact ⟨hlt.le, hlt'.le, .inr ⟨hlt, hlt'⟩⟩

end

/-! ### Where rounding puts doubles -/

section

variable {m : Nat} {e : Int}

theorem log2_mul_two_pow {n : Nat} (hn : n ≠ 0) (k : Nat) : (n * 2 ^ k).log2 = n.log2 + k := by
  induction k with
  | zero => simp
  | succ k ih =>
      have hne : n * 2 ^ k ≠ 0 := Nat.mul_ne_zero hn (Nat.two_pow_pos k).ne'
      rw [pow_succ', mul_left_comm, Nat.log2_two_mul hne, ih, Nat.add_assoc]

theorem targetExponent_eq (k : Int) : format.targetExponent k = max (k - 53) (-1074) := rfl

/-- A significand and an exponent of the format are where rounding puts them. -/
theorem Fits.targetExponent (h : Fits m e) : format.targetExponent (totalExponent m e) = e := by
  obtain ⟨hpos, hlt, hfull, hlower, -⟩ := h
  have hlog : m.log2 < 53 := (Nat.log2_lt hpos.ne').mpr hlt
  rw [targetExponent_eq, totalExponent]
  rcases hfull with hfull | rfl
  · have hle : 52 ≤ m.log2 := (Nat.le_log2 hpos.ne').mpr hfull
    omega
  · omega

/-- Zeros at the end of a significand are shifted out without a trace. -/
theorem shiftRight_mul_two_pow (m k : Nat) :
    (⟨m * 2 ^ k, false, false⟩ : ExtendedMantissa) >>> k = ⟨m, false, false⟩ := by
  show k.repeat ExtendedMantissa.shiftRightOne _ = _
  induction k generalizing m with
  | zero => simp [Nat.repeat]
  | succ k ih =>
      have hshift : (⟨2 * m, false, false⟩ : ExtendedMantissa).shiftRightOne =
          ⟨m, false, false⟩ := by
        simp [ExtendedMantissa.shiftRightOne]
      rw [Nat.repeat, pow_succ', ← mul_assoc, mul_comm m 2, ih, hshift]

/-- Shifting out zeros until the exponent is the one of the format. -/
theorem Fits.shiftToTargetExponent (h : Fits m e) (k : Nat) :
    shiftToTargetExponent format (m * 2 ^ k) (e - k) .exact = (⟨m, false, false⟩, e) := by
  have hlog : (m * 2 ^ k).log2 = m.log2 + k := log2_mul_two_pow h.pos.ne' k
  have htotal : totalExponent (m * 2 ^ k) (e - k) = totalExponent m e := by
    rw [totalExponent, totalExponent, hlog]
    omega
  have hamount : (e - (e - k)).toNat = k := by omega
  have hshift := shiftRight_mul_two_pow m k
  simp only [UnpackedFloat.shiftToTargetExponent, shiftToExponent, htotal, h.targetExponent,
    hamount, ExtendedMantissa.ofMantissaAndAccuracy, hshift, sub_add_cancel]

end

/-! ### The binade of what is rounded -/

section

variable {m n : Nat} {e t k : Int} {a : Accuracy} {v x : ℚ}

/-- Half the distance of a double from the one below it. Below a power of two doubles are twice as
close as above it. -/
def gap (m : Nat) (e : Int) : ℚ :=
  if m = 2 ^ 52 ∧ -1074 < e then 1 / 4 else 1 / 2

/-- The numbers that round to `m * 2 ^ e`: those that are nearer to it than to any other double, and
with an even `m` those halfway to a neighbour. -/
structure Near (m : Nat) (e : Int) (v : ℚ) : Prop where
  /-- The neighbour below is not nearer. -/
  lower : (m - gap m e) * 2 ^ e ≤ v
  /-- The neighbour above is not nearer. -/
  upper : v ≤ (m + 1 / 2) * 2 ^ e
  /-- Halfway the even one is taken. -/
  ends : m % 2 = 0 ∨ (m - gap m e) * 2 ^ e < v ∧ v < (m + 1 / 2) * 2 ^ e

theorem log2_bounds (hn : n ≠ 0) (hx : n ≤ x ∧ x < n + 1) :
    (2 : ℚ) ^ (n.log2 : Int) ≤ x ∧ x < 2 ^ ((n.log2 : Int) + 1) := by
  have hlower : ((2 ^ n.log2 : Nat) : ℚ) ≤ n := by exact_mod_cast Nat.log2_self_le hn
  have hupper : ((n + 1 : Nat) : ℚ) ≤ (2 ^ (n.log2 + 1) : Nat) := by
    exact_mod_cast Nat.lt_log2_self
  push_cast at hlower hupper
  rw [zpow_natCast]
  have hsucc : ((n.log2 : Int) + 1) = ((n.log2 + 1 : Nat) : Int) := rfl
  rw [hsucc, zpow_natCast]
  exact ⟨hlower.trans hx.1, hx.2.trans_le hupper⟩

/-- The exponent that rounding puts a number at depends on the binade of the number alone. -/
theorem target_eq (hx : n ≤ x ∧ x < n + 1)
    (ht : t ≤ format.targetExponent (totalExponent n t)) (hlower : 2 ^ k ≤ x * 2 ^ t)
    (hupper : x * 2 ^ t < 2 ^ (k + 1)) :
    format.targetExponent (totalExponent n t) = max (k - 52) (-1074) := by
  have htwo : (1 : ℚ) < 2 := one_lt_two
  have hpos : (0 : ℚ) < 2 ^ t := zpow_pos two_pos t
  rw [targetExponent_eq, totalExponent] at *
  rcases eq_or_ne n 0 with rfl | hn
  · have hlt : x * 2 ^ t < 2 ^ t := by
      have hone : x < 1 := by simpa using hx.2
      exact mul_lt_of_lt_one_left hpos hone
    have hk : k < t := (zpow_lt_zpow_iff_right₀ htwo).mp (hlower.trans_lt hlt)
    rw [Nat.log2_zero] at *
    omega
  · obtain ⟨hle, hlt⟩ := log2_bounds hn hx
    have hle' : (2 : ℚ) ^ ((n.log2 : Int) + t) ≤ x * 2 ^ t := by
      rw [zpow_add₀ two_ne_zero]
      exact mul_le_mul_of_nonneg_right hle hpos.le
    have hlt' : x * 2 ^ t < (2 : ℚ) ^ ((n.log2 : Int) + 1 + t) := by
      rw [zpow_add₀ two_ne_zero]
      exact mul_lt_mul_of_pos_right hlt hpos
    have h1 := (zpow_lt_zpow_iff_right₀ htwo).mp (hle'.trans_lt hupper)
    have h2 := (zpow_lt_zpow_iff_right₀ htwo).mp (hlower.trans_lt hlt')
    omega

theorem gap_bounds (m : Nat) (e : Int) : 0 < gap m e ∧ gap m e ≤ 1 / 2 := by
  rw [gap]
  split <;> norm_num

/-- The bounds of what rounds to a double, in units of its last bit. -/
theorem Near.scaled (h : Near m e (x * 2 ^ e)) :
    m - gap m e ≤ x ∧ x ≤ m + 1 / 2 ∧ (m % 2 = 0 ∨ m - gap m e < x ∧ x < m + 1 / 2) := by
  have hpos : (0 : ℚ) < 2 ^ e := zpow_pos two_pos e
  obtain ⟨hlower, hupper, hends⟩ := h
  refine ⟨le_of_mul_le_mul_right hlower hpos, le_of_mul_le_mul_right hupper hpos,
    hends.imp_right fun h => ⟨?_, ?_⟩⟩
  · exact lt_of_mul_lt_mul_right h.1 hpos.le
  · exact lt_of_mul_lt_mul_right h.2 hpos.le

/-- What rounds to a double is greater than zero. -/
theorem Near.pos (hv : Near m e v) (hm : 0 < m) : 0 < v := by
  have hone : (1 : ℚ) ≤ m := by exact_mod_cast hm
  have hgap := (gap_bounds m e).2
  exact lt_of_lt_of_le (mul_pos (by linarith) (zpow_pos two_pos e)) hv.lower

/-- A double rounds to itself. -/
theorem near_self (m : Nat) (e : Int) : Near m e (m * 2 ^ e) := by
  have hunit : (0 : ℚ) < 2 ^ e := zpow_pos two_pos e
  have hlower : (m - gap m e) * 2 ^ e < m * 2 ^ e :=
    mul_lt_mul_of_pos_right (sub_lt_self _ (gap_bounds m e).1) hunit
  have hupper : (m : ℚ) * 2 ^ e < (m + 1 / 2) * 2 ^ e :=
    mul_lt_mul_of_pos_right (lt_add_of_pos_right _ (by norm_num)) hunit
  exact ⟨hlower.le, hupper.le, .inr ⟨hlower, hupper⟩⟩

/-- What rounds to a double is not too small and not too large for the format. -/
theorem Near.bounds (hv : Near m e v) (h : Fits m e) :
    2 ^ (-1075 : Int) ≤ v ∧ v < 2 ^ (1024 : Int) := by
  have hone : (1 : ℚ) ≤ m := by exact_mod_cast h.pos
  have hlt : (m : ℚ) + 1 ≤ 2 ^ 53 := by exact_mod_cast h.lt
  have hgap := (gap_bounds m e).2
  have hunit : (0 : ℚ) < 2 ^ e := zpow_pos two_pos e
  constructor
  · calc (2 : ℚ) ^ (-1075 : Int) = 1 / 2 * 2 ^ (-1074 : Int) := by
          rw [show (-1075 : Int) = -1074 - 1 from rfl, zpow_sub_one₀ two_ne_zero]
          ring
      _ ≤ (m - gap m e) * 2 ^ e :=
          mul_le_mul (by linarith) (zpow_le_zpow_right₀ one_le_two h.lower) (by positivity)
            (by linarith)
      _ ≤ v := hv.lower
  · calc v ≤ (m + 1 / 2) * 2 ^ e := hv.upper
      _ < 2 ^ 53 * 2 ^ e := mul_lt_mul_of_pos_right (by linarith) hunit
      _ ≤ 2 ^ 53 * 2 ^ (971 : Int) :=
          mul_le_mul_of_nonneg_left (zpow_le_zpow_right₀ one_le_two h.upper) (by positivity)
      _ = 2 ^ (1024 : Int) := by
          rw [← zpow_natCast, ← zpow_add₀ two_ne_zero]
          rfl

/-- A number has `n` as the nearest whole number in the last bit of its own binade, where the
exponent is `t`. -/
structure RoundsAt (v : ℚ) (n : Nat) (t : Int) : Prop where
  /-- The binade of the number. -/
  binade : ∃ k : Int, 2 ^ k ≤ v ∧ v < 2 ^ (k + 1) ∧ max (k - 52) (-1074) = t
  /-- The whole number. -/
  nearest : Nearest n (v / 2 ^ t)

/-- Just below a power of two a number is in the binade that ends there, and is rounded to its end.
-/
theorem roundsAt_below (he : -1074 < e) (hlower : 2 ^ 52 - 1 / 4 ≤ x) (hupper : x < 2 ^ 52) :
    RoundsAt (x * 2 ^ e) (2 ^ 52 * 2) (e - 1) := by
  have hunit : (0 : ℚ) < 2 ^ e := zpow_pos two_pos e
  refine ⟨⟨51 + e, ?_, ?_, by omega⟩, ?_⟩
  · rw [zpow_add₀ two_ne_zero]
    exact mul_le_mul_of_nonneg_right (by norm_num at hlower ⊢; linarith) hunit.le
  · rw [add_right_comm, zpow_add₀ two_ne_zero]
    exact mul_lt_mul_of_pos_right (by norm_num at hupper ⊢; exact hupper) hunit
  · have hdouble : x * 2 ^ e / 2 ^ (e - 1) = x * 2 := by
      rw [zpow_sub_one₀ two_ne_zero]
      field_simp
    rw [hdouble]
    refine ⟨?_, ?_, .inl rfl⟩ <;> push_cast <;> linarith

/-- Otherwise a number is in the binade of the double. -/
theorem roundsAt_own (hnearest : Nearest m x) (hpos : 0 < x) (hlt : x < 2 ^ 53)
    (hown : 2 ^ 52 ≤ x ∧ -1074 ≤ e ∨ x < 2 ^ 52 ∧ e = -1074) : RoundsAt (x * 2 ^ e) m e := by
  have hunit : (0 : ℚ) < 2 ^ e := zpow_pos two_pos e
  refine ⟨?_, by rwa [mul_div_cancel_right₀ _ hunit.ne']⟩
  rcases hown with ⟨hfull, he⟩ | ⟨hsmall, he⟩
  · refine ⟨52 + e, ?_, ?_, by omega⟩
    · rw [zpow_add₀ two_ne_zero]
      exact mul_le_mul_of_nonneg_right (by exact_mod_cast hfull) hunit.le
    · rw [add_right_comm, zpow_add₀ two_ne_zero]
      exact mul_lt_mul_of_pos_right (by exact_mod_cast hlt) hunit
  · -- The exponent is the least one, and no binade below it has another.
    obtain ⟨k, hk, hk'⟩ := exists_mem_Ico_zpow (mul_pos hpos hunit) one_lt_two
    have hbelow : (2 : ℚ) ^ k < 2 ^ (52 + e) := by
      rw [zpow_add₀ two_ne_zero]
      exact hk.trans_lt (mul_lt_mul_of_pos_right (by exact_mod_cast hsmall) hunit)
    have hexponent := (zpow_lt_zpow_iff_right₀ one_lt_two).mp hbelow
    exact ⟨k, hk, hk', by omega⟩

/-- **What rounds to a double has it as the nearest whole number**, counted in the last bit of its
own binade: this is the binade of the double, or the one below it, which ends at the double. -/
theorem Near.exists_roundsAt (hv : Near m e v) (h : Fits m e) :
    ∃ j : Nat, RoundsAt v (m * 2 ^ j) (e - j) := by
  have hunit : (0 : ℚ) < 2 ^ e := zpow_pos two_pos e
  obtain ⟨y, rfl⟩ : ∃ y, v = y * 2 ^ e := ⟨v / 2 ^ e, (div_mul_cancel₀ v hunit.ne').symm⟩
  have hpos : 0 < y := (mul_pos_iff_of_pos_right hunit).mp (hv.pos h.pos)
  obtain ⟨hlower, hupper, hends⟩ := hv.scaled
  have hlt : (m : ℚ) + 1 ≤ 2 ^ 53 := by exact_mod_cast h.lt
  by_cases hbelow : (m = 2 ^ 52 ∧ -1074 < e) ∧ y < 2 ^ 52
  · obtain ⟨⟨rfl, he⟩, hy⟩ := hbelow
    rw [gap, if_pos ⟨rfl, he⟩] at hlower
    push_cast at hlower
    exact ⟨1, roundsAt_below he hlower hy⟩
  have hnearest : Nearest m y := by
    by_cases hnarrow : m = 2 ^ 52 ∧ -1074 < e
    · have hy : (m : ℚ) ≤ y := by
        rw [hnarrow.1]
        push_cast
        exact not_lt.mp fun hy => hbelow ⟨hnarrow, hy⟩
      exact ⟨by linarith, hupper, .inl (by omega)⟩
    · rw [gap, if_neg hnarrow] at *
      exact ⟨hlower, hupper, hends⟩
  have hown : 2 ^ 52 ≤ y ∧ -1074 ≤ e ∨ y < 2 ^ 52 ∧ e = -1074 := by
    refine (le_or_gt (2 ^ 52) y).imp (fun hy => ⟨hy, h.lower⟩) fun hy => ⟨hy, ?_⟩
    by_contra hne
    have hm : m ≠ 2 ^ 52 := fun heq => hbelow ⟨⟨heq, lt_of_le_of_ne h.lower (Ne.symm hne)⟩, hy⟩
    have hcast : ((2 ^ 52 + 1 : Nat) : ℚ) ≤ m := by
      exact_mod_cast Nat.lt_of_le_of_ne (h.full.resolve_right hne) (Ne.symm hm)
    push_cast at hcast
    have hle := hnearest.1
    linarith
  have hown' := roundsAt_own hnearest hpos (by linarith) hown
  exact ⟨0, by simpa using hown'⟩

/-- **Rounding gives the double that a number is near to**, if enough bits of the number are there.
-/
theorem Near.roundWithAccuracy (hv : Near m e (x * 2 ^ t)) (h : Fits m e) (s : Sign)
    (hx : Truncates (.ofMantissaAndAccuracy n a) x)
    (ht : t ≤ format.targetExponent (totalExponent n t)) :
    roundWithAccuracy format s n t a = .finite s m e h.pos := by
  have hmantissa : (ExtendedMantissa.ofMantissaAndAccuracy n a).mantissa = n := by
    rcases a with _ | ⟨_ | _ | _⟩ <;> rfl
  have hfloor := hx.mantissa_le
  rw [hmantissa] at hfloor
  obtain ⟨j, ⟨k, hlower, hupper, hexponent⟩, hnearest⟩ := hv.exists_roundsAt h
  have htarget := (target_eq hfloor ht hlower hupper).trans hexponent
  -- The first shift goes to the binade of the number, and rounding may reach its end.
  obtain ⟨i, hi⟩ := Int.le.dest (ht.trans_eq htarget)
  have hamount : (e - j - t).toNat = i := by omega
  have hvalue : x / 2 ^ i = x * 2 ^ t / 2 ^ (e - j) := by
    rw [← hi, zpow_add₀ two_ne_zero, zpow_natCast, mul_comm x,
      mul_div_mul_left _ _ (zpow_ne_zero t two_ne_zero)]
  have hrounded : (ExtendedMantissa.ofMantissaAndAccuracy n a >>> i).roundedMantissa = m * 2 ^ j :=
    (hx.shiftRight i).nearest.unique (hvalue ▸ hnearest)
  have hfirst : shiftToTargetExponent format n t a =
      (ExtendedMantissa.ofMantissaAndAccuracy n a >>> i, e - j) := by
    simp only [shiftToTargetExponent, shiftToExponent, htarget, hamount, hi]
  -- The second shift takes the bits back that the first one missed.
  simp only [UnpackedFloat.roundWithAccuracy, hfirst, hrounded, h.shiftToTargetExponent]
  rw [dif_neg h.pos.ne']

end

/-! ### Products and quotients -/

section

variable {m m₁ m₂ : Nat} {e e₁ e₂ : Int} {h₁ : 0 < m₁} {h₂ : 0 < m₂}

/-- **A product is the double that the exact product is near to**, if the factors have enough bits.
-/
theorem Near.mul (hv : Near m e (m₁ * 2 ^ e₁ * (m₂ * 2 ^ e₂))) (h : Fits m e)
    (hbits : 2 ^ 52 ≤ m₁ * m₂) :
    UnpackedFloat.mul format (.finite .positive m₁ e₁ h₁) (.finite .positive m₂ e₂ h₂) =
      .finite .positive m e h.pos := by
  have hlog : 52 ≤ (m₁ * m₂).log2 := (Nat.le_log2 (Nat.mul_pos h₁ h₂).ne').mpr hbits
  have hproduct : ((m₁ * m₂ : Nat) : ℚ) * 2 ^ (e₁ + e₂) = m₁ * 2 ^ e₁ * (m₂ * 2 ^ e₂) := by
    rw [zpow_add₀ two_ne_zero]
    push_cast
    ring
  have htarget : e₁ + e₂ ≤ format.targetExponent (totalExponent (m₁ * m₂) (e₁ + e₂)) := by
    rw [targetExponent_eq, totalExponent]
    omega
  rw [← hproduct] at hv
  exact hv.roundWithAccuracy h _ (truncates_exact _) htarget

/-- The numerator of a division is shifted until the quotient has enough bits. -/
theorem le_target_div (h₁ : 0 < m₁) (h₂ : 0 < m₂) {t : Int} {i : Nat}
    (ht : t ≤ format.targetExponent (totalExponent m₁ e₁ - totalExponent m₂ e₂))
    (hi : t + i = e₁ - e₂) :
    t ≤ format.targetExponent (totalExponent (m₁ <<< i / m₂) t) := by
  rw [targetExponent_eq, totalExponent] at *
  rw [totalExponent] at ht
  by_cases hleast : t ≤ -1074
  · exact hleast.trans (le_max_right _ _)
  · have hexponent : 52 + (m₂.log2 + 1) ≤ m₁.log2 + i := by omega
    have hle : 2 ^ 52 * m₂ ≤ m₁ <<< i := by
      rw [Nat.shiftLeft_eq]
      calc 2 ^ 52 * m₂ ≤ 2 ^ 52 * 2 ^ (m₂.log2 + 1) :=
            Nat.mul_le_mul_left _ Nat.lt_log2_self.le
        _ = 2 ^ (52 + (m₂.log2 + 1)) := (pow_add _ _ _).symm
        _ ≤ 2 ^ (m₁.log2 + i) := Nat.pow_le_pow_right two_pos hexponent
        _ = 2 ^ m₁.log2 * 2 ^ i := pow_add _ _ _
        _ ≤ m₁ * 2 ^ i := Nat.mul_le_mul_right _ (Nat.log2_self_le h₁.ne')
    have hquotient : 2 ^ 52 ≤ m₁ <<< i / m₂ := (Nat.le_div_iff_mul_le h₂).mpr hle
    have hlog : 52 ≤ (m₁ <<< i / m₂).log2 :=
      (Nat.le_log2 (lt_of_lt_of_le (by decide) hquotient).ne').mpr hquotient
    omega

/-- **A quotient is the double that the exact quotient is near to.** -/
theorem Near.div (hv : Near m e (m₁ * 2 ^ e₁ / (m₂ * 2 ^ e₂))) (h : Fits m e) :
    UnpackedFloat.div format (.finite .positive m₁ e₁ h₁) (.finite .positive m₂ e₂ h₂) =
      .finite .positive m e h.pos := by
  have hle := min_le_left (e₁ - e₂)
    (format.targetExponent (totalExponent m₁ e₁ - totalExponent m₂ e₂))
  have htarget := min_le_right (e₁ - e₂)
    (format.targetExponent (totalExponent m₁ e₁ - totalExponent m₂ e₂))
  show UnpackedFloat.roundWithAccuracy format _ (m₁ <<< _ / m₂) _ _ = _
  generalize min (e₁ - e₂)
    (format.targetExponent (totalExponent m₁ e₁ - totalExponent m₂ e₂)) = t at *
  obtain ⟨i, hi⟩ := Int.le.dest hle
  have hamount : (e₁ - e₂ - t).toNat = i := by omega
  have hquotient : ((m₁ <<< i : Nat) : ℚ) / m₂ * 2 ^ t = m₁ * 2 ^ e₁ / (m₂ * 2 ^ e₂) := by
    have hpower : (2 : ℚ) ^ e₁ = 2 ^ t * 2 ^ i * 2 ^ e₂ := by
      rw [← zpow_natCast, ← zpow_add₀ two_ne_zero, ← zpow_add₀ two_ne_zero]
      congr 1
      omega
    rw [hpower, Nat.shiftLeft_eq]
    push_cast
    field_simp
  rw [hamount]
  rw [← hquotient] at hv
  exact hv.roundWithAccuracy h _ (truncates_div h₂ _) (le_target_div h₁ h₂ htarget hi)

end

/-! ### Decimals -/

section

variable {m d : Nat} {e k : Int}

theorem Near.digits_pos (hv : Near m e ((d : ℚ) * 10 ^ k)) (h : Fits m e) : 0 < d := by
  refine Nat.pos_of_ne_zero fun hzero => ?_
  have hpos := hv.pos h.pos
  rw [hzero, Nat.cast_zero, zero_mul] at hpos
  exact lt_irrefl _ hpos

/-- **A decimal is rounded to the double that it is near to.** -/
theorem Near.ofScientific_parts (hv : Near m e ((d : ℚ) * 10 ^ k)) (h : Fits m e)
    (hlower : -(2048 + d.log2) ≤ k) (hupper : k ≤ 2048) :
    UnpackedFloat.ofScientific format d k = .finite .positive m e h.pos := by
  have hd := hv.digits_pos h
  have hexponent : (2 : Int) ^ format.exponentBits = 2048 := rfl
  rw [UnpackedFloat.ofScientific, dif_neg hd.ne', hexponent, if_neg (by omega),
    if_neg (by omega)]
  split
  · next hk =>
      have hbits : 2 ^ 52 ≤ d <<< format.mantissaBits * 10 ^ k.toNat := by
        rw [Nat.shiftLeft_eq]
        calc 2 ^ 52 ≤ 2 ^ format.mantissaBits := by decide
          _ ≤ d * 2 ^ format.mantissaBits := Nat.le_mul_of_pos_left _ hd
          _ ≤ d * 2 ^ format.mantissaBits * 10 ^ k.toNat :=
            Nat.le_mul_of_pos_right _ (Nat.pow_pos (by decide))
      have hvalue : ((d <<< format.mantissaBits : Nat) : ℚ) * 2 ^ (-(format.mantissaBits : Int)) *
          (((10 ^ k.toNat : Nat) : ℚ) * 2 ^ (0 : Int)) = d * 10 ^ k := by
        obtain ⟨i, rfl⟩ := Int.eq_ofNat_of_zero_le hk
        rw [Nat.shiftLeft_eq, zpow_neg, zpow_natCast, zpow_zero, mul_one, Int.toNat_natCast,
          zpow_natCast]
        push_cast
        field_simp
      rw [← hvalue] at hv
      exact hv.mul h hbits
  · next hk =>
      have hvalue : (d : ℚ) * 2 ^ (0 : Int) / (((10 ^ (-k).toNat : Nat) : ℚ) * 2 ^ (0 : Int)) =
          d * 10 ^ k := by
        obtain ⟨i, rfl⟩ := Int.exists_eq_neg_ofNat (not_le.mp hk).le
        rw [zpow_zero, mul_one, mul_one, Int.neg_neg, Int.toNat_natCast, zpow_neg, zpow_natCast]
        push_cast
        rw [div_eq_mul_inv]
      rw [← hvalue] at hv
      exact hv.div h

/-- A whole number of few enough bits is a double. -/
theorem exists_parts_toFloat (hd : 0 < d) (hlt : d < 2 ^ 53) :
    ∃ (j : Nat) (hpos : 0 < d * 2 ^ j),
      parts d.toUInt64.toFloat = .finite .positive (d * 2 ^ j) (-j) hpos ∧
        2 ^ 52 ≤ d * 2 ^ j := by
  have hlog : d.log2 < 53 := (Nat.log2_lt hd.ne').mpr hlt
  obtain ⟨j, hj⟩ := Nat.exists_eq_add_of_le (Nat.le_of_lt_succ hlog)
  have hfull : 2 ^ 52 ≤ d * 2 ^ j := by
    rw [hj, pow_add]
    exact Nat.mul_le_mul_right _ (Nat.log2_self_le hd.ne')
  have hbits : d * 2 ^ j < 2 ^ 53 := by
    calc d * 2 ^ j < 2 ^ (d.log2 + 1) * 2 ^ j :=
          Nat.mul_lt_mul_of_pos_right Nat.lt_log2_self (Nat.two_pow_pos j)
      _ = 2 ^ 53 := by rw [← pow_add, add_right_comm, ← hj]
  have hfits : Fits (d * 2 ^ j) (-j) :=
    ⟨lt_of_lt_of_le (by decide) hfull, hbits, .inl hfull, by omega, by omega⟩
  refine ⟨j, hfits.pos, ?_, hfull⟩
  have hnat : d.toUInt64.toNat = d := by
    rw [Nat.toUInt64, UInt64.toNat_ofNat']
    exact Nat.mod_eq_of_lt (hlt.trans (by decide))
  have hround : UnpackedFloat.ofNat format d = .finite .positive (d * 2 ^ j) (-j) hfits.pos := by
    have hcompare : compare (d : Int) 0 = .gt := Int.compare_eq_gt.mpr (by omega)
    have htarget : format.targetExponent (totalExponent d 0) = -j := by
      rw [targetExponent_eq, totalExponent]
      omega
    have hamount : (- -(j : Int)).toNat = j := by omega
    have hagain := (near_self _ _).roundWithAccuracy hfits .positive (truncates_exact _)
      hfits.targetExponent.ge
    simp only [UnpackedFloat.ofNat, UnpackedFloat.ofInt, UnpackedFloat.normalize, hcompare,
      UnpackedFloat.round, Int.toNat_natCast, htarget, decreaseExponent, hamount, zero_sub,
      Nat.shiftLeft_eq, hagain]
  show parts (ofParts (UnpackedFloat.ofNat format d.toUInt64.toNat)) = _
  rw [hnat, hround, parts_ofParts hfits]

/-- **A decimal becomes the double that it is near to.** -/
theorem Near.ofScientific (hv : Near m e ((d : ℚ) * 10 ^ k)) (h : Fits m e)
    (hlower : -(2048 + d.log2) ≤ k) (hupper : k ≤ 2048) :
    Float.ofScientific d (k < 0) k.natAbs = ofParts (.finite .positive m e h.pos) := by
  have hd := hv.digits_pos h
  rw [Float.ofScientific]
  split
  · next hfast =>
      obtain ⟨j, hpos, hdigits, hbits⟩ := exists_parts_toFloat hd hfast.1
      obtain ⟨n, i, hn, hpower, hten⟩ := exists_parts_powerOfTen ⟨k.natAbs, by omega⟩
      have hone : ((d * 2 ^ j : Nat) : ℚ) * 2 ^ (-(j : Int)) = d := by
        rw [zpow_neg, zpow_natCast]
        push_cast
        field_simp
      split
      · next hk =>
          have hquotient : ((d * 2 ^ j : Nat) : ℚ) * 2 ^ (-(j : Int)) / (n * 2 ^ i) =
              d * 10 ^ k := by
            have habs : -(k.natAbs : Int) = k := by
              simp only [decide_eq_true_eq] at hk
              omega
            rw [hone, hten, div_eq_mul_inv, ← zpow_natCast, ← zpow_neg, habs]
          rw [← hquotient] at hv
          show ofParts (UnpackedFloat.div format (parts d.toUInt64.toFloat)
            (parts Float.exactlyRepresentablePowersOfTen[(⟨k.natAbs, by omega⟩ : Fin 23)])) = _
          rw [hdigits, hpower, hv.div h]
      · next hk =>
          have hproduct : ((d * 2 ^ j : Nat) : ℚ) * 2 ^ (-(j : Int)) * (n * 2 ^ i) =
              d * 10 ^ k := by
            have habs : (k.natAbs : Int) = k := by
              simp only [decide_eq_true_eq] at hk
              omega
            rw [hone, hten, ← zpow_natCast, habs]
          rw [← hproduct] at hv
          show ofParts (UnpackedFloat.mul format (parts d.toUInt64.toFloat)
            (parts Float.exactlyRepresentablePowersOfTen[(⟨k.natAbs, by omega⟩ : Fin 23)])) = _
          rw [hdigits, hpower, hv.mul h (hbits.trans (Nat.le_mul_of_pos_right _ hn))]
  · have hsigned : (if decide (k < 0) = true then Int.negOfNat k.natAbs else Int.ofNat k.natAbs) =
        k := by
      split
      · next hk =>
          rw [Int.negOfNat_eq, Int.ofNat_eq_natCast]
          simp only [decide_eq_true_eq] at hk
          omega
      · next hk =>
          rw [Int.ofNat_eq_natCast]
          simp only [decide_eq_true_eq] at hk
          omega
    exact congrArg ofParts (by rw [hsigned]; exact hv.ofScientific_parts h hlower hupper)

end

end FlatLisp.Double
