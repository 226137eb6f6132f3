import FlatLisp.Decimal.Shortest
import FlatLisp.Proofs.Rounding

/-!
# The Shortest Decimal of a Double

Of all decimals that round to a double one is taken to be written. It is on the coarsest grid that
has one, and of those on this grid none is nearer to the double.

The cell of a double is measured in whole multiples of a unit, and those in the cell are the
decimals that round to the double (`Cell.contains_iff_near`). The search goes from a coarse grid to
finer ones and looks at two points of each, the neighbours of the double. This misses nothing, since
a cell has no gaps: if any point of a grid is in the cell, one of the two is, and no other is nearer
(`Cell.contains_neighbour`).

## Main definitions

* `Cell.ofDouble`: the cell of a double.
* `Cell.Best`: what is asked of the decimal to write.

## Main results

* `Cell.contains_iff_near`: the cell has the decimals that round to the double, and no others.
* `Cell.exists_best`: the decimal that is taken is the best one of those that are tried.
* `Cell.shortest_best`: the decimal that is taken rounds to the double, none with a greater exponent
  does, and none with the same exponent is nearer.
-/

namespace FlatLisp.Decimal

/-! ### The cell of a double -/

namespace Cell

section

variable {m n : Nat} {e : Int}

/-- A cell counts quarters of the last bit. -/
theorem quarter_mul (e : Int) :
    (ofBinary.quarter e : ℚ) * 10 ^ min (e - 2) 0 = 2 ^ e / 4 := by
  have hquarter : ofBinary.quarter e = 2 ^ (e - 2).toNat * 5 ^ (2 - e).toNat := rfl
  have hfour : (2 : ℚ) ^ e / 4 = 2 ^ (e - 2) := by
    rw [zpow_sub₀ two_ne_zero]
    norm_num
  rw [hfour, hquarter]
  rcases le_total 2 e with hle | hle
  · obtain ⟨k, hk⟩ := Int.le.dest hle
    obtain rfl : e = 2 + k := hk.symm
    have hzero : (2 - (2 + (k : Int))).toNat = 0 := by omega
    have hunit : min (2 + (k : Int) - 2) 0 = 0 := by omega
    rw [hzero, hunit, add_sub_cancel_left, Int.toNat_natCast, zpow_natCast, zpow_zero]
    push_cast
    ring
  · obtain ⟨k, hk⟩ := Int.le.dest hle
    obtain rfl : e = 2 - k := by omega
    have hzero : (2 - (k : Int) - 2).toNat = 0 := by omega
    have hunit : min (2 - (k : Int) - 2) 0 = -k := by omega
    have hten : (10 : ℚ) ^ k = 2 ^ k * 5 ^ k := by
      rw [← mul_pow]
      norm_num
    rw [hzero, hunit, sub_sub_cancel, Int.toNat_natCast, sub_sub_cancel_left, zpow_neg, zpow_neg,
      zpow_natCast, zpow_natCast, hten]
    push_cast
    field_simp

/-- The cell of a double. -/
def ofDouble (m : Nat) (e : Int) : Cell :=
  ofBinary m e (m = 2 ^ 52 ∧ -1074 < e)

theorem quarter_mul_unit (m : Nat) (e : Int) :
    (ofBinary.quarter e : ℚ) * 10 ^ (ofDouble m e).exponent = 2 ^ e / 4 :=
  quarter_mul e

theorem lower_mul_unit (hm : 0 < m) :
    ((ofDouble m e).lower : ℚ) * 10 ^ (ofDouble m e).exponent = (m - Double.gap m e) * 2 ^ e := by
  have hcount : ((4 * m - if m = 2 ^ 52 ∧ -1074 < e then 1 else 2 : Nat) : ℚ) =
      4 * (m - Double.gap m e) := by
    rw [Double.gap]
    split <;> rw [Nat.cast_sub (by omega)] <;> push_cast <;> ring
  have hlower : (ofDouble m e).lower =
      (4 * m - if m = 2 ^ 52 ∧ -1074 < e then 1 else 2) * ofBinary.quarter e := by
    simp only [ofDouble, ofBinary, decide_eq_true_eq]
  rw [hlower, Nat.cast_mul, mul_assoc, quarter_mul_unit, hcount]
  ring

theorem value_mul_unit (m : Nat) (e : Int) :
    ((ofDouble m e).value : ℚ) * 10 ^ (ofDouble m e).exponent = m * 2 ^ e := by
  have hvalue : (ofDouble m e).value = 4 * m * ofBinary.quarter e := rfl
  rw [hvalue, Nat.cast_mul, mul_assoc, quarter_mul_unit]
  push_cast
  ring

theorem upper_mul_unit (m : Nat) (e : Int) :
    ((ofDouble m e).upper : ℚ) * 10 ^ (ofDouble m e).exponent = (m + 1 / 2) * 2 ^ e := by
  have hupper : (ofDouble m e).upper = (4 * m + 2) * ofBinary.quarter e := rfl
  rw [hupper, Nat.cast_mul, mul_assoc, quarter_mul_unit]
  push_cast
  ring

/-- **The cell of a double has the decimals that round to it**, and no others. -/
theorem contains_iff_near (hm : 0 < m) :
    (ofDouble m e).contains n = true ↔
      Double.Near m e ((n : ℚ) * 10 ^ (ofDouble m e).exponent) := by
  have hunit : (0 : ℚ) < 10 ^ (ofDouble m e).exponent := zpow_pos (by norm_num) _
  have hlower : (m - Double.gap m e) * 2 ^ e ≤ n * 10 ^ (ofDouble m e).exponent ↔
      (ofDouble m e).lower ≤ n := by
    rw [← lower_mul_unit hm, mul_le_mul_iff_of_pos_right hunit, Nat.cast_le]
  have hupper : (n : ℚ) * 10 ^ (ofDouble m e).exponent ≤ (m + 1 / 2) * 2 ^ e ↔
      n ≤ (ofDouble m e).upper := by
    rw [← upper_mul_unit m e, mul_le_mul_iff_of_pos_right hunit, Nat.cast_le]
  have hlower' : (m - Double.gap m e) * 2 ^ e < n * 10 ^ (ofDouble m e).exponent ↔
      (ofDouble m e).lower < n := by
    rw [← lower_mul_unit hm, mul_lt_mul_iff_of_pos_right hunit, Nat.cast_lt]
  have hupper' : (n : ℚ) * 10 ^ (ofDouble m e).exponent < (m + 1 / 2) * 2 ^ e ↔
      n < (ofDouble m e).upper := by
    rw [← upper_mul_unit m e, mul_lt_mul_iff_of_pos_right hunit, Nat.cast_lt]
  have hclosed : (ofDouble m e).closed = (m % 2 == 0) := rfl
  rw [contains, hclosed]
  split
  · next heven =>
      rw [Bool.and_eq_true, decide_eq_true_eq, decide_eq_true_eq, ← hlower, ← hupper]
      exact ⟨fun h => ⟨h.1, h.2, .inl (eq_of_beq heven)⟩, fun h => ⟨h.lower, h.upper⟩⟩
  · next hodd =>
      rw [Bool.and_eq_true, decide_eq_true_eq, decide_eq_true_eq, ← hlower', ← hupper']
      exact ⟨fun h => ⟨h.1.le, h.2.le, .inr h⟩,
        fun h => h.ends.resolve_left fun heven => hodd (beq_iff_eq.mpr heven)⟩

/-- The double is in its cell. -/
theorem contains_value (hm : 0 < m) : (ofDouble m e).contains (ofDouble m e).value = true := by
  rw [contains_iff_near hm, value_mul_unit]
  exact Double.near_self m e

/-- The cell of a double is told by its bits. -/
theorem ofBits_eq {x : Float} {s : Float.Model.UnpackedFloat.Sign} {h : 0 < m}
    (hx : Double.parts x = .finite s m e h) : ofBits x.toBits = ofDouble m e := by
  obtain ⟨k, n, hbits, hk, hn, hcases⟩ := Double.exists_fields hx
  have hfraction : x.toBits.toNat % Nat.pow 2 52 = n := by
    show _ % 2 ^ 52 = n
    omega
  have hexponent : x.toBits.toNat / Nat.pow 2 52 % Nat.pow 2 11 = k := by
    show _ / 2 ^ 52 % 2 ^ 11 = k
    omega
  simp only [ofBits, hfraction, hexponent]
  rcases hcases with ⟨rfl, rfl, rfl⟩ | ⟨hpos, rfl, rfl⟩
  · rw [if_pos rfl, ofDouble, decide_eq_false (by omega)]
  · rw [if_neg hpos.ne', ofDouble]
    have hnarrow : (n == 0 && decide (1 < k)) =
        decide (2 ^ 52 + n = 2 ^ 52 ∧ -1074 < (k : Int) - 1075) := by
      rw [Bool.eq_iff_iff, Bool.and_eq_true, beq_iff_eq, decide_eq_true_eq, decide_eq_true_eq]
      omega
    rw [hnarrow]
    rfl

end

/-! ### The decimal that is taken -/

section

variable {c : Cell}

/-- What is in a cell is between its ends. -/
theorem bounds_of_contains {n : Nat} (h : c.contains n = true) : c.lower ≤ n ∧ n ≤ c.upper := by
  rw [contains] at h
  split at h
  · simpa only [Bool.and_eq_true, decide_eq_true_eq] using h
  · simp only [Bool.and_eq_true, decide_eq_true_eq] at h
    exact ⟨h.1.le, h.2.le⟩

/-- A cell has no gaps. -/
theorem contains_of_between {a b n : Nat} (ha : c.contains a = true) (hb : c.contains b = true)
    (hlower : a ≤ n) (hupper : n ≤ b) : c.contains n = true := by
  cases hclosed : c.closed <;>
    simp only [contains, hclosed, Bool.false_eq_true, if_true, if_false, Bool.and_eq_true,
      decide_eq_true_eq] at ha hb ⊢
  · exact ⟨ha.1.trans_le hlower, hupper.trans_lt hb.2⟩
  · exact ⟨ha.1.trans hlower, hupper.trans hb.2⟩

/-- How far a number of units is from the number itself. -/
def distance (c : Cell) (n : Nat) : Nat := ((n : Int) - c.value).natAbs

section

variable {grid n : Nat}

/-- If a multiple of the grid is in the cell, then so is one of the two next to the number, and it
is no farther away. -/
theorem contains_neighbour (hvalue : c.contains c.value = true) (hgrid : 0 < grid)
    (h : c.contains (n * grid) = true) :
    c.contains (c.value / grid * grid) = true ∧
        c.distance (c.value / grid * grid) ≤ c.distance (n * grid) ∨
      c.contains ((c.value / grid + 1) * grid) = true ∧
        c.distance ((c.value / grid + 1) * grid) ≤ c.distance (n * grid) := by
  have hdiv := Nat.div_add_mod' c.value grid
  have hmod := Nat.mod_lt c.value hgrid
  have hsucc : (c.value / grid + 1) * grid = c.value / grid * grid + grid := Nat.succ_mul _ _
  rcases Nat.lt_or_ge (c.value / grid) n with hlt | hle
  · have hmul : (c.value / grid + 1) * grid ≤ n * grid := Nat.mul_le_mul_right grid hlt
    refine .inr ⟨contains_of_between hvalue h (by omega) hmul, ?_⟩
    rw [distance, distance]
    omega
  · have hmul : n * grid ≤ c.value / grid * grid := Nat.mul_le_mul_right grid hle
    refine .inl ⟨contains_of_between h hvalue hmul (by omega), ?_⟩
    rw [distance, distance]
    omega

/-- The multiple that is found is in the cell, and none in the cell is nearer to the number. -/
theorem nearest?_eq_some (hvalue : c.contains c.value = true) (hgrid : 0 < grid) {digits : Nat}
    (h : c.nearest? grid = some digits) :
    c.contains (digits * grid) = true ∧
      ∀ n, c.contains (n * grid) = true → c.distance (digits * grid) ≤ c.distance (n * grid) := by
  have hdiv := Nat.div_add_mod' c.value grid
  have hmod := Nat.mod_lt c.value hgrid
  have hsucc : (c.value / grid + 1) * grid = c.value / grid * grid + grid := Nat.succ_mul _ _
  have hneighbour (n : Nat) := contains_neighbour hvalue hgrid (n := n)
  simp only [nearest?] at h
  split at h
  · next hbelow habove =>
      have hnearer : c.distance (digits * grid) ≤ c.distance (c.value / grid * grid) ∧
          c.distance (digits * grid) ≤ c.distance ((c.value / grid + 1) * grid) := by
        obtain rfl := Option.some.inj h
        simp only [distance]
        split <;> constructor <;> omega
      refine ⟨?_, fun n hn => ?_⟩
      · obtain rfl := Option.some.inj h
        split
        · exact hbelow
        · exact habove
      · rcases hneighbour n hn with ⟨-, hle⟩ | ⟨-, hle⟩
        · exact hnearer.1.trans hle
        · exact hnearer.2.trans hle
  · next hbelow habove =>
      obtain rfl := Option.some.inj h
      refine ⟨hbelow, fun n hn => ?_⟩
      rcases hneighbour n hn with ⟨-, hle⟩ | ⟨hother, -⟩
      · exact hle
      · rw [habove] at hother
        cases hother
  · next hbelow habove =>
      obtain rfl := Option.some.inj h
      refine ⟨habove, fun n hn => ?_⟩
      rcases hneighbour n hn with ⟨hother, -⟩ | ⟨-, hle⟩
      · rw [hbelow] at hother
        cases hother
      · exact hle
  · cases h

/-- If none is found then none is there. -/
theorem nearest?_eq_none (hvalue : c.contains c.value = true) (hgrid : 0 < grid)
    (h : c.nearest? grid = none) (n : Nat) : c.contains (n * grid) = false := by
  simp only [nearest?] at h
  split at h
  · cases h
  · cases h
  · cases h
  · next hbelow habove =>
      by_contra hn
      rw [Bool.not_eq_false] at hn
      rcases contains_neighbour hvalue hgrid hn with ⟨hother, -⟩ | ⟨hother, -⟩
      · rw [hbelow] at hother
        cases hother
      · rw [habove] at hother
        cases hother

end

/-- `digits * 10 ^ k` is in the cell, no grid from there up to `10 ^ places` has a point in it, and
on its own grid no point in the cell is nearer to the number. -/
structure Best (c : Cell) (places digits k : Nat) : Prop where
  /-- The decimal is in the cell. -/
  inside : c.contains (digits * 10 ^ k) = true
  /-- No coarser grid will do. -/
  coarsest : ∀ j n, k < j → j ≤ places → c.contains (n * 10 ^ j) = false
  /-- No other point of the grid is better. -/
  nearest : ∀ n, c.contains (n * 10 ^ k) = true →
    c.distance (digits * 10 ^ k) ≤ c.distance (n * 10 ^ k)

/-- **The decimal that is taken is the best one**, among those that are tried. -/
theorem exists_best (hvalue : c.contains c.value = true) (places : Nat) :
    ∃ k : Nat, (c.coarsest places).exponent = c.exponent + k ∧
      c.Best places (c.coarsest places).digits k := by
  induction places with
  | zero =>
      refine ⟨0, (add_zero _).symm, ?_, fun j n hj hplaces => by omega, fun n _ => ?_⟩
      · rwa [pow_zero, mul_one]
      · have hself : c.distance ((c.coarsest 0).digits * 10 ^ 0) = 0 := by
          simp [distance, coarsest]
        exact hself.le.trans (Nat.zero_le _)
  | succ places ih =>
      have hgrid : 0 < 10 ^ (places + 1) := Nat.pow_pos (by decide)
      rw [coarsest]
      split
      · next digits hdigits =>
          obtain ⟨hinside, hnearest⟩ := nearest?_eq_some hvalue hgrid hdigits
          exact ⟨places + 1, rfl, hinside, fun j n hj hplaces => by omega, hnearest⟩
      · next hnone =>
          obtain ⟨k, hexponent, hbest⟩ := ih
          refine ⟨k, hexponent, hbest.inside, fun j n hj hplaces => ?_, hbest.nearest⟩
          rcases Nat.lt_or_ge places j with hlt | hle
          · obtain rfl : j = places + 1 := by omega
            exact nearest?_eq_none hvalue hgrid hnone n
          · exact hbest.coarsest j n hj hle

end

section

variable {m : Nat} {e : Int}

/-- No grid beyond those that are tried has a point in the cell. -/
theorem not_contains_of_length_lt (hm : 0 < m) {j : Nat}
    (hj : (Nat.toDigits 10 (ofDouble m e).value).length < j) (n : Nat) :
    (ofDouble m e).contains (n * 10 ^ j) = false := by
  by_contra hn
  rw [Bool.not_eq_false] at hn
  obtain ⟨hlower, hupper⟩ := bounds_of_contains hn
  have hquarter : 0 < ofBinary.quarter e :=
    Nat.mul_pos (Nat.pow_pos (by decide)) (Nat.pow_pos (by decide))
  have hpos : 0 < (ofDouble m e).lower := by
    refine Nat.mul_pos ?_ hquarter
    split <;> omega
  have hn : 0 < n := Nat.pos_of_ne_zero fun hzero => by
    rw [hzero, Nat.zero_mul] at hlower
    omega
  have hvalue : (ofDouble m e).upper < (ofDouble m e).value * 10 := by
    have hmul : (4 * m + 2) * ofBinary.quarter e < 4 * m * 10 * ofBinary.quarter e :=
      Nat.mul_lt_mul_of_pos_right (by omega) hquarter
    calc (ofDouble m e).upper = (4 * m + 2) * ofBinary.quarter e := rfl
      _ < 4 * m * 10 * ofBinary.quarter e := hmul
      _ = 4 * m * ofBinary.quarter e * 10 := Nat.mul_right_comm ..
  have hlength : (ofDouble m e).value < 10 ^ (Nat.toDigits 10 (ofDouble m e).value).length :=
    (Nat.length_toDigits_le_iff (by decide) Nat.length_toDigits_pos).mp le_rfl
  have hgrid : (ofDouble m e).upper < n * 10 ^ j := by
    calc (ofDouble m e).upper < (ofDouble m e).value * 10 := hvalue
      _ ≤ 10 ^ (Nat.toDigits 10 (ofDouble m e).value).length * 10 :=
        Nat.mul_le_mul_right 10 hlength.le
      _ = 10 ^ ((Nat.toDigits 10 (ofDouble m e).value).length + 1) := (pow_succ ..).symm
      _ ≤ 10 ^ j := Nat.pow_le_pow_right (by decide) hj
      _ ≤ n * 10 ^ j := Nat.le_mul_of_pos_left _ hn
  exact absurd hupper (Nat.not_le.mpr hgrid)

/-- The unit of a cell and the grids on it. -/
theorem mul_grid (c : Cell) (n j : Nat) :
    (n : ℚ) * 10 ^ (c.exponent + j) = ((n * 10 ^ j : Nat) : ℚ) * 10 ^ c.exponent := by
  rw [add_comm, zpow_add₀ (by norm_num), zpow_natCast, ← mul_assoc]
  push_cast
  rfl

theorem abs_sub_eq_distance (m : Nat) (e : Int) (n : Nat) :
    |(n : ℚ) * 10 ^ (ofDouble m e).exponent - m * 2 ^ e| =
      (ofDouble m e).distance n * 10 ^ (ofDouble m e).exponent := by
  have hunit : (0 : ℚ) < 10 ^ (ofDouble m e).exponent := zpow_pos (by norm_num) _
  rw [← value_mul_unit, ← sub_mul, abs_mul, abs_of_pos hunit, distance, Nat.cast_natAbs]
  push_cast
  rfl

/-- **The decimal that is written is the shortest one.** It rounds to the double, no decimal with a
greater exponent does, and of those with the same exponent none is nearer to the double. -/
theorem shortest_best {x : Float} {s : Float.Model.UnpackedFloat.Sign} {h : 0 < m}
    (hx : Double.parts x = .finite s m e h) {d : Scaled} (hd : (ofBits x.toBits).shortest = d) :
    Double.Near m e ((d.digits : ℚ) * 10 ^ d.exponent) ∧
    (∀ (n : Nat) (k : Int), Double.Near m e ((n : ℚ) * 10 ^ k) → k ≤ d.exponent) ∧
    ∀ n : Nat, Double.Near m e ((n : ℚ) * 10 ^ d.exponent) →
      |(d.digits : ℚ) * 10 ^ d.exponent - m * 2 ^ e| ≤ |(n : ℚ) * 10 ^ d.exponent - m * 2 ^ e| := by
  rw [ofBits_eq hx, shortest] at hd
  obtain ⟨k, hexponent, hbest⟩ :=
    exists_best (contains_value h) (Nat.toDigits 10 (ofDouble m e).value).length
  rw [hd] at hexponent hbest
  rw [hexponent]
  refine ⟨?_, fun n k' hnear => ?_, fun n hnear => ?_⟩
  · rw [mul_grid, ← contains_iff_near h]
    exact hbest.inside
  · by_contra hlt
    obtain ⟨j, hj⟩ := Int.le.dest (not_le.mp hlt).le
    obtain rfl : k' = (ofDouble m e).exponent + ((k + j : Nat) : Int) := by
      push_cast
      omega
    rw [mul_grid, ← contains_iff_near h] at hnear
    have hnone : (ofDouble m e).contains (n * 10 ^ (k + j)) = false := by
      rcases Nat.lt_or_ge (Nat.toDigits 10 (ofDouble m e).value).length (k + j) with hlong | hle
      · exact not_contains_of_length_lt h hlong n
      · exact hbest.coarsest (k + j) n (by omega) hle
    rw [hnone] at hnear
    cases hnear
  · rw [mul_grid, ← contains_iff_near h] at hnear
    rw [mul_grid, mul_grid, abs_sub_eq_distance, abs_sub_eq_distance]
    have hunit : (0 : ℚ) < 10 ^ (ofDouble m e).exponent := zpow_pos (by norm_num) _
    exact mul_le_mul_of_nonneg_right (by exact_mod_cast hbest.nearest n hnear) hunit.le

end

end Cell

end FlatLisp.Decimal
