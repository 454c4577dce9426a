import Mathlib.Tactic.Linarith
import Mathlib.Tactic.Positivity
import SnippetAudit.Proofs.Number.Intervals

/-!
# Reading the shortest decimal back

The decimal that `shortest` gives for a number is read back as the number. The estimate of the
exponent of the first digit is too high by no more than what four steps make up for, so the last of
the seventeen grids is finer than the interval around the number, and has a point in it.

Results:
* `Ratio.leadingExponent_le`, `ten_pow_estimate_le`: the first digit is not put too high.
* `isSome_onGrid?`: seventeen digits are enough.
* `readsBack_shortest`: the shortest decimal of a number is read back as it.
-/

namespace SnippetAudit

namespace Binary64

/-! ## The first digit -/

namespace Ratio

/-- From an estimate that is too high by no more than the number of steps, the exponent of the first
    digit is not too high. -/
theorem leadingExponent_le {r : Ratio} (hr : 0 < r.den) (fuel : ℕ) (start : ℤ)
    (h : (10 : ℚ) ^ (start - fuel) ≤ r.value) :
    (10 : ℚ) ^ r.leadingExponent fuel start ≤ r.value := by
  induction fuel generalizing start with
  | zero => simpa [leadingExponent] using h
  | succ fuel ih =>
    rw [leadingExponent]
    split
    · apply ih
      rwa [show start - 1 - fuel = start - (fuel + 1 : ℕ) by push_cast; ring]
    · rename_i hStart
      rw [Bool.not_eq_true, lt_eq_false_iff hr (den_ofDecimal_pos _), value_ofDecimal,
        Decimal.value_one] at hStart
      split
      · exact hStart
      · rename_i hNext
        rw [Bool.not_eq_true, lt_eq_false_iff hr (den_ofDecimal_pos _), value_ofDecimal,
          Decimal.value_one] at hNext
        apply ih
        refine le_trans (zpow_le_zpow_right₀ (by norm_num) ?_) hNext
        omega

end Ratio

/-- Powers of two bases, compared by one pair of powers of theirs. -/
theorem pow_le_pow_of_pow_le {a b p q m n : ℕ} (hp : p ≠ 0) (h : a ^ p ≤ b ^ q) (hb : 0 < b)
    (hmn : q * m ≤ p * n) : a ^ m ≤ b ^ n := by
  rw [← Nat.pow_le_pow_iff_left hp]
  calc (a ^ m) ^ p = (a ^ p) ^ m := by rw [← pow_mul, ← pow_mul, Nat.mul_comm]
    _ ≤ (b ^ q) ^ m := Nat.pow_le_pow_left h m
    _ = b ^ (q * m) := (pow_mul b q m).symm
    _ ≤ b ^ (p * n) := Nat.pow_le_pow_right hb hmn
    _ = (b ^ n) ^ p := by rw [← pow_mul, Nat.mul_comm]

/-- The estimate of the exponent of ten from that of two is not too high by more than four. -/
theorem ten_pow_estimate_le {b : ℤ} (hLow : -1075 ≤ b) (hHigh : b ≤ 1075) :
    (10 : ℚ) ^ (b * 30103 / 100000 - 4) ≤ 2 ^ b := by
  have hStart : b * 30103 / 100000 * 100000 ≤ b * 30103 ∧
      b * 30103 < b * 30103 / 100000 * 100000 + 100000 := by omega
  generalize b * 30103 / 100000 = start at hStart
  rcases le_total 0 b with hb | hb
  · obtain ⟨n, rfl⟩ := Int.eq_ofNat_of_zero_le hb
    have hOne : (1 : ℚ) ≤ 2 ^ ((n : ℕ) : ℤ) := one_le_zpow₀ (by norm_num) hb
    rcases le_total 0 (start - 4) with hk | hk
    · obtain ⟨k, hk'⟩ := Int.eq_ofNat_of_zero_le hk
      rw [hk', zpow_natCast, zpow_natCast]
      have hPow : 10 ^ k ≤ 2 ^ n :=
        pow_le_pow_of_pow_le (p := 3) (q := 10) (by decide) (by decide) (by decide) (by omega)
      exact_mod_cast hPow
    · exact (zpow_le_one_of_nonpos₀ (by norm_num) hk).trans hOne
  · obtain ⟨n, hn⟩ := Int.eq_ofNat_of_zero_le (by omega : 0 ≤ -b)
    obtain ⟨k, hk⟩ := Int.eq_ofNat_of_zero_le (by omega : 0 ≤ -(start - 4))
    obtain rfl : b = -(n : ℤ) := by omega
    rw [show start - 4 = -(k : ℤ) by omega, zpow_neg, zpow_neg, zpow_natCast, zpow_natCast]
    have hPow : 2 ^ n ≤ 10 ^ k :=
      pow_le_pow_of_pow_le (p := 93) (q := 28) (by decide) (by norm_num) (by decide) (by omega)
    have hPow' : (2 : ℚ) ^ n ≤ 10 ^ k := by exact_mod_cast hPow
    exact inv_anti₀ (by positivity) hPow'

/-! ## The shortest decimal -/

theorem ratio_inHalves (x : Binary64) : x.ratio.inHalves = halves x.magnitude := by
  rw [ratio_eq, Ratio.inHalves_mk]

theorem ratio_den_pos (x : Binary64) : 0 < x.ratio.den := halvesOfOne_pos

/-- A point that `onGrid?` finds is read back, and it is not zero. -/
theorem readsBack_of_onGrid? {x : Binary64} {e : ℤ} {d : Decimal} (h : x.onGrid? e = some d) :
    d.digits ≠ 0 ∧ x.readsBack (.ofDecimal d) = true := by
  unfold onGrid? at h
  simp only [Bool.and_eq_true] at h
  split at h
  · rename_i hBoth
    obtain ⟨⟨hBelow, hBelow'⟩, hAbove⟩ := hBoth
    split at h
    · cases h
      exact ⟨by simpa using hBelow, hBelow'⟩
    · cases h
      exact ⟨Nat.succ_ne_zero _, hAbove⟩
  · split at h
    · rename_i hBelow
      cases h
      exact ⟨by simpa using hBelow.1, hBelow.2⟩
    · split at h
      · rename_i hAbove
        cases h
        exact ⟨Nat.succ_ne_zero _, hAbove⟩
      · cases h

/-- The unit of a grid is less than the interval is wide, if it is no more than the seventeenth digit
    of the number. -/
theorem grid_lt_width {x : Binary64} {m : ℕ} (hm : x.magnitude = m + 1) {e : ℤ}
    (h : (10 : ℚ) ^ (e + 16) ≤ x.ratio.value) :
    10 ^ e * halvesOfOne + (upperHalves m : ℚ) < upperHalves (m + 1) := by
  have hWidth : (halves (m + 1) : ℚ) + 10 ^ 16 * upperHalves m < 10 ^ 16 * upperHalves (m + 1) := by
    exact_mod_cast (halves_lt m).2.2
  have hDigit : (10 : ℚ) ^ e * 10 ^ 16 * halvesOfOne ≤ halves (m + 1) := by
    rw [← hm, ← ratio_inHalves, Ratio.inHalves]
    apply mul_le_mul_of_nonneg_right _ (Nat.cast_nonneg halvesOfOne)
    rw [zpow_add₀ (by norm_num)] at h
    exact_mod_cast h
  linarith

/-- Where the unit of a grid is no more than the seventeenth digit of a number, one of the two points
    around the number is read back. -/
theorem readsBack_around {x : Binary64} (hx : 0 < x.magnitude) {e : ℤ}
    (h : (10 : ℚ) ^ (e + 16) ≤ x.ratio.value) {below : Decimal} (hExponent : below.exponent = e)
    (hBelow : below.value ≤ x.ratio.value)
    (hAbove : x.ratio.value < (Decimal.mk (below.digits + 1) e).value) :
    x.readsBack (.ofDecimal below) = true ∨
      x.readsBack (.ofDecimal ⟨below.digits + 1, e⟩) = true := by
  obtain ⟨m, hm⟩ := Nat.exists_eq_add_of_lt hx
  rw [Nat.zero_add] at hm
  have hUnit : (0 : ℚ) < halvesOfOne := Nat.cast_pos.mpr halvesOfOne_pos
  have hLower : (upperHalves m : ℚ) < x.ratio.inHalves := by
    rw [ratio_inHalves, hm]
    exact Nat.cast_lt.mpr (halves_lt m).1
  have hUpper : x.ratio.inHalves < upperHalves (m + 1) := by
    rw [ratio_inHalves, hm]
    exact Nat.cast_lt.mpr (halves_lt m).2.1
  have hBelow' : (Ratio.ofDecimal below).inHalves ≤ x.ratio.inHalves := by
    rw [Ratio.inHalves, Ratio.value_ofDecimal]
    exact mul_le_mul_of_nonneg_right hBelow hUnit.le
  have hAbove' : x.ratio.inHalves < (Ratio.ofDecimal ⟨below.digits + 1, e⟩).inHalves := by
    rw [Ratio.inHalves, Ratio.inHalves, Ratio.value_ofDecimal]
    exact mul_lt_mul_of_pos_right hAbove hUnit
  have hStep : (Ratio.ofDecimal ⟨below.digits + 1, e⟩).inHalves =
      (Ratio.ofDecimal below).inHalves + 10 ^ e * halvesOfOne := by
    rw [Ratio.inHalves, Ratio.inHalves, Ratio.value_ofDecimal, Ratio.value_ofDecimal, Decimal.value,
      Decimal.value, hExponent]
    push_cast
    ring
  -- a point that is too low has the next one above the lower end, and not above the upper end
  rcases lt_or_ge (upperHalves m : ℚ) (Ratio.ofDecimal below).inHalves with hInside | hOutside
  · left
    exact readsBack_of_between hm (Ratio.den_ofDecimal_pos _) hInside (hBelow'.trans_lt hUpper)
  · right
    apply readsBack_of_between hm (Ratio.den_ofDecimal_pos _) (hLower.trans hAbove')
    have hWidth := grid_lt_width hm h
    linarith

/-- So such a grid has a point for the number. -/
theorem isSome_onGrid? {x : Binary64} (hx : 0 < x.magnitude) {e : ℤ}
    (h : (10 : ℚ) ^ (e + 16) ≤ x.ratio.value) : (x.onGrid? e).isSome = true := by
  obtain ⟨hExponent, hBelow, hAbove⟩ := Ratio.floorAt_spec (ratio_den_pos x) e
  generalize hFloor : x.ratio.floorAt e = below at *
  have hSome : below.digits ≠ 0 := by
    intro hZero
    rw [Decimal.value, hZero, Nat.zero_add, Nat.cast_one, one_mul] at hAbove
    have hLe : (10 : ℚ) ^ e ≤ 10 ^ (e + 16) := zpow_le_zpow_right₀ (by norm_num) (by omega)
    exact absurd (hLe.trans h) (not_le.mpr hAbove)
  unfold onGrid?
  simp only [hFloor, decide_eq_true hSome, Bool.true_and]
  rcases readsBack_around hx h hExponent hBelow hAbove with hHit | hHit
  · rw [hHit]
    cases x.readsBack (.ofDecimal ⟨below.digits + 1, e⟩) <;> rfl
  · rw [hHit]
    cases x.readsBack (.ofDecimal below) <;> rfl

/-- Once one of the grids has a point that is read back, `firstHit` gives a point that is read back. -/
theorem readsBack_firstHit {x : Binary64} {lead : ℤ} {fuel count : ℕ}
    (h : ∃ n, count ≤ n ∧ n < count + fuel ∧ (x.onGrid? (lead - n + 1)).isSome = true) :
    (x.firstHit lead fuel count).digits ≠ 0 ∧
      x.readsBack (.ofDecimal (x.firstHit lead fuel count)) = true := by
  induction fuel generalizing count with
  | zero =>
    obtain ⟨n, hLe, hLt, _⟩ := h
    omega
  | succ fuel ih =>
    rw [firstHit]
    cases hGrid : x.onGrid? (lead - count + 1) with
    | some d => exact readsBack_of_onGrid? hGrid
    | none =>
      apply ih
      obtain ⟨n, hLe, hLt, hSome⟩ := h
      have hNe : n ≠ count := by
        rintro rfl
        rw [hGrid] at hSome
        cases hSome
      exact ⟨n, by omega, by omega, hSome⟩

/-- The power of two from the leading bit of a fraction of powers of two is not above the fraction. -/
theorem two_pow_log2_le {num : ℕ} (h : num ≠ 0) (k : ℕ) :
    (2 : ℚ) ^ ((num.log2 : ℤ) - (2 ^ k).log2) ≤ num / (2 ^ k : ℕ) := by
  have hLead : (2 : ℚ) ^ num.log2 ≤ num := by
    exact_mod_cast Nat.log2_self_le h
  rw [Nat.log2_two_pow, zpow_sub₀ (by norm_num), zpow_natCast, zpow_natCast]
  push_cast
  exact div_le_div_of_nonneg_right hLead (by positivity)

theorem ratio_den_eq (x : Binary64) : x.ratio.den = 2 ^ halvings := halvesOfOne_eq

theorem halves_ne_zero {m : ℕ} (h : 0 < m) : halves m ≠ 0 := by
  have hPos := significandOf_pos h
  rw [halves, Nat.shiftLeft_eq]
  exact Nat.mul_ne_zero (by omega) (Nat.pos_iff_ne_zero.mp (Nat.two_pow_pos _))

theorem two_pow_bits_le {x : Binary64} (h : 0 < x.magnitude) :
    (2 : ℚ) ^ ((x.ratio.num.log2 : ℤ) - x.ratio.den.log2) ≤ x.ratio.value := by
  rw [Ratio.value, ratio_den_eq]
  exact two_pow_log2_le (halves_ne_zero h) halvings

theorem log2_halves_lt {m : ℕ} (h : 0 < m) : (halves m).log2 < 54 + shiftOf m := by
  rw [Nat.log2_lt (halves_ne_zero h), halves, Nat.shiftLeft_eq, Nat.pow_add]
  apply Nat.mul_lt_mul_of_pos_right _ (Nat.two_pow_pos _)
  have hLt := significandOf_lt m
  rw [Nat.shiftLeft_eq] at hLt
  omega

/-- The leading bit of a finite number is that of a number between `2 ^ -1075` and `2 ^ 1075`. -/
theorem bits_bounds {x : Binary64} (h : 0 < x.magnitude) (hFinite : x.isFinite = true) :
    -1075 ≤ (x.ratio.num.log2 : ℤ) - x.ratio.den.log2 ∧
      (x.ratio.num.log2 : ℤ) - x.ratio.den.log2 ≤ 1075 := by
  have hNum : x.ratio.num.log2 < 54 + shiftOf x.magnitude := log2_halves_lt h
  have hShift : shiftOf x.magnitude ≤ 2045 := by
    have hLt : x.magnitude < infinityMagnitude := of_decide_eq_true hFinite
    unfold infinityMagnitude at hLt
    unfold shiftOf
    omega
  rw [ratio_den_eq, Nat.log2_two_pow, halvings]
  omega

/-- The shortest decimal of a number is not zero, and the number is read back from it. -/
theorem readsBack_shortest {x : Binary64} (h : 0 < x.magnitude) (hFinite : x.isFinite = true) :
    x.shortest.digits ≠ 0 ∧
      ∃ r : Ratio, 0 < r.den ∧ r.value = x.shortest.value ∧ x.readsBack r = true := by
  let bits : ℤ := (x.ratio.num.log2 : ℤ) - x.ratio.den.log2
  let lead := x.ratio.leadingExponent 4 (bits * 30103 / 100000)
  have hLead : (10 : ℚ) ^ lead ≤ x.ratio.value := by
    apply Ratio.leadingExponent_le (ratio_den_pos x)
    obtain ⟨hLow, hHigh⟩ := bits_bounds h hFinite
    exact (ten_pow_estimate_le hLow hHigh).trans (two_pow_bits_le h)
  have hHit : ∃ n : ℕ, 1 ≤ n ∧ n < 1 + 17 ∧ (x.onGrid? (lead - n + 1)).isSome = true := by
    refine ⟨17, by decide, by decide, isSome_onGrid? h ?_⟩
    rwa [show lead - (17 : ℕ) + 1 + 16 = lead by push_cast; ring]
  obtain ⟨hDigits, hBack⟩ := readsBack_firstHit hHit
  have hValue := Decimal.value_stripZeros 20 (x.firstHit lead 17 1)
  refine ⟨?_, .ofDecimal (x.firstHit lead 17 1), Ratio.den_ofDecimal_pos _, ?_, hBack⟩
  · intro hZero
    obtain ⟨zeros, hStrip, _⟩ := (x.firstHit lead 17 1).stripZeros_eq 20
    have hNone : ((x.firstHit lead 17 1).stripZeros 20).digits = 0 := hZero
    rw [hNone, Nat.zero_mul] at hStrip
    exact hDigits hStrip
  · rw [Ratio.value_ofDecimal]
    exact hValue.symm

end Binary64

end SnippetAudit
