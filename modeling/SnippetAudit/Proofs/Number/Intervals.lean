import Mathlib.Data.Nat.Cast.Order.Field
import Mathlib.Data.Rat.Floor
import Mathlib.Tactic.FieldSimp
import Mathlib.Tactic.NormNum
import Mathlib.Tactic.Ring
import SnippetAudit.Number.Shortest

/-!
# The decimals that are read back as a number

The positive numbers are counted by their magnitudes, and the decimals that are read back as one of
them lie around it, up to half way to its neighbours. Here the ends of these intervals are counted
in halves of the smallest positive number: where the interval of one magnitude ends that of the next
one starts, and the end belongs to the one that is even. So no decimal is read back as two numbers.

Results:
* `Ratio.floorAt_spec`: the point of a grid below a number, and the next one.
* `lowerEnd_eq`, `halves_lt`, `upperHalves_strictMono`: the intervals, one behind another.
* `readsBack_iff`: what is read back as a number.
* `magnitude_eq_of_readsBack`: no decimal is read back as two numbers.
-/

namespace SnippetAudit

/-- The number that a decimal stands for. -/
def Decimal.value (d : Decimal) : ℚ := d.digits * (10 : ℚ) ^ d.exponent

theorem Decimal.value_one (e : ℤ) : (Decimal.mk 1 e).value = (10 : ℚ) ^ e := by
  rw [Decimal.value, Nat.cast_one, one_mul]

/-- Dropping zeros at the end does not change the number. -/
theorem Decimal.value_stripZeros (fuel : ℕ) (d : Decimal) : (d.stripZeros fuel).value = d.value := by
  obtain ⟨zeros, hDigits, hExponent⟩ := d.stripZeros_eq fuel
  rw [Decimal.value, Decimal.value, hDigits, hExponent, Nat.pow_eq, zpow_add₀ (by norm_num),
    zpow_natCast]
  push_cast
  ring

namespace Binary64

/-! ## Rationals -/

namespace Ratio

/-- The number that a fraction stands for. -/
def value (r : Ratio) : ℚ := r.num / r.den

theorem lt_iff {a b : Ratio} (ha : 0 < a.den) (hb : 0 < b.den) :
    a.lt b = true ↔ a.value < b.value := by
  have ha' : (0 : ℚ) < a.den := Nat.cast_pos.mpr ha
  have hb' : (0 : ℚ) < b.den := Nat.cast_pos.mpr hb
  rw [Ratio.lt, decide_eq_true_iff, value, value, div_lt_div_iff₀ ha' hb']
  exact_mod_cast Iff.rfl

theorem lt_eq_false_iff {a b : Ratio} (ha : 0 < a.den) (hb : 0 < b.den) :
    a.lt b = false ↔ b.value ≤ a.value := by
  rw [← Bool.not_eq_true, lt_iff ha hb, not_lt]

theorem den_ofDecimal_pos (d : Decimal) : 0 < (ofDecimal d).den := by
  unfold ofDecimal
  split
  · exact Nat.one_pos
  · exact Nat.pow_pos (by decide)

theorem value_ofDecimal (d : Decimal) : (ofDecimal d).value = d.value := by
  unfold ofDecimal Decimal.value value
  split
  · rename_i h
    obtain ⟨n, hn⟩ := Int.eq_ofNat_of_zero_le h
    rw [hn]
    simp
  · rename_i h
    obtain ⟨n, hn⟩ := Int.eq_ofNat_of_zero_le (by omega : 0 ≤ -d.exponent)
    rw [hn, ← neg_neg d.exponent, hn]
    simp [div_eq_mul_inv]

/-- The point of a grid below a number, and the number below the next point. -/
theorem floorAt_spec {r : Ratio} (h : 0 < r.den) (e : ℤ) :
    (r.floorAt e).exponent = e ∧ (r.floorAt e).value ≤ r.value ∧
      r.value < (Decimal.mk ((r.floorAt e).digits + 1) e).value := by
  have hTen : (0 : ℚ) < 10 ^ e := zpow_pos (by norm_num) e
  -- on the grid the number is a quotient of whole numbers
  have hGrid : ∃ a b : ℕ, 0 < b ∧ r.floorAt e = ⟨a / b, e⟩ ∧ r.value = a / b * (10 : ℚ) ^ e := by
    have hDen : (r.den : ℚ) ≠ 0 := Nat.cast_ne_zero.mpr (Nat.pos_iff_ne_zero.mp h)
    unfold floorAt value
    split
    · rename_i he
      obtain ⟨n, rfl⟩ := Int.eq_ofNat_of_zero_le he
      refine ⟨r.num, r.den * Nat.pow 10 n, Nat.mul_pos h (Nat.pow_pos (by decide)), rfl, ?_⟩
      rw [Nat.pow_eq, zpow_natCast]
      push_cast
      field_simp
    · rename_i he
      obtain ⟨n, hn⟩ := Int.eq_ofNat_of_zero_le (by omega : 0 ≤ -e)
      obtain rfl : e = -(n : ℤ) := by omega
      refine ⟨r.num * Nat.pow 10 n, r.den, h, by simp, ?_⟩
      rw [Nat.pow_eq, zpow_neg, zpow_natCast]
      push_cast
      field_simp
  obtain ⟨a, b, hb, hFloor, hValue⟩ := hGrid
  have hb' : (0 : ℚ) < b := Nat.cast_pos.mpr hb
  have hBelow : ((a / b : ℕ) : ℚ) ≤ a / b := Nat.cast_div_le
  have hAbove : (a / b : ℚ) < (a / b : ℕ) + 1 := by
    rw [div_lt_iff₀ hb']
    have := Nat.lt_div_mul_add hb (a := a)
    calc (a : ℚ) < ((a / b * b + b : ℕ) : ℚ) := Nat.cast_lt.mpr this
      _ = ((a / b : ℕ) + 1) * b := by push_cast; ring
  rw [hFloor, hValue]
  refine ⟨rfl, ?_, ?_⟩
  · exact mul_le_mul_of_nonneg_right hBelow hTen.le
  · rw [Decimal.value, Nat.cast_add, Nat.cast_one]
    exact mul_lt_mul_of_pos_right hAbove hTen

end Ratio

/-! ## Intervals -/

/-- The shift of a magnitude. -/
def shiftOf (m : ℕ) : ℕ := m >>> 52 - 1

/-- The significand of a magnitude. -/
def significandOf (m : ℕ) : ℕ := m - shiftOf m <<< 52

/-- The number at a magnitude, in halves of the smallest positive number. -/
def halves (m : ℕ) : ℕ := (2 * significandOf m) <<< shiftOf m

/-- The upper end of the interval at a magnitude, in halves of the smallest positive number. -/
def upperHalves (m : ℕ) : ℕ := (2 * significandOf m + 1) <<< shiftOf m

/-- The next magnitude has the same shift and the next significand; behind the largest significand
    it has the next shift and half of the next significand. -/
theorem magnitude_succ_cases (m : ℕ) :
    (shiftOf (m + 1) = shiftOf m ∧ significandOf (m + 1) = significandOf m + 1 ∧
      ¬ (significandOf (m + 1) = 1 <<< 52 ∧ 0 < shiftOf (m + 1))) ∨
    (shiftOf (m + 1) = shiftOf m + 1 ∧ significandOf m + 1 = 1 <<< 53 ∧
      significandOf (m + 1) = 1 <<< 52) := by
  unfold significandOf shiftOf
  omega

theorem significandOf_lt (m : ℕ) : significandOf m < 1 <<< 53 := by
  unfold significandOf shiftOf
  omega

theorem significandOf_mod_two (m : ℕ) : significandOf m % 2 = m % 2 := by
  unfold significandOf shiftOf
  omega

theorem significandOf_pos {m : ℕ} (h : 0 < m) : 0 < significandOf m := by
  unfold significandOf shiftOf
  omega

/-- How many times one is halved down to half of the smallest positive number. -/
def halvings : ℕ := 1075

/-- How many halves of the smallest positive number make one. -/
def halvesOfOne : ℕ := 1 <<< halvings

theorem halvesOfOne_eq : halvesOfOne = 2 ^ halvings := Nat.one_shiftLeft halvings

theorem halvesOfOne_pos : 0 < halvesOfOne := by
  rw [halvesOfOne_eq]
  exact Nat.two_pow_pos halvings

theorem upperEnd_eq (x : Binary64) : x.upperEnd = ⟨upperHalves x.magnitude, halvesOfOne⟩ := rfl

theorem ratio_eq (x : Binary64) : x.ratio = ⟨halves x.magnitude, halvesOfOne⟩ := rfl

/-- The interval of a number starts where that of the number below it ends. -/
theorem lowerEnd_eq {x : Binary64} {m : ℕ} (h : x.magnitude = m + 1) :
    x.lowerEnd = ⟨upperHalves m, halvesOfOne⟩ := by
  have hSignificand : x.significand = significandOf (m + 1) := by rw [← h]; rfl
  have hShift : x.shift = shiftOf (m + 1) := by rw [← h]; rfl
  unfold lowerEnd ratioOfHalves upperHalves
  rw [hSignificand, hShift]
  rcases magnitude_succ_cases m with ⟨hs, hf, hPower⟩ | ⟨hs, hf, hf'⟩
  · rw [if_neg hPower, hs, hf]
    rfl
  · rw [if_pos ⟨hf', by omega⟩, hs, hf', Nat.add_sub_cancel]
    have hHalves : 4 * 1 <<< 52 - 1 = 2 * significandOf m + 1 := by
      have hPow : (1 : ℕ) <<< 53 = 2 * 1 <<< 52 := by decide
      omega
    rw [hHalves]
    rfl

/-- The width of an interval is more than its number in units of the seventeenth digit. -/
theorem halves_lt (m : ℕ) :
    upperHalves m < halves (m + 1) ∧ halves (m + 1) < upperHalves (m + 1) ∧
      halves (m + 1) + 10 ^ 16 * upperHalves m < 10 ^ 16 * upperHalves (m + 1) := by
  have hLt := significandOf_lt (m + 1)
  simp only [halves, upperHalves, Nat.shiftLeft_eq] at hLt ⊢
  rcases magnitude_succ_cases m with ⟨hs, hf, -⟩ | ⟨hs, hf, hf'⟩
  · rw [hs]
    have hPos : 0 < 2 ^ shiftOf m := Nat.two_pow_pos _
    generalize 2 ^ shiftOf m = unit at hPos
    refine ⟨?_, ?_, ?_⟩
    · exact Nat.mul_lt_mul_of_pos_right (by omega) hPos
    · exact Nat.mul_lt_mul_of_pos_right (by omega) hPos
    · rw [← Nat.mul_assoc, ← Nat.mul_assoc, ← Nat.add_mul]
      exact Nat.mul_lt_mul_of_pos_right (by omega) hPos
  · rw [hs, hf', Nat.pow_succ]
    rw [Nat.shiftLeft_eq] at hf
    have hPos : 0 < 2 ^ shiftOf m := Nat.two_pow_pos _
    generalize 2 ^ shiftOf m = unit at hPos
    rw [Nat.mul_comm unit 2]
    simp only [Nat.shiftLeft_eq, ← Nat.mul_assoc]
    refine ⟨?_, ?_, ?_⟩
    · exact Nat.mul_lt_mul_of_pos_right (by omega) hPos
    · exact Nat.mul_lt_mul_of_pos_right (by omega) hPos
    · rw [← Nat.add_mul]
      exact Nat.mul_lt_mul_of_pos_right (by omega) hPos

theorem upperHalves_strictMono : StrictMono upperHalves := by
  apply strictMono_nat_of_lt_succ
  intro m
  obtain ⟨hBelow, hAbove, -⟩ := halves_lt m
  exact hBelow.trans hAbove

/-! ## Reading back -/

/-- A fraction in halves of the smallest positive number. -/
def Ratio.inHalves (r : Ratio) : ℚ := r.value * halvesOfOne

theorem Ratio.inHalves_mk (n : ℕ) : (Ratio.mk n halvesOfOne).inHalves = n := by
  have hUnit : (halvesOfOne : ℚ) ≠ 0 :=
    Nat.cast_ne_zero.mpr (Nat.pos_iff_ne_zero.mp halvesOfOne_pos)
  exact div_mul_cancel₀ (n : ℚ) hUnit

theorem Ratio.lt_mk_iff {r : Ratio} (hr : 0 < r.den) (n : ℕ) :
    r.lt ⟨n, halvesOfOne⟩ = true ↔ r.inHalves < n := by
  have hUnit : (0 : ℚ) < halvesOfOne := Nat.cast_pos.mpr halvesOfOne_pos
  rw [lt_iff (b := ⟨n, halvesOfOne⟩) hr halvesOfOne_pos, ← mul_lt_mul_iff_of_pos_right hUnit,
    ← inHalves, ← inHalves, inHalves_mk]

theorem Ratio.mk_lt_iff {r : Ratio} (hr : 0 < r.den) (n : ℕ) :
    (Ratio.mk n halvesOfOne).lt r = true ↔ n < r.inHalves := by
  have hUnit : (0 : ℚ) < halvesOfOne := Nat.cast_pos.mpr halvesOfOne_pos
  rw [lt_iff (a := ⟨n, halvesOfOne⟩) halvesOfOne_pos hr, ← mul_lt_mul_iff_of_pos_right hUnit,
    ← inHalves, ← inHalves, inHalves_mk]

/-- A fraction is read back as a number if it lies between the ends of the interval, or at one of them
    and the magnitude is even. -/
theorem readsBack_iff {x : Binary64} {m : ℕ} (h : x.magnitude = m + 1) {r : Ratio} (hr : 0 < r.den) :
    x.readsBack r = true ↔
      if (m + 1) % 2 = 0 then upperHalves m ≤ r.inHalves ∧ r.inHalves ≤ upperHalves (m + 1)
      else upperHalves m < r.inHalves ∧ r.inHalves < upperHalves (m + 1) := by
  have hParity : x.significand % 2 = (m + 1) % 2 := by
    rw [← h]
    exact significandOf_mod_two x.magnitude
  rw [readsBack, hParity, lowerEnd_eq h, upperEnd_eq, h]
  split
  · rw [Bool.and_eq_true, Bool.not_eq_true', Bool.not_eq_true', ← Bool.not_eq_true,
      ← Bool.not_eq_true, Ratio.lt_mk_iff hr, Ratio.mk_lt_iff hr, not_lt, not_lt]
  · rw [Bool.and_eq_true, Ratio.lt_mk_iff hr, Ratio.mk_lt_iff hr]

theorem readsBack_of_between {x : Binary64} {m : ℕ} (h : x.magnitude = m + 1) {r : Ratio}
    (hr : 0 < r.den) (hLower : upperHalves m < r.inHalves) (hUpper : r.inHalves < upperHalves (m + 1)) :
    x.readsBack r = true := by
  rw [readsBack_iff h hr]
  split
  · exact ⟨hLower.le, hUpper.le⟩
  · exact ⟨hLower, hUpper⟩

/-- What is read back as a number lies between the ends of the interval, or at one of them. -/
theorem le_of_readsBack {x : Binary64} {m : ℕ} (h : x.magnitude = m + 1) {r : Ratio} (hr : 0 < r.den)
    (hBack : x.readsBack r = true) :
    upperHalves m ≤ r.inHalves ∧ r.inHalves ≤ upperHalves (m + 1) := by
  rw [readsBack_iff h hr] at hBack
  split at hBack
  · exact hBack
  · exact ⟨hBack.1.le, hBack.2.le⟩

/-- No number is read back as two numbers of which one lies below the other. -/
theorem not_magnitude_lt_of_readsBack {x y : Binary64} (hx : 0 < x.magnitude) {r s : Ratio}
    (hr : 0 < r.den) (hs : 0 < s.den) (hxr : x.readsBack r = true) (hys : y.readsBack s = true)
    (hSame : r.value = s.value) : ¬ x.magnitude < y.magnitude := by
  intro hLt
  obtain ⟨m, hm⟩ := Nat.exists_eq_add_of_lt hx
  obtain ⟨n, hn⟩ := Nat.exists_eq_add_of_lt (hx.trans hLt)
  rw [Nat.zero_add] at hm hn
  have hHalves : r.inHalves = s.inHalves := by rw [Ratio.inHalves, hSame, Ratio.inHalves]
  -- the number is at the upper end of the one interval and at the lower end of the other
  have hUpper := (le_of_readsBack hm hr hxr).2
  have hLower := (le_of_readsBack hn hs hys).1
  have hEnds : (upperHalves n : ℚ) ≤ upperHalves (m + 1) := by
    rw [← hHalves] at hLower
    exact hLower.trans hUpper
  have hNext : n = m + 1 := by
    have hLe := upperHalves_strictMono.le_iff_le.mp (Nat.cast_le.mp hEnds)
    omega
  subst hNext
  -- one of the two magnitudes is odd, and its interval is open
  rw [readsBack_iff hm hr] at hxr
  rw [readsBack_iff hn hs, ← hHalves] at hys
  split at hxr
  · rw [if_neg (by omega)] at hys
    exact absurd hUpper (not_le.mpr hys.1)
  · rw [← hHalves] at hLower
    exact absurd hLower (not_le.mpr hxr.2)

/-- No number is read back as two numbers at different magnitudes. -/
theorem magnitude_eq_of_readsBack {x y : Binary64} (hx : 0 < x.magnitude) (hy : 0 < y.magnitude)
    {r s : Ratio} (hr : 0 < r.den) (hs : 0 < s.den) (hxr : x.readsBack r = true)
    (hys : y.readsBack s = true) (hSame : r.value = s.value) : x.magnitude = y.magnitude := by
  rcases Nat.lt_trichotomy x.magnitude y.magnitude with hLt | hEq | hLt
  · exact absurd hLt (not_magnitude_lt_of_readsBack hx hr hs hxr hys hSame)
  · exact hEq
  · exact absurd hLt (not_magnitude_lt_of_readsBack hy hs hr hys hxr hSame.symm)

end Binary64

end SnippetAudit
