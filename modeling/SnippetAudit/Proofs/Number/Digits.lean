import Mathlib.Data.Nat.Notation
import SnippetAudit.Number.Numeral
import SnippetAudit.Yaml.Value

/-!
# Decimal digits

The digits of a whole number are read back as the number, and there is no spare zero before them.
The text of a number is made of digits and a few marks.

Results:
* `digitsFrom?_of_isDigit`: what a sequence of digits is read as.
* `digitsValue?_toDigits`: the digits of a number are read back.
* `head?_toDigits`: only zero starts with a zero.
* `Yaml.Number.not_mem_text`: the characters that the text of a number does not have.
-/

namespace SnippetAudit

namespace Numeral

/-! ## Reading digits -/

theorem isDigit_iff {c : Char} : isDigit c = true ↔ c.isDigit = true := by
  simp [isDigit, Char.isDigit, Char.le_def]

theorem digitValue?_of_isDigit {c : Char} (h : c.isDigit = true) :
    digitValue? 10 c = some (c.toNat - '0'.toNat) := by
  have hBounds : 48 ≤ c.toNat ∧ c.toNat ≤ 57 := by
    simpa [Char.isDigit, UInt32.le_iff_toNat_le] using h
  have hLt : c.toNat - 48 < 10 := by omega
  simp [digitValue?, hBounds, hLt]

theorem digitsFrom?_of_isDigit {cs : List Char} (h : ∀ c ∈ cs, c.isDigit = true) (n : ℕ) :
    digitsFrom? 10 n cs = some (Nat.ofDigitChars 10 cs n) := by
  induction cs generalizing n with
  | nil => rfl
  | cons c cs ih =>
    obtain ⟨hc, hcs⟩ := List.forall_mem_cons.mp h
    rw [digitsFrom?, digitValue?_of_isDigit hc, Nat.ofDigitChars_cons, Nat.mul_comm 10 n]
    exact ih hcs _

theorem isDigit_of_mem_toDigits {n : ℕ} {c : Char} (h : c ∈ Nat.toDigits 10 n) : c.isDigit = true :=
  Nat.isDigit_of_mem_toDigits (by decide) (by decide) h

theorem ne_of_isDigit {c d : Char} (hc : c.isDigit = true) (hd : d.isDigit = false) : c ≠ d := by
  rintro rfl
  rw [hc] at hd
  cases hd

theorem digitsValue?_toDigits (n : ℕ) : digitsValue? 10 (Nat.toDigits 10 n) = some n := by
  have hNe : (Nat.toDigits 10 n).isEmpty = false := by
    rw [List.isEmpty_eq_false_iff]
    exact Nat.toDigits_ne_nil
  rw [digitsValue?, hNe, digitsFrom?_of_isDigit fun c => isDigit_of_mem_toDigits,
    Nat.ofDigitChars_toDigits (by decide) (by decide)]
  rfl

/-- The digits of a number start with a zero only if they are nothing else. -/
theorem head?_toDigits {n : ℕ} (h : (Nat.toDigits 10 n).head? = some '0') :
    Nat.toDigits 10 n = ['0'] := by
  induction n using Nat.strongRecOn with
  | _ n ih =>
    rw [Nat.toDigits_eq_if (by decide)] at h ⊢
    split at h
    · rename_i hLt
      rw [if_pos hLt]
      simpa using h
    · rename_i hGe
      have hHead : (Nat.toDigits 10 (n / 10)).head? = some '0' := by
        have hSome : (Nat.toDigits 10 (n / 10)).head?.isSome := by
          rw [List.isSome_head?]
          exact Nat.toDigits_ne_nil
        rwa [List.head?_append, Option.or_of_isSome hSome] at h
      have hZero := ih (n / 10) (by omega) hHead
      have hValue := digitsValue?_toDigits (n / 10)
      rw [hZero] at hValue
      have hQuotient : 0 = n / 10 := Option.some.inj hValue
      omega

end Numeral

/-! ## Characters in the text of a number -/

theorem not_mem_toDigits {c : Char} (hc : c.isDigit = false) (n : ℕ) : c ∉ Nat.toDigits 10 n :=
  fun h => Numeral.ne_of_isDigit (Numeral.isDigit_of_mem_toDigits h) hc rfl

theorem not_mem_toString_nat {c : Char} (hc : c.isDigit = false) (n : ℕ) : c ∉ (toString n).toList := by
  rw [Nat.toString_eq_repr, Nat.toList_repr]
  exact not_mem_toDigits hc n

theorem not_mem_toString_int {c : Char} (hc : c.isDigit = false) (hMinus : c ≠ '-') (i : Int) :
    c ∉ (toString i).toList := by
  rw [Int.toString_eq_repr, Int.repr_eq_if]
  split
  · rw [Nat.toList_repr]
    exact not_mem_toDigits hc _
  · rw [String.toList_append, Nat.toList_repr, List.mem_append, not_or]
    exact ⟨by simpa using hMinus, not_mem_toDigits hc _⟩

/-- The characters besides digits that stand in the text of a number. -/
def numberMarks : List Char := ['-', '.', 'e', 'n', 'a', 'i', 'f']

theorem Decimal.not_mem_text {c : Char} (hc : c.isDigit = false) (hMarks : c ∉ numberMarks)
    (d : Decimal) : c ∉ d.text := by
  simp only [numberMarks, List.mem_cons, List.not_mem_nil, or_false, not_or] at hMarks
  obtain ⟨hMinus, hPoint, hE, -⟩ := hMarks
  have hZero : c ≠ '0' := (Numeral.ne_of_isDigit (by decide) hc).symm
  have hDigits : c ∉ Nat.toDigits 10 d.digits := not_mem_toDigits hc d.digits
  have hTake (n : ℕ) : c ∉ (Nat.toDigits 10 d.digits).take n :=
    fun h => hDigits (List.mem_of_mem_take h)
  have hDrop (n : ℕ) : c ∉ (Nat.toDigits 10 d.digits).drop n :=
    fun h => hDigits (List.mem_of_mem_drop h)
  unfold Decimal.text
  simp only
  -- the four layouts: whole, with a point among the digits, below one, and with an exponent
  split
  · simp [hDigits, hZero, hPoint]
  split
  · simp [hTake, hDrop, hPoint]
  split
  · simp [hDigits, hZero, hPoint]
  generalize Nat.toDigits 10 d.digits = digits at hDigits
  generalize hExponent : (toString ((digits.length : Int) + d.exponent - 1)).toList = exponent
  have hPlain : c ∉ exponent := hExponent ▸ not_mem_toString_int hc hMinus _
  split
  · simpa [hPlain, hE] using hDigits
  · simpa [hPlain, hE, hPoint] using hDigits
  · exact List.not_mem_nil

theorem Binary64.not_mem_text {c : Char} (hc : c.isDigit = false) (hMarks : c ∉ numberMarks)
    (x : Binary64) : c ∉ x.text := by
  have hShortest := x.shortest.not_mem_text hc hMarks
  have hZero : c ≠ '0' := (Numeral.ne_of_isDigit (by decide) hc).symm
  simp only [numberMarks, List.mem_cons, List.not_mem_nil, or_false, not_or] at hMarks
  have hSign : c ∉ if x.isNegative then ['-'] else [] := by
    split
    · simp [hMarks]
    · exact List.not_mem_nil
  unfold Binary64.text
  generalize x.shortest.text = digits at hShortest
  have hBehind {cs : List Char} (h : c ∉ cs) : c ∉ (if x.isNegative then ['-'] else []) ++ cs := by
    rw [List.mem_append, not_or]
    exact ⟨hSign, h⟩
  split
  · simp [hMarks]
  simp only
  split
  · exact hBehind (by simp [hMarks])
  split
  · exact hBehind (by simp [hMarks, hZero])
  · exact hBehind hShortest

theorem Yaml.Number.not_mem_text {c : Char} (hc : c.isDigit = false) (hMarks : c ∉ numberMarks)
    (n : Yaml.Number) : c ∉ n.text := by
  cases n with
  | whole i =>
    refine not_mem_toString_int hc ?_ i
    rintro rfl
    exact hMarks (by decide)
  | float x => exact x.not_mem_text hc hMarks

end SnippetAudit
