import Mathlib.Algebra.Group.Nat.Defs
import SnippetAudit.Yaml.ScalarText

/-!
# Texts in double quotes

Any text can be written in double quotes, each character as an escape of eight digits, and is then
read back, whatever stands behind the closing quote.

Results:
* `digitsFrom?_hexDigits`: the digits of a number are read back.
* `escape?_escaped`: an escape stands for its character.
* `readQuoted_quotedText`: a text in double quotes is read back.
-/

namespace SnippetAudit.Yaml

open Numeral Scalar

/-! ## Writing -/

/-- The last `k` digits of a number in radix 16. -/
def hexDigits : ℕ → ℕ → List Char
  | 0, _ => []
  | k + 1, n => hexDigits k (n / 16) ++ [Nat.digitChar (n % 16)]

/-- A character as an escape of eight digits. -/
def escaped (c : Char) : List Char := '\\' :: 'U' :: hexDigits 8 c.toNat

/-- A text in double quotes. -/
def quotedText (text : List Char) : List Char := '"' :: (text.flatMap escaped ++ ['"'])

/-! ## Reading back -/

theorem length_hexDigits (k n : ℕ) : (hexDigits k n).length = k := by
  induction k generalizing n with
  | zero => rfl
  | succ k ih => rw [hexDigits, List.length_append, ih, List.length_singleton]

theorem digitValue?_digitChar {d : ℕ} (h : d < 16) : digitValue? 16 (Nat.digitChar d) = some d := by
  revert d
  decide

theorem digitsFrom?_concat (radix value : ℕ) (digits : List Char) (c : Char) :
    digitsFrom? radix value (digits ++ [c]) =
      (digitsFrom? radix value digits).bind fun v => (digitValue? radix c).map (v * radix + ·) := by
  induction digits generalizing value with
  | nil =>
    rw [List.nil_append, digitsFrom?, digitsFrom?, Option.bind_some, Option.map_eq_bind]
    rfl
  | cons d digits ih =>
    rw [List.cons_append, digitsFrom?, digitsFrom?, Option.bind_assoc]
    exact congrArg _ (funext fun n => ih _)

theorem digitsFrom?_hexDigits (k n : ℕ) : digitsFrom? 16 0 (hexDigits k n) = some (n % 16 ^ k) := by
  induction k generalizing n with
  | zero => simp [hexDigits, digitsFrom?, Nat.mod_one]
  | succ k ih =>
    rw [hexDigits, digitsFrom?_concat, ih, Option.bind_some,
      digitValue?_digitChar (Nat.mod_lt _ (by decide)), Option.map_some, Nat.pow_succ,
      Nat.mul_comm (16 ^ k) 16, Nat.mod_mul]
    congr 1
    omega

/-- The escape of a character is read back. -/
theorem escape?_escaped (c : Char) (rest : List Char) :
    escape? ('U' :: (hexDigits 8 c.toNat ++ rest)) = some (c, 9) := by
  have hLength := length_hexDigits 8 c.toNat
  have hTake : (hexDigits 8 c.toNat ++ rest).take 8 = hexDigits 8 c.toNat := List.take_left' hLength
  have hValid : c.toNat.isValidChar := c.valid
  have hSmall : c.toNat < 16 ^ 8 := by
    rcases hValid with h | ⟨_, h⟩
    · exact Nat.lt_trans h (by decide)
    · exact Nat.lt_trans h (by decide)
  have hValue : digitsValue? 16 (hexDigits 8 c.toNat) = some c.toNat := by
    have hNe : (hexDigits 8 c.toNat).isEmpty = false := by
      rw [List.isEmpty_eq_false_iff, ← List.length_pos_iff, hLength]
      decide
    rw [digitsValue?, hNe, digitsFrom?_hexDigits, Nat.mod_eq_of_lt hSmall]
    rfl
  have hShort : ¬ (hexDigits 8 c.toNat ++ rest).length < 8 := by
    rw [List.length_append, hLength]
    omega
  show (if (hexDigits 8 c.toNat ++ rest).length < 8 then none
    else (digitsValue? 16 ((hexDigits 8 c.toNat ++ rest).take 8)).bind fun n =>
      if n.isValidChar then some (Char.ofNat n, 9) else none) = some (c, 9)
  rw [if_neg hShort, hTake, hValue, Option.bind_some, if_pos hValid, Char.ofNat_toNat]

theorem readDoublePart_escape {rest : List Char} {c : Char} {n fuel : ℕ} {m : Mark}
    (hBreak : rest.head?.any isBreak = false) (h : escape? rest = some (c, n)) :
    readDoublePart (fuel + 1) ⟨'\\' :: rest, m⟩ =
      (readDoublePart fuel (Cursor.advance ⟨'\\' :: rest, m⟩ (n + 1))).map fun (text, flag, cur) =>
        (c :: text, flag, cur) := by
  rw [readDoublePart]
  simp only
  rw [hBreak, h]
  rfl

theorem readDoublePart_escaped (text rest : List Char) {fuel : ℕ} (h : text.length < fuel) (m : Mark) :
    ∃ m', readDoublePart fuel ⟨text.flatMap escaped ++ '"' :: rest, m⟩ =
      .ok (text, false, ⟨'"' :: rest, m'⟩) := by
  induction text generalizing fuel m with
  | nil =>
    obtain ⟨fuel, rfl⟩ := Nat.exists_eq_succ_of_ne_zero (Nat.ne_of_gt h)
    exact ⟨m, rfl⟩
  | cons c text ih =>
    obtain ⟨fuel, rfl⟩ := Nat.exists_eq_succ_of_ne_zero (Nat.ne_of_gt (Nat.zero_lt_of_lt h))
    have hRest : (c :: text).flatMap escaped ++ '"' :: rest =
        '\\' :: 'U' :: (hexDigits 8 c.toNat ++ (text.flatMap escaped ++ '"' :: rest)) := by
      simp [escaped]
    have hDrop :
        ('\\' :: 'U' :: (hexDigits 8 c.toNat ++ (text.flatMap escaped ++ '"' :: rest))).drop 10 =
        text.flatMap escaped ++ '"' :: rest :=
      List.drop_left' (length_hexDigits 8 c.toNat)
    obtain ⟨m', hText⟩ := ih (Nat.lt_of_succ_lt_succ h) (m.advance
      (('\\' :: 'U' :: (hexDigits 8 c.toNat ++ (text.flatMap escaped ++ '"' :: rest))).take 10))
    refine ⟨m', ?_⟩
    rw [hRest, readDoublePart_escape rfl (escape?_escaped c _), Cursor.advance]
    simp only
    rw [hDrop, hText]
    rfl

/-- A text in double quotes is read back. -/
theorem readQuoted_quotedText (text rest : List Char) {fuel : ℕ} (h : text.length < fuel) (m : Mark) :
    ∃ m', readQuoted true fuel ⟨quotedText text ++ rest, m⟩ = .ok (text, ⟨rest, m'⟩) := by
  obtain ⟨fuel, rfl⟩ := Nat.exists_eq_succ_of_ne_zero (Nat.ne_of_gt (Nat.zero_lt_of_lt h))
  obtain ⟨m', hText⟩ := readDoublePart_escaped text rest h (m.advance ['"'])
  have hRest : quotedText text ++ rest = '"' :: (text.flatMap escaped ++ '"' :: rest) := by
    simp [quotedText]
  -- no escape and no quote is the start of a document marker
  have hMarker : atDocumentMarker (text.flatMap escaped ++ '"' :: rest) = false := by
    cases text with
    | nil => exact atDocumentMarker_of_ne (by decide) (by decide) _
    | cons c text => exact atDocumentMarker_of_ne (by decide) (by decide) _
  have hNe : (text.flatMap escaped ++ '"' :: rest).isEmpty = false := by simp
  refine ⟨m'.advance ['"'], ?_⟩
  rw [hRest, readQuoted, Cursor.advance]
  simp only [List.drop_succ_cons, List.drop_zero, List.take_succ_cons, List.take_zero]
  rw [readQuotedParts]
  simp only [hMarker, hNe, Bool.false_eq_true, and_false, if_false, if_true]
  rw [show readDoublePart (fuel + 1) _ = _ from hText]
  rfl

end SnippetAudit.Yaml
