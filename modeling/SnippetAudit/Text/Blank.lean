/-!
# Blank characters

A character is blank when it has the Unicode property `White_Space`. Lines are
trimmed by this class before a comment sign is looked for, and a setting that
holds blanks only counts as empty.

Results:
* `isBlank_of_isWhitespace`: the blanks of ASCII are blanks.
* `trimStart_eq_self_iff`: what trimming at the left leaves alone.
* `trimEnd_append_blank`, `trimStart_blank_append`: blanks at an end do not matter.
-/

namespace SnippetAudit.Text

/-- The 25 characters with the Unicode property `White_Space`. -/
def isBlank (c : Char) : Bool :=
  let n := c.toNat
  (9 ≤ n && n ≤ 13) || n == 0x20 || n == 0x85 || n == 0xA0 || n == 0x1680
    || (0x2000 ≤ n && n ≤ 0x200A) || n == 0x2028 || n == 0x2029 || n == 0x202F || n == 0x205F
    || n == 0x3000

/-- The text without its leading blanks. -/
def trimStart (text : List Char) : List Char :=
  text.dropWhile isBlank

/-- The text without its trailing blanks. -/
def trimEnd (text : List Char) : List Char :=
  (text.reverse.dropWhile isBlank).reverse

/-- The text without leading and trailing blanks. -/
def trim (text : List Char) : List Char :=
  trimEnd (trimStart text)

/-- Whether nothing but blanks stands in the text. -/
def isAllBlank (text : List Char) : Bool :=
  text.all isBlank

/-! ## Lemmas -/

/-- Lean's ASCII blanks are blanks. -/
theorem isBlank_of_isWhitespace {c : Char} (h : c.isWhitespace = true) : isBlank c = true := by
  simp only [Char.isWhitespace, Bool.or_eq_true, decide_eq_true_eq] at h
  rcases h with ((rfl | rfl) | rfl) | rfl <;> decide

@[simp] theorem trimStart_nil : trimStart [] = [] := rfl

theorem trimStart_cons (c : Char) (text : List Char) :
    trimStart (c :: text) = if isBlank c then trimStart text else c :: text := by
  simp only [trimStart, List.dropWhile_cons]

theorem trimStart_eq_self_iff {c : Char} {text : List Char} :
    trimStart (c :: text) = c :: text ↔ isBlank c = false := by
  rw [trimStart_cons]
  cases h : isBlank c with
  | false => simp
  | true =>
    simp only [if_true, Bool.true_eq_false, iff_false]
    intro hEq
    have hLen : (trimStart text).length ≤ text.length :=
      (List.dropWhile_sublist isBlank).length_le
    rw [hEq, List.length_cons] at hLen
    omega

theorem trimStart_blank_append {gap : List Char} (text : List Char) (h : isAllBlank gap = true) :
    trimStart (gap ++ text) = trimStart text := by
  induction gap with
  | nil => rfl
  | cons c gap ih =>
    simp only [isAllBlank, List.all_cons, Bool.and_eq_true] at h
    rw [List.cons_append, trimStart_cons, if_pos h.1]
    exact ih h.2

theorem trimEnd_append_blank {text gap : List Char} (h : isAllBlank gap = true) :
    trimEnd (text ++ gap) = trimEnd text := by
  have hRev : isAllBlank gap.reverse = true := by
    simpa [isAllBlank] using h
  have := trimStart_blank_append text.reverse hRev
  simp only [trimEnd, List.reverse_append]
  rw [show (gap.reverse ++ text.reverse).dropWhile isBlank = text.reverse.dropWhile isBlank from this]

theorem trim_eq_nil_of_isAllBlank {text : List Char} (h : isAllBlank text = true) :
    trim text = [] := by
  have := trimStart_blank_append [] h
  simp only [List.append_nil] at this
  simp [trim, this, trimEnd]

end SnippetAudit.Text
