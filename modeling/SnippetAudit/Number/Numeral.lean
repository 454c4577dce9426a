import SnippetAudit.Number.Binary64

/-!
# Numerals

Digits in a radix, and decimal numerals with a point and an exponent, such as `-1.5e3`,
`1.` and `.5`.

Results:
* `digitsValue?_singleton`: a digit has its own value.
-/

namespace SnippetAudit.Numeral

/-- The value of a digit below a radix of at most 16. -/
def digitValue? (radix : Nat) (c : Char) : Option Nat :=
  let n := c.toNat
  let value :=
    if 48 ≤ n ∧ n ≤ 57 then some (n - 48)
    else if 97 ≤ n ∧ n ≤ 102 then some (n - 87)
    else if 65 ≤ n ∧ n ≤ 70 then some (n - 55)
    else none
  value.filter (· < radix)

/-- The value of a sequence of digits, started from a value. -/
def digitsFrom? (radix : Nat) : Nat → List Char → Option Nat
  | value, [] => some value
  | value, c :: rest => (digitValue? radix c).bind fun d => digitsFrom? radix (value * radix + d) rest

/-- The value of one or more digits. -/
def digitsValue? (radix : Nat) (digits : List Char) : Option Nat :=
  if digits.isEmpty then none else digitsFrom? radix 0 digits

/-- Whether a character is a decimal digit. -/
def isDigit (c : Char) : Bool := '0' ≤ c && c ≤ '9'

/-- The exponent that a numeral ends with: nothing, or `e` and a whole number. -/
def exponent? : List Char → Option Int
  | [] => some 0
  | c :: rest =>
    if c = 'e' ∨ c = 'E' then
      match rest with
      | '-' :: digits => (digitsValue? 10 digits).map fun n => -(n : Int)
      | '+' :: digits => (digitsValue? 10 digits).map fun n => (n : Int)
      | digits => (digitsValue? 10 digits).map fun n => (n : Int)
    else none

/-- The number nearest to an unsigned decimal numeral: digits with at most one point among or beside
    them, and an exponent. -/
def unsigned? (negative : Bool) (text : List Char) : Option Binary64 :=
  let whole := text.takeWhile isDigit
  let rest := text.dropWhile isDigit
  let (fraction, rest) := match rest with
    | '.' :: rest => (rest.takeWhile isDigit, rest.dropWhile isDigit)
    | rest => ([], rest)
  match digitsValue? 10 (whole ++ fraction), exponent? rest with
  | some digits, some exponent =>
    some (Binary64.ofDecimal negative digits (whole.length + fraction.length)
      (exponent - fraction.length))
  | _, _ => none

/-- The number nearest to a decimal numeral, which may have a sign. -/
def read? : List Char → Option Binary64
  | '-' :: rest => unsigned? true rest
  | '+' :: rest => unsigned? false rest
  | text => unsigned? false text

/-! ## Lemmas -/

theorem digitsValue?_singleton (radix : Nat) (c : Char) :
    digitsValue? radix [c] = digitValue? radix c := by
  simp only [digitsValue?, List.isEmpty_cons, Bool.false_eq_true, if_false, digitsFrom?]
  cases digitValue? radix c <;> simp

end SnippetAudit.Numeral
