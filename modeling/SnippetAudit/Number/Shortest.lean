import SnippetAudit.Number.Binary64

/-!
# Shortest decimal text of a number

A finite number is written with the fewest decimal digits that are read back as it,
and of those with the digits nearest to it. The reals that are read back form an
interval around the number, which reaches half way to its neighbours; its ends
belong to it when the significand is even.

For 1, 2, … 17 digits the two points of that decimal grid next to the number are
tried; the first grid with a point in the interval gives the digits.

`decimalText` lays the digits out: positional with a point for decimal exponents
from -5 to 15, and with one digit before the point and `e` otherwise.

Results:
* `stripZeros_eq`: dropping zeros at the end of the digits keeps the value.
-/

namespace SnippetAudit

/-- A decimal number `digits * 10 ^ exponent`. -/
structure Decimal where
  digits : Nat
  exponent : Int
  deriving DecidableEq, Repr

namespace Decimal

/-- Drops up to `fuel` zeros at the end of the digits. -/
def stripZeros : Nat → Decimal → Decimal
  | 0, d => d
  | fuel + 1, d =>
    if d.digits ≠ 0 ∧ d.digits % 10 = 0 then stripZeros fuel ⟨d.digits / 10, d.exponent + 1⟩ else d

/-- The layout of a positive decimal: its digits with a point, or with an exponent. -/
def text (d : Decimal) : List Char :=
  let digits := Nat.toDigits 10 d.digits
  -- the place of the point, counted from the first digit
  let point : Int := digits.length + d.exponent
  if 0 ≤ d.exponent ∧ point ≤ 16 then
    digits ++ List.replicate d.exponent.toNat '0' ++ ['.', '0']
  else if 0 < point ∧ point ≤ 16 then
    digits.take point.toNat ++ '.' :: digits.drop point.toNat
  else if -5 < point ∧ point ≤ 0 then
    ['0', '.'] ++ List.replicate (-point).toNat '0' ++ digits
  else
    let exponent := toString (point - 1) |>.toList
    match digits with
    | [only] => only :: 'e' :: exponent
    | first :: others => first :: '.' :: others ++ 'e' :: exponent
    | [] => []

end Decimal

namespace Binary64

/-- A positive rational number. -/
structure Ratio where
  num : Nat
  den : Nat

/-- Whether `a < b`. -/
def Ratio.lt (a b : Ratio) : Bool := a.num * b.den < b.num * a.den

/-- The rational `halves * 2 ^ (shift - 1075)`: numbers and their midpoints are counted in halves of
    their last bit. -/
def ratioOfHalves (halves shift : Nat) : Ratio := ⟨halves <<< shift, 1 <<< 1075⟩

/-- The lower end of the interval that is read back as `x`. Below a power of two the steps are half
    as wide, but for the smallest exponent. -/
def lowerEnd (x : Binary64) : Ratio :=
  if x.significand = 1 <<< 52 ∧ 0 < x.shift then ratioOfHalves (4 * x.significand - 1) (x.shift - 1)
  else ratioOfHalves (2 * x.significand - 1) x.shift

/-- The upper end of the interval that is read back as `x`. -/
def upperEnd (x : Binary64) : Ratio := ratioOfHalves (2 * x.significand + 1) x.shift

/-- The value of a finite number, its sign left out. -/
def ratio (x : Binary64) : Ratio := ratioOfHalves (2 * x.significand) x.shift

/-- Whether a rational is read back as `x`. -/
def readsBack (x : Binary64) (r : Ratio) : Bool :=
  if x.significand % 2 = 0 then !r.lt x.lowerEnd && !x.upperEnd.lt r
  else x.lowerEnd.lt r && r.lt x.upperEnd

/-- The decimal as a rational. -/
def Ratio.ofDecimal (d : Decimal) : Ratio :=
  if 0 ≤ d.exponent then ⟨d.digits * Nat.pow 10 d.exponent.toNat, 1⟩
  else ⟨d.digits, Nat.pow 10 (-d.exponent).toNat⟩

/-- The decimal below or at a rational on the grid of a decimal exponent. -/
def Ratio.floorAt (r : Ratio) (exponent : Int) : Decimal :=
  if 0 ≤ exponent then ⟨r.num / (r.den * Nat.pow 10 exponent.toNat), exponent⟩
  else ⟨r.num * Nat.pow 10 (-exponent).toNat / r.den, exponent⟩

/-- The decimal exponent of the first digit of a rational: the estimate `start` is corrected by at most
    `fuel` steps. -/
def Ratio.leadingExponent (r : Ratio) : Nat → Int → Int
  | 0, start => start
  | fuel + 1, start =>
    if r.lt (ofDecimal ⟨1, start⟩) then leadingExponent r fuel (start - 1)
    else if r.lt (ofDecimal ⟨1, start + 1⟩) then start
    else leadingExponent r fuel (start + 1)

/-- Whether `d` is nearer to `r` than the next point of its grid, or as near and even. -/
def Ratio.nearerBelow (r : Ratio) (d : Decimal) : Bool :=
  -- compares `r` with the midpoint of the two
  let middle := ofDecimal ⟨10 * d.digits + 5, d.exponent - 1⟩
  r.lt middle || (!middle.lt r && d.digits % 2 == 0)

/-- The point of a grid nearest to `x` of those that are read back as `x`. -/
def onGrid? (x : Binary64) (exponent : Int) : Option Decimal :=
  let below := x.ratio.floorAt exponent
  let above : Decimal := ⟨below.digits + 1, exponent⟩
  let hitBelow := below.digits ≠ 0 && x.readsBack (.ofDecimal below)
  let hitAbove := x.readsBack (.ofDecimal above)
  if hitBelow && hitAbove then some (if x.ratio.nearerBelow below then below else above)
  else if hitBelow then some below
  else if hitAbove then some above
  else none

/-- The first hit on the grids of `count`, `count + 1`, … digits; `lead` is the exponent of the first
    digit. -/
def firstHit (x : Binary64) (lead : Int) : Nat → Nat → Decimal
  | 0, count => x.ratio.floorAt (lead - count + 1)
  | fuel + 1, count => (x.onGrid? (lead - count + 1)).getD (firstHit x lead fuel (count + 1))

/-- The shortest decimal that is read back as a finite number other than zero, its sign left out. -/
def shortest (x : Binary64) : Decimal :=
  let r := x.ratio
  let bits : Int := (r.num.log2 : Int) - r.den.log2
  let lead := r.leadingExponent 4 (bits * 30103 / 100000)
  (x.firstHit lead 17 1).stripZeros 20

/-- The text of a number. -/
def text (x : Binary64) : List Char :=
  if x.isNaN then ['.', 'n', 'a', 'n']
  else
    let sign := if x.isNegative then ['-'] else []
    if x.isInfinite then sign ++ ['.', 'i', 'n', 'f']
    else if x.isZero then sign ++ ['0', '.', '0']
    else sign ++ x.shortest.text

end Binary64

/-! ## Lemmas -/

/-- Dropping zeros at the end moves their power of ten into the exponent. -/
theorem Decimal.stripZeros_eq (fuel : Nat) (d : Decimal) :
    ∃ zeros : Nat, d.digits = (d.stripZeros fuel).digits * Nat.pow 10 zeros ∧
      (d.stripZeros fuel).exponent = d.exponent + zeros := by
  induction fuel generalizing d with
  | zero => exact ⟨0, by simp [stripZeros], by simp [stripZeros]⟩
  | succ fuel ih =>
    unfold stripZeros
    split
    · rename_i h
      obtain ⟨zeros, hDigits, hExponent⟩ := ih ⟨d.digits / 10, d.exponent + 1⟩
      refine ⟨zeros + 1, ?_, ?_⟩
      · simp only at hDigits
        rw [Nat.pow_eq, Nat.pow_succ, ← Nat.mul_assoc, ← Nat.pow_eq, ← hDigits]
        omega
      · rw [hExponent]; simp only; omega
    · exact ⟨0, by simp, by simp⟩

end SnippetAudit
