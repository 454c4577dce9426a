/-!
# Binary floating-point numbers of 64 bits

A number is its bit pattern: a sign, 11 bits of exponent and 52 bits of fraction.
The finite patterns of either sign denote `significand * 2 ^ exponent`, and in
their order as numbers they are counted by the 63 lower bits, so that rounding to
nearest is one exact division in the natural numbers.

Results:
* `ofRatio_zero`: nothing rounds to zero.
* `significand_add_shift`: significand and shift make up the magnitude.
-/

namespace SnippetAudit

/-- A floating-point number of 64 bits, as its bit pattern. -/
structure Binary64 where
  bits : UInt64
  deriving DecidableEq, Repr

namespace Binary64

/-- The lower 63 bits: the place of the absolute value among the non-negative patterns. -/
def magnitude (x : Binary64) : Nat := x.bits.toNat % 1 <<< 63

/-- Whether the sign bit is set. -/
def isNegative (x : Binary64) : Bool := 1 <<< 63 ≤ x.bits.toNat

/-- The magnitude of infinity; what lies above it is not a number. -/
def infinityMagnitude : Nat := 0x7FF <<< 52

/-- The pattern with a sign and a magnitude below `2 ^ 63`. -/
def ofMagnitude (negative : Bool) (magnitude : Nat) : Binary64 :=
  ⟨UInt64.ofNat (magnitude + if negative then 1 <<< 63 else 0)⟩

/-- Infinity of either sign. -/
def infinity (negative : Bool) : Binary64 := ofMagnitude negative infinityMagnitude

/-- The quiet value that is not a number. -/
def nan : Binary64 := ofMagnitude false (infinityMagnitude + 1 <<< 51)

/-- Whether a pattern is not a number. -/
def isNaN (x : Binary64) : Bool := infinityMagnitude < x.magnitude

/-- Whether a pattern is zero of either sign. -/
def isZero (x : Binary64) : Bool := x.magnitude == 0

/-- Whether a pattern is infinity of either sign. -/
def isInfinite (x : Binary64) : Bool := x.magnitude == infinityMagnitude

/-- Whether a pattern is a finite number. -/
def isFinite (x : Binary64) : Bool := x.magnitude < infinityMagnitude

/-- The exponent of two of a finite number, plus 1074. -/
def shift (x : Binary64) : Nat := x.magnitude >>> 52 - 1

/-- The whole factor of a finite number. -/
def significand (x : Binary64) : Nat := x.magnitude - x.shift <<< 52

/-- Equality of numbers: the zeros are equal, and what is not a number equals itself. -/
def sameNumber (x y : Binary64) : Bool :=
  if x.isNaN || y.isNaN then x.isNaN && y.isNaN
  else (x.isZero && y.isZero) || x == y

/-! ## Rounding -/

/-- The quotient rounded to the nearest whole number, a half to the even neighbour. -/
def roundQuotient (num den : Nat) : Nat :=
  let q := num / den
  let twice := 2 * (num % den)
  if twice < den then q else if den < twice then q + 1 else q + q % 2

/-- The power of two, plus 1074, of the last bit of the pattern nearest to `num / den`: 52 below the
    leading bit of the quotient, and never below the smallest positive number. -/
def shiftOfRatio (num den : Nat) : Nat :=
  -- the leading bit of the quotient is the difference of the leading bits, or one below it
  let lead := (num.log2 : Int) - den.log2
  let atLead := if 0 ≤ lead then den <<< lead.toNat ≤ num else den ≤ num <<< (-lead).toNat
  ((if atLead then lead else lead - 1) - 52 + 1074).toNat

/-- The pattern nearest to `num / den`, a half to the even neighbour; a quotient of half a step above
    the largest finite number or more is infinity. -/
def ofRatio (negative : Bool) (num den : Nat) : Binary64 :=
  if num = 0 then ofMagnitude negative 0
  else
    let shift := shiftOfRatio num den
    let magnitude := shift <<< 52 + roundQuotient (num <<< 1074) (den <<< shift)
    ofMagnitude negative (min magnitude infinityMagnitude)

/-- The pattern nearest to a whole number. -/
def ofInt (i : Int) : Binary64 :=
  ofRatio (i < 0) i.natAbs 1

/-- The pattern nearest to `digits * 10 ^ exponent`, where `digits` is below `10 ^ count`. A number far
    beyond the largest or far below the smallest one is rounded without being computed. -/
def ofDecimal (negative : Bool) (digits : Nat) (count : Nat) (exponent : Int) : Binary64 :=
  if digits = 0 then ofMagnitude negative 0
  else if exponent + count < -400 then ofMagnitude negative 0
  else if 400 < exponent then infinity negative
  else if exponent < 0 then ofRatio negative digits (Nat.pow 10 (-exponent).toNat)
  else ofRatio negative (digits * Nat.pow 10 exponent.toNat) 1

/-! ## Lemmas -/

@[simp] theorem ofRatio_zero (negative : Bool) (den : Nat) :
    ofRatio negative 0 den = ofMagnitude negative 0 := by
  simp [ofRatio]

theorem magnitude_lt (x : Binary64) : x.magnitude < 1 <<< 63 :=
  Nat.mod_lt _ (by decide)

theorem magnitude_ofMagnitude {negative : Bool} {m : Nat} (h : m < 1 <<< 63) :
    (ofMagnitude negative m).magnitude = m := by
  cases negative <;> simp [ofMagnitude, magnitude] <;> omega

/-- A finite number is its significand times a power of two. -/
theorem significand_add_shift (x : Binary64) :
    x.significand + x.shift <<< 52 = x.magnitude := by
  unfold significand shift
  omega

end Binary64

end SnippetAudit
