import SnippetAudit.Proofs.Lists
import SnippetAudit.Proofs.Number.Digits
import SnippetAudit.Proofs.Number.ReadBack
import SnippetAudit.Proofs.Report.JsonReader

/-!
# Numbers and their texts

The text of a number is a numeral. Read digit by digit it has the value of the shortest decimal of the
number, in whichever of the four layouts, and that decimal is read back as the number. So numbers with
one text are the same. Only what is not a number has one text for all its patterns.

Results:
* `Decimal.text_cases`, `Decimal.magnitude?_text`: the layouts, and what they are read as.
* `Binary64.text_eq_iff`: floating-point numbers are told apart by their texts.
* `Yaml.Number.text_eq_iff`: so are the numbers of a document.
-/

namespace SnippetAudit

open Numeral Report JsonReader

/-! ## Numerals -/

theorem isDigit_of_mem_digits {n : ℕ} {c : Char} (h : c ∈ Nat.toDigits 10 n) : isDigit c = true :=
  isDigit_iff.mpr (isDigit_of_mem_toDigits h)

theorem isDigit_of_mem_head? {c : Char} (hc : isDigit c = false) (tail : List Char) :
    ∀ c' ∈ (c :: tail).head?, isDigit c' = false := by
  intro c' h
  rw [← Option.some.inj h]
  exact hc

theorem digitsValue?_of_isDigit {digits : List Char} (hNil : digits ≠ [])
    (h : ∀ c ∈ digits, isDigit c = true) :
    digitsValue? 10 digits = some (Nat.ofDigitChars 10 digits 0) := by
  have hSome : digits.isEmpty = false := List.isEmpty_eq_false_iff.mpr hNil
  rw [digitsValue?, hSome, digitsFrom?_of_isDigit fun c hc => isDigit_iff.mp (h c hc)]
  rfl

/-- The exponent behind an `e` is read back. -/
theorem exponent?_toString (k : ℤ) : exponent? ('e' :: (toString k).toList) = some k := by
  rw [Int.toString_eq_repr, Int.repr_eq_if]
  by_cases hk : 0 ≤ k
  · rw [if_pos hk, Nat.toList_repr]
    have hValue := digitsValue?_toDigits k.toNat
    have hDigit {c : Char} {cs : List Char} (h : Nat.toDigits 10 k.toNat = c :: cs) :
        c.isDigit = true := isDigit_of_mem_toDigits (h ▸ List.mem_cons_self)
    have hRead : (some k.toNat >>= fun n => pure (n : ℤ)) = some k := by
      rw [Option.bind_eq_bind, Option.bind_some, Int.toNat_of_nonneg hk]
      rfl
    rw [exponent?, if_pos (.inl rfl), hValue, hRead]
    · rfl
    · intro cs hMinus
      cases hDigit hMinus
    · intro cs hPlus
      cases hDigit hPlus
  · rw [if_neg hk, String.toList_append, Nat.toList_repr]
    have hValue := digitsValue?_toDigits (-k).toNat
    change exponent? ('e' :: '-' :: Nat.toDigits 10 (-k).toNat) = some k
    rw [exponent?, if_pos (.inl rfl), hValue]
    change some (-((-k).toNat : ℤ)) = some k
    rw [Int.toNat_of_nonneg (by omega), neg_neg]

/-- A numeral is read as its digits and the power of ten that its exponent and its fraction give. -/
theorem magnitude?_append (whole : List Char) {tail fraction rest : List Char} {e : ℤ}
    (hNil : whole ≠ []) (hWhole : ∀ c ∈ whole, isDigit c = true)
    (hSpare : whole.head? = some '0' → whole.length ≤ 1)
    (hTail : ∀ c ∈ tail.head?, isDigit c = false) (hFraction : fraction? tail = some (fraction, rest))
    (hDigits : ∀ c ∈ fraction, isDigit c = true) (hExponent : exponent? rest = some e) :
    magnitude? (whole ++ tail) =
      some ⟨Nat.ofDigitChars 10 (whole ++ fraction) 0, e - fraction.length⟩ := by
  obtain ⟨hTake, hDrop⟩ := takeWhile_append_of_head? hWhole hTail
  have hValue : digitsValue? 10 (whole ++ fraction) =
      some (Nat.ofDigitChars 10 (whole ++ fraction) 0) := by
    apply digitsValue?_of_isDigit
    · simp [hNil]
    · exact List.forall_mem_append.mpr ⟨hWhole, hDigits⟩
  have hPlain : (whole.isEmpty || (whole.head? == some '0' && decide (1 < whole.length))) = false := by
    rw [Bool.or_eq_false_iff, Bool.and_eq_false_imp]
    refine ⟨List.isEmpty_eq_false_iff.mpr hNil, ?_⟩
    intro hZero
    have := hSpare (beq_iff_eq.mp hZero)
    exact decide_eq_false (by omega)
  unfold magnitude?
  simp only
  rw [hTake, hDrop, hPlain, hFraction, if_neg Bool.false_ne_true]
  simp only
  rw [hValue, hExponent]

theorem fraction?_point (fraction rest : List Char) (hNil : fraction ≠ [])
    (hDigits : ∀ c ∈ fraction, isDigit c = true) (hRest : ∀ c ∈ rest.head?, isDigit c = false) :
    fraction? ('.' :: (fraction ++ rest)) = some (fraction, rest) := by
  obtain ⟨hTake, hDrop⟩ := takeWhile_append_of_head? hDigits hRest
  unfold fraction?
  simp only
  rw [hTake, hDrop, List.isEmpty_eq_false_iff.mpr hNil]
  rfl

/-! ## Layouts -/

namespace Decimal

theorem forall_mem_replicate_zero (n : ℕ) : ∀ c ∈ List.replicate n '0', isDigit c = true := by
  intro c hc
  rw [(List.mem_replicate.mp hc).2]
  rfl

/-- The layouts of a decimal, by where the point lies in them. -/
theorem text_cases (d : Decimal) {digits : List Char} (hDigits : Nat.toDigits 10 d.digits = digits) :
    (∃ n : ℕ, d.exponent = n ∧ d.text = (digits ++ List.replicate n '0') ++ ['.', '0']) ∨
    (∃ n : ℕ, 0 < n ∧ n < digits.length ∧ d.exponent = n - digits.length ∧
      d.text = digits.take n ++ '.' :: digits.drop n) ∨
    (∃ n : ℕ, d.exponent = -n - digits.length ∧
      d.text = ['0'] ++ '.' :: (List.replicate n '0' ++ digits)) ∨
    ∃ first others k, digits = first :: others ∧ d.exponent = k - others.length ∧
      d.text = [first] ++ (if others.isEmpty then [] else '.' :: others) ++
        'e' :: (toString k).toList := by
  have hLength : 0 < digits.length := by
    rw [← hDigits]
    exact List.length_pos_iff.mpr Nat.toDigits_ne_nil
  unfold text
  simp only
  rw [hDigits]
  generalize hPoint : (digits.length : ℤ) + d.exponent = point
  split
  · rename_i h
    obtain ⟨n, hn⟩ := Int.eq_ofNat_of_zero_le h.1
    exact .inl ⟨n, hn, by rw [hn]; rfl⟩
  split
  · rename_i hWhole h
    obtain ⟨n, hn⟩ := Int.eq_ofNat_of_zero_le h.1.le
    exact .inr (.inl ⟨n, by omega, by omega, by omega, by rw [hn]; rfl⟩)
  split
  · rename_i h
    obtain ⟨n, hn⟩ := Int.eq_ofNat_of_zero_le (by omega : 0 ≤ -point)
    refine .inr (.inr (.inl ⟨n, by omega, ?_⟩))
    rw [hn]
    rfl
  · refine .inr (.inr (.inr ?_))
    cases digits with
    | nil => cases hLength
    | cons first others =>
      refine ⟨first, others, point - 1, rfl, ?_, ?_⟩
      · rw [List.length_cons] at hPoint
        push_cast at hPoint
        omega
      · cases others with
        | nil => rfl
        | cons second others => simp

/-- Digits that stand in no need of a zero in front, as those of a number above zero do. -/
structure Leading (digits : List Char) : Prop where
  ne_nil : digits ≠ []
  isDigit : ∀ c ∈ digits, isDigit c = true
  head : digits.head? ≠ some '0'

theorem leading_toDigits {n : ℕ} (h : n ≠ 0) : Leading (Nat.toDigits 10 n) where
  ne_nil := Nat.toDigits_ne_nil
  isDigit _ := isDigit_of_mem_digits
  head := by
    intro hZero
    have hValue : Nat.ofDigitChars 10 (Nat.toDigits 10 n) 0 = n := Nat.ofDigitChars_ten_toDigits
    rw [head?_toDigits hZero] at hValue
    exact h hValue.symm

/-- The layout with zeros behind the digits. -/
theorem magnitude?_zeros {digits : List Char} (h : Leading digits) (n : ℕ) :
    magnitude? ((digits ++ List.replicate n '0') ++ ['.', '0']) =
      some ⟨Nat.ofDigitChars 10 digits 0 * 10 ^ n * 10, -1⟩ := by
  have hDigits := List.forall_mem_append.mpr ⟨h.isDigit, forall_mem_replicate_zero n⟩
  have hSpare : (digits ++ List.replicate n '0').head? = some '0' →
      (digits ++ List.replicate n '0').length ≤ 1 := by
    rw [List.head?_append_of_ne_nil _ h.ne_nil]
    exact fun hZero => absurd hZero h.head
  have hFraction : fraction? ['.', '0'] = some (['0'], []) := rfl
  rw [magnitude?_append _ (by simp [h.ne_nil]) hDigits hSpare (isDigit_of_mem_head? rfl _) hFraction
    (List.forall_mem_singleton.mpr rfl) rfl]
  rw [Nat.ofDigitChars_append, Nat.ofDigitChars_append, Nat.ofDigitChars_replicate_zero,
    Nat.ofDigitChars_cons, Nat.ofDigitChars_nil]
  congr 2
  rw [Nat.sub_self]
  ring

/-- The layout with the point between two digits. -/
theorem magnitude?_point {digits : List Char} (h : Leading digits) {n : ℕ} (hPos : 0 < n)
    (hLt : n < digits.length) :
    magnitude? (digits.take n ++ '.' :: digits.drop n) =
      some ⟨Nat.ofDigitChars 10 digits 0, n - digits.length⟩ := by
  have hBehind : ∀ c ∈ digits.drop n, isDigit c = true := fun c hc =>
    h.isDigit c (List.mem_of_mem_drop hc)
  have hFraction := fraction?_point (digits.drop n) []
    (by rw [← List.length_pos_iff, List.length_drop]; omega) hBehind (by simp)
  rw [List.append_nil] at hFraction
  have hSpare : (digits.take n).head? = some '0' → (digits.take n).length ≤ 1 := by
    rw [List.head?_take, if_neg (by omega)]
    exact fun hZero => absurd hZero h.head
  rw [magnitude?_append (digits.take n) (by rw [← List.length_pos_iff, List.length_take]; omega)
    (fun c hc => h.isDigit c (List.mem_of_mem_take hc)) hSpare (isDigit_of_mem_head? rfl _) hFraction
    hBehind rfl]
  rw [List.take_append_drop, List.length_drop]
  congr 2
  omega

/-- The layout with the point, and zeros, in front of the digits. -/
theorem magnitude?_fraction {digits : List Char} (h : Leading digits) (n : ℕ) :
    magnitude? (['0'] ++ '.' :: (List.replicate n '0' ++ digits)) =
      some ⟨Nat.ofDigitChars 10 digits 0, -n - digits.length⟩ := by
  have hDigits := List.forall_mem_append.mpr ⟨forall_mem_replicate_zero n, h.isDigit⟩
  have hFraction := fraction?_point (List.replicate n '0' ++ digits) [] (by simp [h.ne_nil]) hDigits
    (by simp)
  rw [List.append_nil] at hFraction
  rw [magnitude?_append ['0'] (by simp) (List.forall_mem_singleton.mpr rfl) (by decide)
    (isDigit_of_mem_head? rfl _) hFraction hDigits rfl]
  rw [Nat.ofDigitChars_append, Nat.ofDigitChars_append, Nat.ofDigitChars_cons, Nat.ofDigitChars_nil,
    Nat.ofDigitChars_replicate_zero, List.length_append, List.length_replicate]
  congr 2
  push_cast
  ring

/-- The layout with an exponent. Behind a single digit it has no point. -/
theorem magnitude?_scientific {first : Char} {others : List Char}
    (h : ∀ c ∈ first :: others, isDigit c = true) (k : ℤ) :
    magnitude? ([first] ++ (if others.isEmpty then [] else '.' :: others) ++
        'e' :: (toString k).toList) =
      some ⟨Nat.ofDigitChars 10 (first :: others) 0, k - others.length⟩ := by
  obtain ⟨hFirst, hOthers⟩ := List.forall_mem_cons.mp h
  have hWhole : ∀ c ∈ [first], isDigit c = true := List.forall_mem_singleton.mpr hFirst
  rw [List.append_assoc]
  cases others with
  | nil =>
    exact magnitude?_append [first] (by simp) hWhole (by simp) (isDigit_of_mem_head? rfl _) rfl
      (by simp) (exponent?_toString k)
  | cons second others =>
    have hFraction := fraction?_point (second :: others) ('e' :: (toString k).toList) (by simp) hOthers
      (isDigit_of_mem_head? rfl _)
    exact magnitude?_append [first] (by simp) hWhole (by simp) (isDigit_of_mem_head? rfl _) hFraction
      hOthers (exponent?_toString k)

/-- A layout is read as a decimal of the same value. -/
theorem magnitude?_text {d : Decimal} (h : d.digits ≠ 0) :
    ∃ d', magnitude? d.text = some d' ∧ d'.value = d.value := by
  have hLeading := leading_toDigits h
  have hValue : Nat.ofDigitChars 10 (Nat.toDigits 10 d.digits) 0 = d.digits :=
    Nat.ofDigitChars_ten_toDigits
  have hCases := d.text_cases rfl
  generalize Nat.toDigits 10 d.digits = digits at *
  rcases hCases with ⟨n, hExponent, hText⟩ | ⟨n, hPos, hLt, hExponent, hText⟩ |
    ⟨n, hExponent, hText⟩ | ⟨first, others, k, rfl, hExponent, hText⟩
  · rw [hText, magnitude?_zeros hLeading, hValue]
    refine ⟨_, rfl, ?_⟩
    rw [value, value, hExponent]
    simp
  · rw [hText, magnitude?_point hLeading hPos hLt, hValue, ← hExponent]
    exact ⟨d, rfl, rfl⟩
  · rw [hText, magnitude?_fraction hLeading, hValue, ← hExponent]
    exact ⟨d, rfl, rfl⟩
  · rw [hText, magnitude?_scientific hLeading.isDigit, hValue, ← hExponent]
    exact ⟨d, rfl, rfl⟩

end Decimal

/-! ## Numbers -/

namespace Binary64

/-- A number is its sign and its magnitude. -/
theorem eq_of_magnitude_eq {x y : Binary64} (hSign : x.isNegative = y.isNegative)
    (hMagnitude : x.magnitude = y.magnitude) : x = y := by
  have hBits : x.bits.toNat = y.bits.toNat := by
    have hx := x.bits.toNat_lt
    have hy := y.bits.toNat_lt
    unfold isNegative at hSign
    unfold magnitude at hMagnitude
    rw [decide_eq_decide] at hSign
    have hTop : 1 <<< 63 = 9223372036854775808 := by decide
    rw [hTop] at hSign hMagnitude
    omega
  cases x
  cases y
  exact congrArg Binary64.mk (UInt64.toNat_inj.mp hBits)

/-- The text of a number without its sign. -/
def unsignedText (x : Binary64) : List Char :=
  if x.isInfinite then ['.', 'i', 'n', 'f']
  else if x.isZero then ['0', '.', '0']
  else x.shortest.text

theorem text_of_isNaN {x : Binary64} (h : x.isNaN = true) : x.text = ['.', 'n', 'a', 'n'] := if_pos h

theorem text_eq_append {x : Binary64} (h : x.isNaN = false) :
    x.text = (if x.isNegative then ['-'] else []) ++ x.unsignedText := by
  unfold text unsignedText
  rw [h, if_neg Bool.false_ne_true]
  simp only
  split
  · rfl
  split
  · rfl
  · rfl

/-- Read as a numeral, infinity has no value, zero has the value zero, and any other number has the
    value of its shortest decimal. -/
theorem unsignedText_cases {x : Binary64} (h : x.isNaN = false) :
    (x.magnitude = infinityMagnitude ∧ x.unsignedText = ['.', 'i', 'n', 'f'] ∧
      (magnitude? x.unsignedText).map Decimal.value = none) ∨
    (x.magnitude = 0 ∧ (magnitude? x.unsignedText).map Decimal.value = some 0) ∨
    (0 < x.magnitude ∧ x.isFinite = true ∧ x.shortest.value ≠ 0 ∧
      (magnitude? x.unsignedText).map Decimal.value = some x.shortest.value) := by
  unfold unsignedText
  by_cases hInfinite : x.isInfinite = true
  · rw [if_pos hInfinite]
    exact .inl ⟨beq_iff_eq.mp hInfinite, rfl, rfl⟩
  rw [if_neg hInfinite]
  by_cases hZero : x.isZero = true
  · rw [if_pos hZero]
    refine .inr (.inl ⟨beq_iff_eq.mp hZero, ?_⟩)
    have hRead : magnitude? ['0', '.', '0'] = some ⟨0, -1⟩ := rfl
    rw [hRead, Option.map_some, Decimal.value]
    simp
  · rw [if_neg hZero]
    have hPos : 0 < x.magnitude := Nat.pos_of_ne_zero fun hNone => hZero (beq_iff_eq.mpr hNone)
    have hFinite : x.isFinite = true := by
      have hLe : x.magnitude ≤ infinityMagnitude := Nat.le_of_not_lt (of_decide_eq_false h)
      have hNe : x.magnitude ≠ infinityMagnitude := fun hEq => hInfinite (beq_iff_eq.mpr hEq)
      exact decide_eq_true (Nat.lt_of_le_of_ne hLe hNe)
    have hDigits := (readsBack_shortest hPos hFinite).1
    obtain ⟨d, hRead, hValue⟩ := Decimal.magnitude?_text hDigits
    refine .inr (.inr ⟨hPos, hFinite, ?_, ?_⟩)
    · have hTen : (10 : ℚ) ^ x.shortest.exponent ≠ 0 := zpow_ne_zero _ (by norm_num)
      exact mul_ne_zero (Nat.cast_ne_zero.mpr hDigits) hTen
    · rw [hRead, Option.map_some, hValue]

/-- Numbers of one text without the sign have one magnitude. -/
theorem magnitude_eq_of_unsignedText {x y : Binary64} (hx : x.isNaN = false) (hy : y.isNaN = false)
    (h : x.unsignedText = y.unsignedText) : x.magnitude = y.magnitude := by
  have hValue : (magnitude? x.unsignedText).map Decimal.value =
      (magnitude? y.unsignedText).map Decimal.value := by rw [h]
  rcases unsignedText_cases hx with ⟨hm, -, hv⟩ | ⟨hm, hv⟩ | ⟨hm, hFinite, hNe, hv⟩
  · rcases unsignedText_cases hy with ⟨hm', -, hv'⟩ | ⟨_, hv'⟩ | ⟨_, _, _, hv'⟩
    · rw [hm, hm']
    · cases hv.symm.trans (hValue.trans hv')
    · cases hv.symm.trans (hValue.trans hv')
  · rcases unsignedText_cases hy with ⟨_, -, hv'⟩ | ⟨hm', hv'⟩ | ⟨_, _, hNe', hv'⟩
    · cases hv.symm.trans (hValue.trans hv')
    · rw [hm, hm']
    · exact absurd (Option.some.inj (hv.symm.trans (hValue.trans hv'))).symm hNe'
  · rcases unsignedText_cases hy with ⟨_, -, hv'⟩ | ⟨_, hv'⟩ | ⟨hm', hFinite', _, hv'⟩
    · cases hv.symm.trans (hValue.trans hv')
    · exact absurd (Option.some.inj (hv.symm.trans (hValue.trans hv'))) hNe
    · -- the decimals have one value, and no decimal is read back as two numbers
      obtain ⟨r, hr, hRead, hBack⟩ := (readsBack_shortest hm hFinite).2
      obtain ⟨s, hs, hRead', hBack'⟩ := (readsBack_shortest hm' hFinite').2
      apply magnitude_eq_of_readsBack hm hm' hr hs hBack hBack'
      rw [hRead, hRead', Option.some.inj (hv.symm.trans (hValue.trans hv'))]

/-- A text without a sign does not start with one. -/
theorem head?_unsignedText {x : Binary64} (h : x.isNaN = false) : x.unsignedText.head? ≠ some '-' := by
  intro hMinus
  obtain ⟨cs, hText⟩ : ∃ cs, x.unsignedText = '-' :: cs := List.head?_eq_some_iff.mp hMinus
  have hNone : magnitude? ('-' :: cs) = none := rfl
  rcases unsignedText_cases h with ⟨-, hInfinite, -⟩ | ⟨-, hv⟩ | ⟨-, -, -, hv⟩
  · rw [hText] at hInfinite
    cases hInfinite
  · rw [hText, hNone] at hv
    cases hv
  · rw [hText, hNone] at hv
    cases hv

/-- Behind a sign nothing is lost. -/
theorem sign_append_inj (s s' : Bool) {a b : List Char} (ha : a.head? ≠ some '-')
    (hb : b.head? ≠ some '-')
    (h : (if s then ['-'] else []) ++ a = (if s' then ['-'] else []) ++ b) : s = s' ∧ a = b := by
  cases s with
  | false =>
    cases s' with
    | false => exact ⟨rfl, h⟩
    | true => exact absurd (congrArg List.head? h) ha
  | true =>
    cases s' with
    | false => exact absurd (congrArg List.head? h).symm hb
    | true => exact ⟨rfl, (List.cons.inj h).2⟩

theorem text_ne_of_isNaN_eq_false {x : Binary64} (h : x.isNaN = false) :
    x.text ≠ ['.', 'n', 'a', 'n'] := by
  intro hText
  rw [text_eq_append h] at hText
  have hNoSign : x.unsignedText = ['.', 'n', 'a', 'n'] :=
    (sign_append_inj x.isNegative false (head?_unsignedText h) (by decide) hText).2
  have hNone : magnitude? ['.', 'n', 'a', 'n'] = none := rfl
  rcases unsignedText_cases h with ⟨-, hInfinite, -⟩ | ⟨-, hv⟩ | ⟨-, -, -, hv⟩
  · rw [hNoSign] at hInfinite
    cases hInfinite
  · rw [hNoSign, hNone] at hv
    cases hv
  · rw [hNoSign, hNone] at hv
    cases hv

/-- Numbers are told apart by their texts, but for those that are not numbers. -/
theorem text_eq_iff {x y : Binary64} :
    x.text = y.text ↔ x = y ∨ (x.isNaN = true ∧ y.isNaN = true) := by
  constructor
  · intro h
    cases hx : x.isNaN with
    | true =>
      cases hy : y.isNaN with
      | true => exact .inr ⟨rfl, rfl⟩
      | false => exact absurd (h.symm.trans (text_of_isNaN hx)) (text_ne_of_isNaN_eq_false hy)
    | false =>
      cases hy : y.isNaN with
      | true => exact absurd (h.trans (text_of_isNaN hy)) (text_ne_of_isNaN_eq_false hx)
      | false =>
        left
        rw [text_eq_append hx, text_eq_append hy] at h
        obtain ⟨hSign, hText⟩ :=
          sign_append_inj _ _ (head?_unsignedText hx) (head?_unsignedText hy) h
        exact eq_of_magnitude_eq hSign (magnitude_eq_of_unsignedText hx hy hText)
  · rintro (rfl | ⟨hx, hy⟩)
    · rfl
    · rw [text_of_isNaN hx, text_of_isNaN hy]

end Binary64

/-! ## Whole numbers beside others -/

/-- A layout has a point or an exponent. -/
theorem Decimal.mark_mem_text (d : Decimal) : '.' ∈ d.text ∨ 'e' ∈ d.text := by
  rcases d.text_cases rfl with ⟨_, _, hText⟩ | ⟨_, _, _, _, hText⟩ | ⟨_, _, hText⟩ |
    ⟨_, _, _, _, _, hText⟩
  · exact .inl (by simp [hText])
  · exact .inl (by simp [hText])
  · exact .inl (by simp [hText])
  · exact .inr (by simp [hText])

theorem Binary64.mark_mem_text (x : Binary64) : '.' ∈ x.text ∨ 'e' ∈ x.text := by
  cases h : x.isNaN with
  | true =>
    rw [text_of_isNaN h]
    exact .inl (by decide)
  | false =>
    have hUnsigned : '.' ∈ x.unsignedText ∨ 'e' ∈ x.unsignedText := by
      unfold unsignedText
      split
      · exact .inl (by decide)
      split
      · exact .inl (by decide)
      · exact x.shortest.mark_mem_text
    rw [text_eq_append h]
    exact hUnsigned.imp (List.mem_append_right _) (List.mem_append_right _)

theorem toString_int_ne_text (i : ℤ) (x : Binary64) : (toString i).toList ≠ x.text := by
  intro h
  have hPoint : '.' ∉ (toString i).toList := not_mem_toString_int (by decide) (by decide) i
  have hE : 'e' ∉ (toString i).toList := not_mem_toString_int (by decide) (by decide) i
  rw [h] at hPoint hE
  exact x.mark_mem_text.elim hPoint hE

theorem toString_int_inj {i j : ℤ} (h : (toString i).toList = (toString j).toList) : i = j := by
  have hRead := exponent?_toString i
  rw [h, exponent?_toString j] at hRead
  exact (Option.some.inj hRead).symm

/-- The numbers of a document are told apart by their texts, but for those that are not numbers. -/
theorem Yaml.Number.text_eq_iff {m n : Yaml.Number} :
    m.text = n.text ↔
      m = n ∨ ∃ x y, m = .float x ∧ n = .float y ∧ x.isNaN = true ∧ y.isNaN = true := by
  cases m with
  | whole i =>
    cases n with
    | whole j =>
      constructor
      · intro h
        exact .inl (congrArg _ (toString_int_inj h))
      · rintro (h | ⟨_, _, h, _⟩)
        · rw [h]
        · cases h
    | float y =>
      constructor
      · intro h
        exact absurd h (toString_int_ne_text i y)
      · rintro (h | ⟨_, _, h, _⟩)
        · cases h
        · cases h
  | float x =>
    cases n with
    | whole j =>
      constructor
      · intro h
        exact absurd h.symm (toString_int_ne_text j x)
      · rintro (h | ⟨_, _, _, h, _⟩)
        · cases h
        · cases h
    | float y =>
      have hText : x.text = y.text ↔ x = y ∨ (x.isNaN = true ∧ y.isNaN = true) := Binary64.text_eq_iff
      simpa [Yaml.Number.text] using hText

end SnippetAudit
