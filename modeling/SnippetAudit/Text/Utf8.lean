/-!
# UTF-8

Bytes are read as characters one byte at a time. A byte sequence that cannot be
continued is given up at the longest prefix that some character could have
started with, and the byte that broke it is looked at again.

`decodeParts` lists what was read: a character, or `none` for a part that is no
text. `decode?` accepts bytes without such a part; `decodeLossy` puts U+FFFD in
the place of each.

Results:
* `decodeParts_encode`: encoded text is read back, character by character.
* `decode?_encode`, `decodeLossy_encode`: so both readings return the text.
-/

namespace SnippetAudit.Text.Utf8

/-- A sequence that waits for `more + 1` further bytes; the next one lies between `low` and `high`. -/
structure Pending where
  value : Nat
  more : Nat
  low : Nat
  high : Nat

/-- What one byte means at the start of a sequence. -/
inductive Start where
  | char (c : Char)
  | pending (p : Pending)
  | invalid

/-- The sequences that a byte may start. A second byte is restricted where the whole would be
    written longer than needed, would be a surrogate, or would pass U+10FFFF. -/
def Start.ofByte (b : UInt8) : Start :=
  let n := b.toNat
  if n < 0x80 then .char (Char.ofNat n)
  else if n < 0xC2 then .invalid
  else if n < 0xE0 then .pending ⟨n - 0xC0, 0, 0x80, 0xBF⟩
  else if n = 0xE0 then .pending ⟨0, 1, 0xA0, 0xBF⟩
  else if n = 0xED then .pending ⟨0xD, 1, 0x80, 0x9F⟩
  else if n < 0xF0 then .pending ⟨n - 0xE0, 1, 0x80, 0xBF⟩
  else if n = 0xF0 then .pending ⟨0, 2, 0x90, 0xBF⟩
  else if n < 0xF4 then .pending ⟨n - 0xF0, 2, 0x80, 0xBF⟩
  else if n = 0xF4 then .pending ⟨4, 2, 0x80, 0x8F⟩
  else .invalid

/-- Reads on from an open sequence, or from none. -/
def decodeFrom : Option Pending → List UInt8 → List (Option Char)
  | none, [] => []
  | some _, [] => [none]
  | none, b :: bytes =>
    match Start.ofByte b with
    | .char c => some c :: decodeFrom none bytes
    | .pending p => decodeFrom (some p) bytes
    | .invalid => none :: decodeFrom none bytes
  | some p, b :: bytes =>
    if p.low ≤ b.toNat ∧ b.toNat ≤ p.high then
      let value := p.value * 64 + (b.toNat - 0x80)
      match p.more with
      | 0 => some (Char.ofNat value) :: decodeFrom none bytes
      | more + 1 => decodeFrom (some ⟨value, more, 0x80, 0xBF⟩) bytes
    else
      match Start.ofByte b with
      | .char c => none :: some c :: decodeFrom none bytes
      | .pending p => none :: decodeFrom (some p) bytes
      | .invalid => none :: none :: decodeFrom none bytes

/-- The characters of a byte sequence, with `none` for each part that is no text. -/
def decodeParts (bytes : List UInt8) : List (Option Char) :=
  decodeFrom none bytes

/-- The text of a byte sequence, if all of it is text. -/
def decode? (bytes : List UInt8) : Option (List Char) :=
  (decodeParts bytes).mapM id

/-- The text of a byte sequence, with U+FFFD for each part that is no text. -/
def decodeLossy (bytes : List UInt8) : List Char :=
  (decodeParts bytes).map (·.getD '\uFFFD')

/-- The bytes of a text. -/
def encode (text : List Char) : List UInt8 :=
  text.flatMap String.utf8EncodeChar

/-! ## Lemmas -/

theorem toNat_ofNat_of_lt {n : Nat} (h : n < 256) : (UInt8.ofNat n).toNat = n := by
  rw [UInt8.toNat_ofNat']; omega

/-- The last byte of a sequence. -/
theorem decodeFrom_last {value low high n : Nat} {bytes : List UInt8}
    (hLow : low ≤ n) (hHigh : n ≤ high) (h : n < 256) :
    decodeFrom (some ⟨value, 0, low, high⟩) (UInt8.ofNat n :: bytes) =
      some (Char.ofNat (value * 64 + (n - 0x80))) :: decodeFrom none bytes := by
  rw [decodeFrom, toNat_ofNat_of_lt h, if_pos ⟨hLow, hHigh⟩]

/-- A byte in the middle of a sequence. -/
theorem decodeFrom_middle {value more low high n : Nat} {bytes : List UInt8}
    (hLow : low ≤ n) (hHigh : n ≤ high) (h : n < 256) :
    decodeFrom (some ⟨value, more + 1, low, high⟩) (UInt8.ofNat n :: bytes) =
      decodeFrom (some ⟨value * 64 + (n - 0x80), more, 0x80, 0xBF⟩) bytes := by
  rw [decodeFrom, toNat_ofNat_of_lt h, if_pos ⟨hLow, hHigh⟩]

/-- The first byte of a sequence of several. -/
theorem decodeFrom_first {n : Nat} {bytes : List UInt8} {p : Pending}
    (h : Start.ofByte (UInt8.ofNat n) = .pending p) :
    decodeFrom none (UInt8.ofNat n :: bytes) = decodeFrom (some p) bytes := by
  rw [decodeFrom, h]

/-- The first of three bytes. -/
theorem ofByte_of_three {v : Nat} (h : 0x7FF < v) (hMax : v ≤ 0xFFFF)
    (hValid : v < 0xD800 ∨ 0xDFFF < v) :
    ∃ low high, Start.ofByte (UInt8.ofNat (v / 4096 % 16 + 224)) = .pending ⟨v / 4096, 1, low, high⟩ ∧
      low ≤ v / 64 % 64 + 128 ∧ v / 64 % 64 + 128 ≤ high := by
  rw [Start.ofByte, toNat_ofNat_of_lt (by omega), if_neg (by omega), if_neg (by omega),
    if_neg (by omega)]
  split
  · exact ⟨0xA0, 0xBF, by rw [show v / 4096 = 0 by omega], by omega, by omega⟩
  split
  · exact ⟨0x80, 0x9F, by rw [show v / 4096 = 0xD by omega], by omega, by omega⟩
  rw [if_pos (by omega)]
  exact ⟨0x80, 0xBF, by rw [show v / 4096 % 16 + 224 - 0xE0 = v / 4096 by omega], by omega, by omega⟩

/-- The first of four bytes. -/
theorem ofByte_of_four {v : Nat} (h : 0xFFFF < v) (hMax : v < 0x110000) :
    ∃ low high,
      Start.ofByte (UInt8.ofNat (v / 262144 % 8 + 240)) = .pending ⟨v / 262144, 2, low, high⟩ ∧
      low ≤ v / 4096 % 64 + 128 ∧ v / 4096 % 64 + 128 ≤ high := by
  rw [Start.ofByte, toNat_ofNat_of_lt (by omega), if_neg (by omega), if_neg (by omega),
    if_neg (by omega), if_neg (by omega), if_neg (by omega), if_neg (by omega)]
  split
  · exact ⟨0x90, 0xBF, by rw [show v / 262144 = 0 by omega], by omega, by omega⟩
  split
  · exact ⟨0x80, 0xBF, by rw [show v / 262144 % 8 + 240 - 0xF0 = v / 262144 by omega],
      by omega, by omega⟩
  rw [if_pos (by omega)]
  exact ⟨0x80, 0x8F, by rw [show v / 262144 = 4 by omega], by omega, by omega⟩

/-- The encoding of a character, by the number of its bytes. -/
theorem utf8EncodeChar_eq (c : Char) :
    String.utf8EncodeChar c =
      if c.toNat ≤ 0x7F then [UInt8.ofNat c.toNat]
      else if c.toNat ≤ 0x7FF then
        [UInt8.ofNat (c.toNat / 64 % 32 + 192), UInt8.ofNat (c.toNat % 64 + 128)]
      else if c.toNat ≤ 0xFFFF then
        [UInt8.ofNat (c.toNat / 4096 % 16 + 224), UInt8.ofNat (c.toNat / 64 % 64 + 128),
          UInt8.ofNat (c.toNat % 64 + 128)]
      else
        [UInt8.ofNat (c.toNat / 262144 % 8 + 240), UInt8.ofNat (c.toNat / 4096 % 64 + 128),
          UInt8.ofNat (c.toNat / 64 % 64 + 128), UInt8.ofNat (c.toNat % 64 + 128)] :=
  rfl

/-- Past the bytes of one character the reading goes on afresh. -/
theorem decodeFrom_encodeChar_append (c : Char) (bytes : List UInt8) :
    decodeFrom none (String.utf8EncodeChar c ++ bytes) = some c :: decodeFrom none bytes := by
  have hValid : c.toNat < 0xD800 ∨ 0xDFFF < c.toNat ∧ c.toNat < 0x110000 := c.valid
  have hBack : Char.ofNat c.toNat = c := Char.ofNat_toNat c
  rw [utf8EncodeChar_eq]
  generalize c.toNat = v at hValid hBack ⊢
  split
  · have hByte : Start.ofByte (UInt8.ofNat v) = .char c := by
      rw [Start.ofByte, toNat_ofNat_of_lt (by omega), if_pos (by omega), hBack]
    rw [List.cons_append, List.nil_append, decodeFrom, hByte]
  split
  · have hByte : Start.ofByte (UInt8.ofNat (v / 64 % 32 + 192)) =
        .pending ⟨v / 64, 0, 0x80, 0xBF⟩ := by
      rw [Start.ofByte, toNat_ofNat_of_lt (by omega), if_neg (by omega), if_neg (by omega),
        if_pos (by omega), show v / 64 % 32 + 192 - 0xC0 = v / 64 by omega]
    simp only [List.cons_append, List.nil_append]
    rw [decodeFrom_first hByte, decodeFrom_last (by omega) (by omega) (by omega),
      show v / 64 * 64 + (v % 64 + 128 - 0x80) = v by omega, hBack]
  split
  · obtain ⟨low, high, hByte, hLow, hHigh⟩ := ofByte_of_three (v := v) (by omega) (by omega) (by omega)
    simp only [List.cons_append, List.nil_append]
    rw [decodeFrom_first hByte, decodeFrom_middle hLow hHigh (by omega),
      decodeFrom_last (by omega) (by omega) (by omega),
      show (v / 4096 * 64 + (v / 64 % 64 + 128 - 0x80)) * 64 + (v % 64 + 128 - 0x80) = v by omega,
      hBack]
  · obtain ⟨low, high, hByte, hLow, hHigh⟩ := ofByte_of_four (v := v) (by omega) (by omega)
    simp only [List.cons_append, List.nil_append]
    rw [decodeFrom_first hByte, decodeFrom_middle hLow hHigh (by omega),
      decodeFrom_middle (by omega) (by omega) (by omega),
      decodeFrom_last (by omega) (by omega) (by omega),
      show ((v / 262144 * 64 + (v / 4096 % 64 + 128 - 0x80)) * 64 + (v / 64 % 64 + 128 - 0x80)) * 64
        + (v % 64 + 128 - 0x80) = v by omega, hBack]

/-- Encoded text is read back, character by character. -/
@[simp] theorem decodeParts_encode (text : List Char) :
    decodeParts (encode text) = text.map some := by
  induction text with
  | nil => rfl
  | cons c text ih =>
    simp only [decodeParts, encode, List.flatMap_cons] at ih ⊢
    rw [decodeFrom_encodeChar_append, ih, List.map_cons]

@[simp] theorem decode?_encode (text : List Char) : decode? (encode text) = some text := by
  rw [decode?, decodeParts_encode]
  induction text with
  | nil => rfl
  | cons c text ih => simp only [List.map_cons, List.mapM_cons, ih]; rfl

@[simp] theorem decodeLossy_encode (text : List Char) : decodeLossy (encode text) = text := by
  simp [decodeLossy, Function.comp_def]

@[simp] theorem encode_append (a b : List Char) : encode (a ++ b) = encode a ++ encode b := by
  simp [encode]

end SnippetAudit.Text.Utf8
