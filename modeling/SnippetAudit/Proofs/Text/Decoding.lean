import SnippetAudit.Proofs.Lists
import SnippetAudit.Text.Utf8

/-!
# What is decoded

Reading bytes as UTF-8 cuts them into pieces, one for each part that is read. The piece of a
character is its encoding, so bytes are read as text only if they are the encoding of that
text. A text is read whole behind any bytes, whatever they are.

Results:
* `exists_pieces`: the pieces that the parts are read from.
* `decode?_eq_some_iff`: the bytes that are text are the encodings of texts.
* `eq_encode_of_decodeLossy`: bytes read without a replacement are an encoding.
* `decodeLossy_append_encode`: what stands before a text does not change how it is read.
-/

namespace SnippetAudit.Text.Utf8

/-! ## Encodings by length -/

theorem toNat_ofNat_of_valid {v : Nat} (h : v < 0xD800 ∨ 0xDFFF < v ∧ v < 0x110000) :
    (Char.ofNat v).toNat = v := by
  have hValid : v.isValidChar := h
  rw [Char.ofNat, dif_pos hValid]
  rfl

theorem eq_ofNat_of_toNat {b : UInt8} {n : Nat} (h : b.toNat = n) : b = UInt8.ofNat n := by
  rw [← h, UInt8.ofNat_toNat]

theorem encodeChar_one {a : UInt8} (h : a.toNat < 0x80) :
    String.utf8EncodeChar (Char.ofNat a.toNat) = [a] := by
  have hVal := toNat_ofNat_of_valid (v := a.toNat) (by omega)
  rw [utf8EncodeChar_eq, hVal, if_pos (by omega), UInt8.ofNat_toNat]

theorem encodeChar_two {a b : UInt8} {v : Nat} (h : 0x80 ≤ v) (hMax : v ≤ 0x7FF)
    (ha : a.toNat = v / 64 + 192) (hb : b.toNat = v % 64 + 128) :
    String.utf8EncodeChar (Char.ofNat v) = [a, b] := by
  have hVal := toNat_ofNat_of_valid (v := v) (by omega)
  rw [utf8EncodeChar_eq, hVal, if_neg (by omega), if_pos (by omega), eq_ofNat_of_toNat ha, eq_ofNat_of_toNat hb,
    Nat.mod_eq_of_lt (by omega)]

theorem encodeChar_three {a b c : UInt8} {v : Nat} (h : 0x800 ≤ v) (hMax : v ≤ 0xFFFF)
    (hValid : v < 0xD800 ∨ 0xDFFF < v) (ha : a.toNat = v / 4096 + 224)
    (hb : b.toNat = v / 64 % 64 + 128) (hc : c.toNat = v % 64 + 128) :
    String.utf8EncodeChar (Char.ofNat v) = [a, b, c] := by
  have hVal := toNat_ofNat_of_valid (v := v) (by omega)
  rw [utf8EncodeChar_eq, hVal, if_neg (by omega), if_neg (by omega), if_pos (by omega), eq_ofNat_of_toNat ha,
    eq_ofNat_of_toNat hb, eq_ofNat_of_toNat hc, Nat.mod_eq_of_lt (a := v / 4096) (by omega)]

theorem encodeChar_four {a b c d : UInt8} {v : Nat} (h : 0x10000 ≤ v) (hMax : v < 0x110000)
    (ha : a.toNat = v / 262144 + 240) (hb : b.toNat = v / 4096 % 64 + 128)
    (hc : c.toNat = v / 64 % 64 + 128) (hd : d.toNat = v % 64 + 128) :
    String.utf8EncodeChar (Char.ofNat v) = [a, b, c, d] := by
  have hVal := toNat_ofNat_of_valid (v := v) (by omega)
  rw [utf8EncodeChar_eq, hVal, if_neg (by omega), if_neg (by omega), if_neg (by omega), eq_ofNat_of_toNat ha,
    eq_ofNat_of_toNat hb, eq_ofNat_of_toNat hc, eq_ofNat_of_toNat hd,
    Nat.mod_eq_of_lt (a := v / 262144) (by omega)]

/-- Only characters of one byte have a byte below 0x80. -/
theorem toNat_of_mem_utf8EncodeChar {c : Char} {b : UInt8} (h : b ∈ String.utf8EncodeChar c)
    (hb : b.toNat < 0x80) : c.toNat = b.toNat := by
  have hValid : c.toNat < 0xD800 ∨ 0xDFFF < c.toNat ∧ c.toNat < 0x110000 := c.valid
  have hHigh {n : Nat} (h1 : 0x80 ≤ n) (h2 : n < 256) (hn : b = UInt8.ofNat n) : False := by
    rw [hn, toNat_ofNat_of_lt h2] at hb
    omega
  rw [utf8EncodeChar_eq] at h
  generalize c.toNat = v at hValid h ⊢
  split at h
  · rw [List.mem_singleton.mp h, toNat_ofNat_of_lt (by omega)]
  split at h
  · simp only [List.mem_cons, List.not_mem_nil, or_false] at h
    rcases h with h | h
    · exact (hHigh (by omega) (by omega) h).elim
    · exact (hHigh (by omega) (by omega) h).elim
  split at h
  · simp only [List.mem_cons, List.not_mem_nil, or_false] at h
    rcases h with h | h | h
    · exact (hHigh (by omega) (by omega) h).elim
    · exact (hHigh (by omega) (by omega) h).elim
    · exact (hHigh (by omega) (by omega) h).elim
  · simp only [List.mem_cons, List.not_mem_nil, or_false] at h
    rcases h with h | h | h | h
    · exact (hHigh (by omega) (by omega) h).elim
    · exact (hHigh (by omega) (by omega) h).elim
    · exact (hHigh (by omega) (by omega) h).elim
    · exact (hHigh (by omega) (by omega) h).elim

theorem encode_injective : Function.Injective encode := by
  intro a b hab
  rw [← decodeLossy_encode a, hab, decodeLossy_encode]

/-! ## Open sequences -/

/-- Whatever bytes close a sequence that was opened by `front`, they make the encoding of the
    character that is read. -/
def Opens (front : List UInt8) : Nat → Nat → Nat → Nat → Prop
  | 0, value, low, high => ∀ b : UInt8, low ≤ b.toNat → b.toNat ≤ high →
    String.utf8EncodeChar (Char.ofNat (value * 64 + (b.toNat - 0x80))) = front ++ [b]
  | more + 1, value, low, high => ∀ b : UInt8, low ≤ b.toNat → b.toNat ≤ high →
    Opens (front ++ [b]) more (value * 64 + (b.toNat - 0x80)) 0x80 0xBF

theorem opens_two {a : UInt8} {value : Nat} (h : 2 ≤ value) (hMax : value < 32)
    (ha : a.toNat = value + 192) : Opens [a] 0 value 0x80 0xBF := by
  intro b hLow hHigh
  exact encodeChar_two (by omega) (by omega) (by omega) (by omega)

theorem opens_three {a : UInt8} {value low high : Nat} (hMax : value < 16) (hLow : 0x80 ≤ low)
    (hHigh : high ≤ 0xBF) (h : 0x20 ≤ value * 64 + (low - 0x80))
    (hSurrogate : value = 13 → high ≤ 0x9F) (ha : a.toNat = value + 224) :
    Opens [a] 1 value low high := by
  intro b hb hb' c hc hc'
  exact encodeChar_three (by omega) (by omega) (by omega) (by omega) (by omega) (by omega)

theorem opens_four {a : UInt8} {value low high : Nat} (hMax : value * 64 + (high - 0x80) < 0x110)
    (hLow : 0x80 ≤ low) (hHigh : high ≤ 0xBF) (h : 0x10 ≤ value * 64 + (low - 0x80))
    (ha : a.toNat = value + 240) : Opens [a] 2 value low high := by
  intro b hb hb' c hc hc' d hd hd'
  exact encodeChar_four (by omega) (by omega) (by omega) (by omega) (by omega) (by omega)

/-- A first byte opens the encodings that start with it, and waits for a byte that starts none. -/
theorem opens_ofByte {a : UInt8} {value more low high : Nat}
    (h : Start.ofByte a = .pending ⟨value, more, low, high⟩) :
    Opens [a] more value low high ∧ 0x80 ≤ low ∧ high ≤ 0xBF := by
  revert h
  fun_cases Start.ofByte a with
  | case1 | case2 | case10 =>
    intro h
    cases h
  | case3 =>
    intro h
    obtain ⟨rfl, rfl, rfl, rfl⟩ := Pending.mk.inj (Start.pending.inj h)
    exact ⟨opens_two (by omega) (by omega) (by omega), by omega, by omega⟩
  | case4 | case5 | case6 =>
    intro h
    obtain ⟨rfl, rfl, rfl, rfl⟩ := Pending.mk.inj (Start.pending.inj h)
    exact ⟨opens_three (by omega) (by omega) (by omega) (by omega) (by omega) (by omega),
      by omega, by omega⟩
  | case7 | case8 | case9 =>
    intro h
    obtain ⟨rfl, rfl, rfl, rfl⟩ := Pending.mk.inj (Start.pending.inj h)
    exact ⟨opens_four (by omega) (by omega) (by omega) (by omega) (by omega), by omega, by omega⟩

theorem encodeChar_ofByte {a : UInt8} {c : Char} (h : Start.ofByte a = .char c) :
    String.utf8EncodeChar c = [a] := by
  revert h
  fun_cases Start.ofByte a with
  | case1 n hAscii =>
    intro h
    rw [← Start.char.inj h]
    exact encodeChar_one hAscii
  | _ =>
    intro h
    cases h

/-! ## Pieces -/

/-- The bytes that a part is read from: those of a character are its encoding. -/
def IsPieceOf (part : Option Char) (piece : List UInt8) : Prop :=
  ∀ c, part = some c → String.utf8EncodeChar c = piece

/-- The bytes of the sequence that is open. -/
def OpenedBy : Option Pending → List UInt8 → Prop
  | none, front => front = []
  | some p, front => Opens front p.more p.value p.low p.high

/-- A byte that does not go on with an open sequence is looked at again. -/
theorem decodeFrom_break {p : Pending} {b : UInt8} (h : ¬ (p.low ≤ b.toNat ∧ b.toNat ≤ p.high))
    (bytes : List UInt8) :
    decodeFrom (some p) (b :: bytes) = none :: decodeFrom none (b :: bytes) := by
  conv_lhs => rw [decodeFrom, if_neg h]
  rw [decodeFrom]
  cases Start.ofByte b <;> rfl

theorem isPieceOf_none (piece : List UInt8) : IsPieceOf none piece := by
  intro c h
  cases h

theorem isPieceOf_some {c : Char} {piece : List UInt8} (h : String.utf8EncodeChar c = piece) :
    IsPieceOf (some c) piece := by
  intro d hd
  rw [← Option.some.inj hd, h]

theorem exists_pieces_from (open? : Option Pending) (front bytes : List UInt8)
    (h : OpenedBy open? front) :
    ∃ pieces, pieces.flatten = front ++ bytes ∧
      List.Forall₂ IsPieceOf (decodeFrom open? bytes) pieces := by
  induction bytes generalizing open? front with
  | nil =>
    cases open? with
    | none => exact ⟨[], by rw [show front = [] from h]; rfl, .nil⟩
    | some p => exact ⟨[front], by simp, .cons (isPieceOf_none front) .nil⟩
  | cons b bytes ih =>
    have hClosed : ∃ pieces, pieces.flatten = b :: bytes ∧
        List.Forall₂ IsPieceOf (decodeFrom none (b :: bytes)) pieces := by
      obtain ⟨pieces, hFlatten, hPieces⟩ := ih none [] rfl
      rw [decodeFrom]
      cases hStart : Start.ofByte b with
      | char c =>
        exact ⟨[b] :: pieces, by simp [hFlatten],
          .cons (isPieceOf_some (encodeChar_ofByte hStart)) hPieces⟩
      | pending p => exact ih (some p) [b] (opens_ofByte hStart).1
      | invalid => exact ⟨[b] :: pieces, by simp [hFlatten], .cons (isPieceOf_none [b]) hPieces⟩
    cases open? with
    | none =>
      rw [show front = [] from h]
      exact hClosed
    | some p =>
      obtain ⟨value, more, low, high⟩ := p
      by_cases hNext : low ≤ b.toNat ∧ b.toNat ≤ high
      · rw [decodeFrom, if_pos hNext]
        cases more with
        | zero =>
          obtain ⟨pieces, hFlatten, hPieces⟩ := ih none [] rfl
          have hPiece : String.utf8EncodeChar (Char.ofNat (value * 64 + (b.toNat - 0x80))) =
              front ++ [b] := h b hNext.1 hNext.2
          exact ⟨(front ++ [b]) :: pieces, by simp [hFlatten],
            .cons (isPieceOf_some hPiece) hPieces⟩
        | succ more =>
          have hOpened : OpenedBy (some ⟨value * 64 + (b.toNat - 0x80), more, 0x80, 0xBF⟩)
              (front ++ [b]) := h b hNext.1 hNext.2
          obtain ⟨pieces, hFlatten, hPieces⟩ := ih _ _ hOpened
          exact ⟨pieces, by rw [hFlatten, List.append_assoc]; rfl, hPieces⟩
      · obtain ⟨pieces, hFlatten, hPieces⟩ := hClosed
        rw [decodeFrom_break hNext]
        exact ⟨front :: pieces, by rw [List.flatten_cons, hFlatten],
          .cons (isPieceOf_none front) hPieces⟩

/-- The pieces that the parts are read from. -/
theorem exists_pieces (bytes : List UInt8) :
    ∃ pieces, pieces.flatten = bytes ∧ List.Forall₂ IsPieceOf (decodeParts bytes) pieces :=
  exists_pieces_from none [] bytes rfl

/-! ## Bytes that are text -/

theorem flatten_of_pieces {text : List Char} {pieces : List (List UInt8)}
    (h : List.Forall₂ IsPieceOf (text.map some) pieces) : pieces.flatten = encode text := by
  induction text generalizing pieces with
  | nil =>
    cases h
    rfl
  | cons c text ih =>
    cases h with
    | cons hPiece hPieces =>
      rw [List.flatten_cons, ih hPieces, ← hPiece c rfl]
      rfl

theorem eq_encode_of_decodeParts {bytes : List UInt8} {text : List Char}
    (h : decodeParts bytes = text.map some) : bytes = encode text := by
  obtain ⟨pieces, hFlatten, hPieces⟩ := exists_pieces bytes
  rw [h] at hPieces
  rw [← hFlatten, flatten_of_pieces hPieces]

/-- The bytes that are text are the encodings of texts. -/
theorem decode?_eq_some_iff {bytes : List UInt8} {text : List Char} :
    decode? bytes = some text ↔ bytes = encode text := by
  constructor
  · intro h
    have hParts {parts : List (Option Char)} {cs : List Char} (h : parts.mapM id = some cs) :
        parts = cs.map some := by
      rw [mapM_eq_some_iff Iff.rfl] at h
      induction h with
      | nil => rfl
      | cons hPart _ ih => rw [List.map_cons, ih, ← hPart]; rfl
    exact eq_encode_of_decodeParts (hParts h)
  · rintro rfl
    exact decode?_encode text

/-- Bytes read without a replacement are an encoding. -/
theorem eq_encode_of_decodeLossy {bytes : List UInt8} {text : List Char}
    (h : decodeLossy bytes = text) (hNone : '\uFFFD' ∉ text) : bytes = encode text := by
  have hParts {parts : List (Option Char)} {cs : List Char}
      (h : parts.map (·.getD '\uFFFD') = cs) (hNone : '\uFFFD' ∉ cs) : parts = cs.map some := by
    induction parts generalizing cs with
    | nil => rw [← h]; rfl
    | cons part parts ih =>
      rw [← h, List.map_cons, List.mem_cons, not_or] at hNone
      rw [← h, List.map_cons, List.map_cons, ← ih rfl hNone.2]
      cases part with
      | none => exact absurd rfl hNone.1
      | some c => rfl
  exact eq_encode_of_decodeParts (hParts h hNone)

/-- The bytes of a character that is read are there. -/
theorem mem_of_mem_decodeLossy {bytes : List UInt8} {c : Char} (h : c ∈ decodeLossy bytes)
    (hc : c ≠ '\uFFFD') {b : UInt8} (hb : b ∈ String.utf8EncodeChar c) : b ∈ bytes := by
  obtain ⟨part, hPart, hChar⟩ := List.mem_map.mp h
  have hSome : part = some c := by
    cases part with
    | none => exact absurd hChar.symm hc
    | some d => rw [← hChar]; rfl
  obtain ⟨pieces, hFlatten, hPieces⟩ := exists_pieces bytes
  obtain ⟨piece, hMem, hPiece⟩ := exists_mem_right_of_forall₂ hPieces hPart
  rw [← hFlatten, List.mem_flatten]
  exact ⟨piece, hMem, hPiece c hSome ▸ hb⟩

theorem decodeLossy_ne_nil {bytes : List UInt8} (h : bytes ≠ []) : decodeLossy bytes ≠ [] := by
  intro hNil
  have hBytes : bytes = encode [] := eq_encode_of_decodeLossy hNil (by simp)
  exact h hBytes

/-! ## Text behind any bytes -/

/-- An open sequence only waits for bytes that start no character. -/
def Waits : Option Pending → Prop
  | none => True
  | some p => 0x80 ≤ p.low ∧ p.high ≤ 0xBF

/-- The first byte of a character goes on with no sequence. -/
theorem exists_first_byte (c : Char) :
    ∃ b rest, String.utf8EncodeChar c = b :: rest ∧ ¬ (0x80 ≤ b.toNat ∧ b.toNat ≤ 0xBF) := by
  have hValid : c.toNat < 0xD800 ∨ 0xDFFF < c.toNat ∧ c.toNat < 0x110000 := c.valid
  rw [utf8EncodeChar_eq]
  generalize c.toNat = v at hValid ⊢
  split
  · exact ⟨_, _, rfl, by rw [toNat_ofNat_of_lt (by omega)]; omega⟩
  split
  · exact ⟨_, _, rfl, by rw [toNat_ofNat_of_lt (by omega)]; omega⟩
  split
  · exact ⟨_, _, rfl, by rw [toNat_ofNat_of_lt (by omega)]; omega⟩
  · exact ⟨_, _, rfl, by rw [toNat_ofNat_of_lt (by omega)]; omega⟩

theorem decodeFrom_append_encode (open? : Option Pending) (h : Waits open?) (bytes : List UInt8)
    (text : List Char) :
    decodeFrom open? (bytes ++ encode text) = decodeFrom open? bytes ++ text.map some := by
  induction bytes generalizing open? with
  | nil =>
    have hText : decodeFrom none (encode text) = text.map some := decodeParts_encode text
    cases open? with
    | none => exact hText
    | some p =>
      cases text with
      | nil => rfl
      | cons c text =>
        obtain ⟨b, rest, hFirst, hNot⟩ := exists_first_byte c
        have hEncode : encode (c :: text) = b :: (rest ++ encode text) := by
          rw [encode, List.flatMap_cons, hFirst]
          rfl
        have hBreak : ¬ (p.low ≤ b.toNat ∧ b.toNat ≤ p.high) := by
          have hLow : 0x80 ≤ p.low := h.1
          have hHigh : p.high ≤ 0xBF := h.2
          omega
        rw [hEncode] at hText
        rw [List.nil_append, hEncode, decodeFrom_break hBreak, hText]
        rfl
  | cons b bytes ih =>
    have hClosed : decodeFrom none (b :: bytes ++ encode text) =
        decodeFrom none (b :: bytes) ++ text.map some := by
      rw [List.cons_append, decodeFrom, decodeFrom]
      cases hStart : Start.ofByte b with
      | char c => simp only [ih none trivial, List.cons_append]
      | pending p => simp only [ih (some p) (opens_ofByte hStart).2]
      | invalid => simp only [ih none trivial, List.cons_append]
    cases open? with
    | none => exact hClosed
    | some p =>
      by_cases hNext : p.low ≤ b.toNat ∧ b.toNat ≤ p.high
      · rw [List.cons_append, decodeFrom, decodeFrom, if_pos hNext, if_pos hNext]
        cases p.more with
        | zero => simp only [ih none trivial, List.cons_append]
        | succ more =>
          have hWaits : Waits (some ⟨p.value * 64 + (b.toNat - 0x80), more, 0x80, 0xBF⟩) :=
            ⟨Nat.le_refl _, Nat.le_refl _⟩
          simp only [ih _ hWaits]
      · rw [List.cons_append, decodeFrom_break hNext, decodeFrom_break hNext, List.cons_append,
          ← List.cons_append, hClosed]

/-- What stands before a text does not change how it is read. -/
theorem decodeLossy_append_encode (bytes : List UInt8) (text : List Char) :
    decodeLossy (bytes ++ encode text) = decodeLossy bytes ++ text := by
  unfold decodeLossy decodeParts
  rw [decodeFrom_append_encode none trivial, List.map_append, List.map_map]
  simp [Function.comp_def]

end SnippetAudit.Text.Utf8
