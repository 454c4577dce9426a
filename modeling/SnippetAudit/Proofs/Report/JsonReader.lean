import Mathlib.Data.Nat.Notation
import SnippetAudit.Number.Numeral
import SnippetAudit.Number.Shortest

/-!
# A reader of JSON

The texts of RFC 8259 and the values that they stand for. A text is cut into tokens: the six
structural characters, strings with all their escapes, and words, which are the three literals and
the numbers; between tokens there may be blanks. The tokens are put together by a machine with a
stack of the arrays and objects that are open.

Numbers are read exactly, as whole digits and a power of ten, and objects keep their members in
order.

Results:
* `readString_append`: the characters of a string are read one by one, up to its quote.
* `tokens?_punctuation`, `tokens?_blank`, `tokens?_string`, `tokens?_word`: the tokens of a text by
  what it starts with.
* `foldlM_tokens`: the tokens of a value are put together to it.
-/

namespace SnippetAudit.Report

open Numeral

/-! ## Values and tokens -/

/-- A JSON value as it is read. -/
inductive JsonValue where
  | null
  | bool (b : Bool)
  | number (negative : Bool) (magnitude : Decimal)
  | string (text : List Char)
  | array (items : List JsonValue)
  | object (members : List (List Char × JsonValue))
  deriving Repr

/-- A token of a JSON text. -/
inductive JsonToken where
  | arrayStart
  | arrayEnd
  | objectStart
  | objectEnd
  | comma
  | colon
  /-- A string, a number or a literal. -/
  | scalar (v : JsonValue)
  deriving Repr

namespace JsonReader

/-! ## Strings -/

/-- The code unit of four hexadecimal digits, and the text behind them. -/
def unit? : List Char → Option (ℕ × List Char)
  | a :: b :: c :: d :: rest => (digitsValue? 16 [a, b, c, d]).map (·, rest)
  | _ => none

/-- The character that a code unit starts, and the text behind it. A unit that is a first half stands
    for a character with the second half behind it. -/
def unicode? (text : List Char) : Option (Char × List Char) :=
  match unit? text with
  | none => none
  | some (unit, rest) =>
    if unit < 0xD800 ∨ 0xDFFF < unit then some (Char.ofNat unit, rest)
    else
      match rest with
      | '\\' :: 'u' :: rest =>
        match unit? rest with
        | none => none
        | some (low, rest) =>
          if unit < 0xDC00 ∧ 0xDC00 ≤ low ∧ low ≤ 0xDFFF then
            some (Char.ofNat (0x10000 + (unit - 0xD800) * 0x400 + (low - 0xDC00)), rest)
          else none
      | _ => none

/-- The character of an escape with one letter. -/
def escaped? : Char → Option Char
  | '"' => some '"'
  | '\\' => some '\\'
  | '/' => some '/'
  | 'b' => some '\x08'
  | 'f' => some '\x0c'
  | 'n' => some '\n'
  | 'r' => some '\r'
  | 't' => some '\t'
  | _ => none

/-- The character that a text within a string starts with, and the text behind it. Control characters
    may stand in a string as escapes only. -/
def character? : List Char → Option (Char × List Char)
  | '\\' :: 'u' :: rest => unicode? rest
  | '\\' :: letter :: rest => (escaped? letter).map (·, rest)
  | c :: rest => if c = '\\' ∨ c.toNat < 0x20 then none else some (c, rest)
  | [] => none

theorem length_of_unit? {text rest : List Char} {n : ℕ} (h : unit? text = some (n, rest)) :
    rest.length < text.length := by
  unfold unit? at h
  split at h
  · obtain ⟨_, _, hRest⟩ := Option.map_eq_some_iff.mp h
    rw [← (Prod.mk.inj hRest).2]
    simp only [List.length_cons]
    omega
  · cases h

theorem length_of_unicode? {text rest : List Char} {c : Char} (h : unicode? text = some (c, rest)) :
    rest.length < text.length := by
  unfold unicode? at h
  split at h
  · cases h
  · rename_i unit behind hUnit
    have hShort := length_of_unit? hUnit
    split at h
    · rw [← (Prod.mk.inj (Option.some.inj h)).2]
      exact hShort
    · split at h
      · rename_i after
        split at h
        · cases h
        · rename_i low last hLow
          have hLast := length_of_unit? hLow
          simp only [List.length_cons] at hShort
          split at h
          · rw [← (Prod.mk.inj (Option.some.inj h)).2]
            omega
          · cases h
      · cases h

theorem length_of_character? {text rest : List Char} {c : Char}
    (h : character? text = some (c, rest)) : rest.length < text.length := by
  unfold character? at h
  split at h
  · have hShort := length_of_unicode? h
    simp only [List.length_cons]
    omega
  · obtain ⟨_, _, hRest⟩ := Option.map_eq_some_iff.mp h
    rw [← (Prod.mk.inj hRest).2]
    simp only [List.length_cons]
    omega
  · split at h
    · cases h
    · rw [← (Prod.mk.inj (Option.some.inj h)).2]
      exact Nat.lt_succ_self _
  · cases h

/-- The characters of a string up to its quote, and the text behind that. -/
def readString (text : List Char) : Option (List Char × List Char) :=
  if text.head? = some '"' then some ([], text.tail)
  else
    match _h : character? text with
    | none => none
    | some (c, rest) => (readString rest).map fun (cs, rest) => (c :: cs, rest)
termination_by text.length
decreasing_by exact length_of_character? _h

theorem length_of_readString {text rest cs : List Char} (h : readString text = some (cs, rest)) :
    rest.length ≤ text.length := by
  fun_induction readString text generalizing cs rest with
  | case1 text hQuote =>
    rw [← (Prod.mk.inj (Option.some.inj h)).2, List.length_tail]
    omega
  | case2 text hQuote hNone => cases h
  | case3 text hQuote c behind hChar ih =>
    obtain ⟨⟨cs', rest'⟩, hRead, hEq⟩ := Option.map_eq_some_iff.mp h
    have hShort := length_of_character? hChar
    rw [← (Prod.mk.inj hEq).2]
    have hRest := ih hRead
    omega

/-! ## Words -/

/-- The digits behind a point, of which there has to be one at least, and the text behind them. -/
def fraction? : List Char → Option (List Char × List Char)
  | '.' :: rest =>
    let digits := rest.takeWhile isDigit
    if digits.isEmpty then none else some (digits, rest.dropWhile isDigit)
  | rest => some ([], rest)

/-- The number without a sign: whole digits without a spare zero before them, a fraction and an
    exponent. -/
def magnitude? (text : List Char) : Option Decimal :=
  let whole := text.takeWhile isDigit
  if whole.isEmpty || (whole.head? == some '0' && 1 < whole.length) then none
  else
    match fraction? (text.dropWhile isDigit) with
    | none => none
    | some (fraction, rest) =>
      match digitsValue? 10 (whole ++ fraction), exponent? rest with
      | some digits, some exponent => some ⟨digits, exponent - fraction.length⟩
      | _, _ => none

/-- The value of a word: a literal or a number. -/
def word? (text : List Char) : Option JsonValue :=
  if text = "null".toList then some .null
  else if text = "true".toList then some (.bool true)
  else if text = "false".toList then some (.bool false)
  else
    match text with
    | '-' :: rest => (magnitude? rest).map (.number true)
    | _ => (magnitude? text).map (.number false)

/-! ## Tokens -/

/-- Whether a character may stand between tokens. -/
def isBlank (c : Char) : Bool := c == ' ' || c == '\t' || c == '\n' || c == '\r'

/-- The token of a structural character. -/
def punctuation? : Char → Option JsonToken
  | '[' => some .arrayStart
  | ']' => some .arrayEnd
  | '\x7b' => some .objectStart
  | '\x7d' => some .objectEnd
  | ',' => some .comma
  | ':' => some .colon
  | _ => none

/-- Whether a character may stand in a word. -/
def isWordChar (c : Char) : Bool := !isBlank c && (punctuation? c).isNone && c != '"'

/-- The tokens of a text. -/
def tokens? : List Char → Option (List JsonToken)
  | [] => some []
  | c :: rest =>
    if isBlank c then tokens? rest
    else
      match punctuation? c with
      | some token => (tokens? rest).map (token :: ·)
      | none =>
        if c = '"' then
          match _h : readString rest with
          | none => none
          | some (text, behind) => (tokens? behind).map (.scalar (.string text) :: ·)
        else
          match word? (c :: rest.takeWhile isWordChar) with
          | none => none
          | some v => (tokens? (rest.dropWhile isWordChar)).map (.scalar v :: ·)
termination_by text => text.length
decreasing_by
  · simp
  · simp
  · have := length_of_readString _h
    simp only [List.length_cons]
    omega
  · have := (List.dropWhile_suffix isWordChar (l := rest)).length_le
    simp only [List.length_cons]
    omega

end JsonReader

/-! ## Putting tokens together -/

/-- An array or an object that is open, with what has been read of it. -/
inductive JsonFrame where
  | array (items : List JsonValue)
  /-- An object in which the value of a key comes next. -/
  | object (members : List (List Char × JsonValue)) (key : List Char)
  deriving Repr

/-- What comes next, with the arrays and objects that are open, the innermost first. -/
inductive JsonState where
  | value (frames : List JsonFrame)
  /-- The first item of an array, or its end. -/
  | firstItem (frames : List JsonFrame)
  /-- The first key of an object, or its end. -/
  | firstKey (frames : List JsonFrame)
  | key (members : List (List Char × JsonValue)) (frames : List JsonFrame)
  | colon (members : List (List Char × JsonValue)) (key : List Char) (frames : List JsonFrame)
  /-- A value has been read. -/
  | read (v : JsonValue) (frames : List JsonFrame)
  deriving Repr

namespace JsonState

/-- The start of a value. -/
def startValue (frames : List JsonFrame) : JsonToken → Option JsonState
  | .scalar v => some (.read v frames)
  | .arrayStart => some (.firstItem frames)
  | .objectStart => some (.firstKey frames)
  | _ => none

/-- The start of a member of an object. -/
def startMember (members : List (List Char × JsonValue)) (frames : List JsonFrame) :
    JsonToken → Option JsonState
  | .scalar (.string name) => some (.colon members name frames)
  | _ => none

/-- Takes a token. -/
def step : JsonState → JsonToken → Option JsonState
  | .value frames, token => startValue frames token
  | .firstItem frames, .arrayEnd => some (.read (.array []) frames)
  | .firstItem frames, token => startValue (.array [] :: frames) token
  | .firstKey frames, .objectEnd => some (.read (.object []) frames)
  | .firstKey frames, token => startMember [] frames token
  | .key members frames, token => startMember members frames token
  | .colon members name frames, .colon => some (.value (.object members name :: frames))
  | .read v (.array items :: frames), .comma => some (.value (.array (items ++ [v]) :: frames))
  | .read v (.array items :: frames), .arrayEnd => some (.read (.array (items ++ [v])) frames)
  | .read v (.object members name :: frames), .comma => some (.key (members ++ [(name, v)]) frames)
  | .read v (.object members name :: frames), .objectEnd =>
    some (.read (.object (members ++ [(name, v)])) frames)
  | _, _ => none

end JsonState

namespace JsonReader

/-- The value that tokens are put together to. -/
def ofTokens? (tokens : List JsonToken) : Option JsonValue :=
  match tokens.foldlM JsonState.step (.value []) with
  | some (.read v []) => some v
  | _ => none

/-- The value of a JSON text. -/
def read? (text : List Char) : Option JsonValue := (tokens? text).bind ofTokens?

/-! ## What a text starts with -/

variable {c : Char} {rest : List Char}

theorem readString_quote (rest : List Char) : readString ('"' :: rest) = some ([], rest) := by
  rw [readString]
  rfl

theorem readString_character {text : List Char} (hQuote : text.head? ≠ some '"')
    (h : character? text = some (c, rest)) :
    readString text = (readString rest).map fun (cs, rest) => (c :: cs, rest) := by
  rw [readString, if_neg hQuote]
  split
  · rename_i hNone
    rw [h] at hNone
    cases hNone
  · rename_i hSome
    rw [h] at hSome
    cases hSome
    rfl

theorem tokens?_nil : tokens? [] = some [] := by
  rw [tokens?]

theorem tokens?_blank (h : isBlank c = true) : tokens? (c :: rest) = tokens? rest := by
  rw [tokens?, if_pos h]

theorem tokens?_punctuation {token : JsonToken} (h : punctuation? c = some token) :
    tokens? (c :: rest) = (tokens? rest).map (token :: ·) := by
  have hBlank : isBlank c = false := by
    unfold punctuation? at h
    split at h
    all_goals first | rfl | cases h
  rw [tokens?, if_neg (Bool.eq_false_iff.mp hBlank), h]

theorem tokens?_string {text behind : List Char} (h : readString rest = some (text, behind)) :
    tokens? ('"' :: rest) = (tokens? behind).map (.scalar (.string text) :: ·) := by
  rw [tokens?, if_neg (by decide)]
  show (if ('"' : Char) = '"' then _ else _) = _
  rw [if_pos rfl]
  split
  · rename_i hNone
    rw [h] at hNone
    cases hNone
  · rename_i hSome
    rw [h] at hSome
    cases hSome
    rfl

theorem tokens?_word {word : List Char} {v : JsonValue} (hNe : word ≠ [])
    (hChars : ∀ c ∈ word, isWordChar c = true) (hWord : word? word = some v)
    (hRest : ∀ c, rest.head? = some c → isWordChar c = false) :
    tokens? (word ++ rest) = (tokens? rest).map (.scalar v :: ·) := by
  obtain ⟨c, word, rfl⟩ := List.exists_cons_of_ne_nil hNe
  have hc := hChars c List.mem_cons_self
  simp only [isWordChar, Bool.and_eq_true, Bool.not_eq_true', bne_iff_ne, Option.isNone_iff_eq_none]
    at hc
  obtain ⟨⟨hBlank, hPunctuation⟩, hQuote⟩ := hc
  have hMore : ∀ c ∈ word, isWordChar c = true := fun d hd => hChars d (List.mem_cons_of_mem _ hd)
  have hTake : (word ++ rest).takeWhile isWordChar = word := by
    rw [List.takeWhile_append_of_pos hMore]
    cases rest with
    | nil => rw [List.takeWhile_nil, List.append_nil]
    | cons d rest => rw [List.takeWhile_cons_of_neg (by simp [hRest d rfl]), List.append_nil]
  have hDrop : (word ++ rest).dropWhile isWordChar = rest := by
    rw [List.dropWhile_append_of_pos hMore]
    cases rest with
    | nil => rfl
    | cons d rest => rw [List.dropWhile_cons_of_neg (by simp [hRest d rfl])]
  rw [List.cons_append, tokens?, if_neg (Bool.eq_false_iff.mp hBlank), hPunctuation]
  simp only
  rw [if_neg hQuote, hTake, hDrop, hWord]

end JsonReader

/-! ## The tokens of a value -/

namespace JsonValue

mutual

/-- The tokens of a value. -/
def tokens : JsonValue → List JsonToken
  | .null => [.scalar .null]
  | .bool b => [.scalar (.bool b)]
  | .number negative magnitude => [.scalar (.number negative magnitude)]
  | .string text => [.scalar (.string text)]
  | .array [] => [.arrayStart, .arrayEnd]
  | .array (v :: items) => .arrayStart :: tokens v ++ tokensOfItems items ++ [.arrayEnd]
  | .object [] => [.objectStart, .objectEnd]
  | .object (member :: members) =>
    .objectStart :: tokensOfMember member ++ tokensOfMembers members ++ [.objectEnd]

/-- The tokens of the items of an array behind the first. -/
def tokensOfItems : List JsonValue → List JsonToken
  | [] => []
  | v :: items => .comma :: tokens v ++ tokensOfItems items

/-- The tokens of a member of an object. -/
def tokensOfMember : List Char × JsonValue → List JsonToken
  | (key, v) => .scalar (.string key) :: .colon :: tokens v

/-- The tokens of the members of an object behind the first. -/
def tokensOfMembers : List (List Char × JsonValue) → List JsonToken
  | [] => []
  | member :: members => .comma :: tokensOfMember member ++ tokensOfMembers members

end

end JsonValue

namespace JsonState

open JsonValue

theorem foldlM_append_of_eq {first more : List JsonToken} {s s' : JsonState}
    (h : first.foldlM step s = some s') : (first ++ more).foldlM step s = more.foldlM step s' := by
  rw [List.foldlM_append, h]
  rfl

/-- Behind `[` a value is read like one of an array that is open. -/
theorem foldlM_firstItem (v : JsonValue) (frames : List JsonFrame) :
    v.tokens.foldlM step (.firstItem frames) = v.tokens.foldlM step (.value (.array [] :: frames)) := by
  fun_cases tokens v <;> rfl

mutual

/-- The tokens of a value are put together to it. -/
theorem foldlM_tokens (v : JsonValue) (frames : List JsonFrame) :
    v.tokens.foldlM step (.value frames) = some (.read v frames) := by
  match v with
  | .null => rfl
  | .bool b => rfl
  | .number negative magnitude => rfl
  | .string text => rfl
  | .array [] => rfl
  | .array (v :: items) =>
    have hFirst := (foldlM_firstItem v frames).trans (foldlM_tokens v (.array [] :: frames))
    show (v.tokens ++ tokensOfItems items ++ [JsonToken.arrayEnd]).foldlM step (.firstItem frames) = _
    rw [List.append_assoc, foldlM_append_of_eq hFirst, foldlM_tokensOfItems items v [] frames]
    rfl
  | .object [] => rfl
  | .object ((name, v) :: members) =>
    have hFirst := foldlM_tokens v (.object [] name :: frames)
    show (v.tokens ++ tokensOfMembers members ++ [JsonToken.objectEnd]).foldlM step
      (.value (.object [] name :: frames)) = _
    rw [List.append_assoc, foldlM_append_of_eq hFirst, foldlM_tokensOfMembers members name v [] frames]
    rfl

theorem foldlM_tokensOfItems (items : List JsonValue) (v : JsonValue) (done : List JsonValue)
    (frames : List JsonFrame) :
    (tokensOfItems items ++ [JsonToken.arrayEnd]).foldlM step (.read v (.array done :: frames)) =
      some (.read (.array (done ++ v :: items)) frames) := by
  match items with
  | [] => rfl
  | w :: items =>
    have hNext := foldlM_tokens w (.array (done ++ [v]) :: frames)
    show (w.tokens ++ tokensOfItems items ++ [JsonToken.arrayEnd]).foldlM step
      (.value (.array (done ++ [v]) :: frames)) = _
    rw [List.append_assoc, foldlM_append_of_eq hNext, foldlM_tokensOfItems items w (done ++ [v]) frames,
      List.append_assoc]
    rfl

theorem foldlM_tokensOfMembers (members : List (List Char × JsonValue)) (name : List Char)
    (v : JsonValue) (done : List (List Char × JsonValue)) (frames : List JsonFrame) :
    (tokensOfMembers members ++ [JsonToken.objectEnd]).foldlM step
        (.read v (.object done name :: frames)) =
      some (.read (.object (done ++ (name, v) :: members)) frames) := by
  match members with
  | [] => rfl
  | (other, w) :: members =>
    have hNext := foldlM_tokens w (.object (done ++ [(name, v)]) other :: frames)
    show (w.tokens ++ tokensOfMembers members ++ [JsonToken.objectEnd]).foldlM step
      (.value (.object (done ++ [(name, v)]) other :: frames)) = _
    rw [List.append_assoc, foldlM_append_of_eq hNext,
      foldlM_tokensOfMembers members other w (done ++ [(name, v)]) frames, List.append_assoc]
    rfl

end

end JsonState

theorem JsonReader.ofTokens?_tokens (v : JsonValue) : ofTokens? v.tokens = some v := by
  unfold ofTokens?
  rw [JsonState.foldlM_tokens v []]

end SnippetAudit.Report
