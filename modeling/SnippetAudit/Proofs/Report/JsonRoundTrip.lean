import Mathlib.Data.List.TakeWhile
import SnippetAudit.Proofs.Number.Digits
import SnippetAudit.Proofs.Report.JsonReader
import SnippetAudit.Report.Json

/-!
# JSON values that are printed and read

The output of a value is read back as the value, however deep it is nested, whatever its strings
hold and at whatever level it is printed. The tokens of a text do not depend on what stands behind
it, as long as a word at its end does not go on there; so the tokens of an output are put together
from those of its parts.

Results:
* `readString_escape`: a string is read back from its escapes.
* `word?_toString`: a number is read back from its digits.
* `lexes_print`: the output of a value is cut into the tokens of the value.
* `read?_of_lexes`: a text with the tokens of a value is read as the value.
-/

namespace SnippetAudit.Report

open JsonReader

/-! ## Specification -/

namespace Json

mutual

/-- The value that is read back. One that has no text is none. -/
def value : Json → JsonValue
  | .null => .null
  | .number n => .number false ⟨n, 0⟩
  | .string text => .string text
  | .unwritable => .null
  | .array items => .array (valuesOfItems items)
  | .object members => .object (valuesOfMembers members)

/-- The values of the items of an array. -/
def valuesOfItems : List Json → List JsonValue
  | [] => []
  | item :: items => value item :: valuesOfItems items

/-- The key and the value of a member of an object. -/
def valueOfMember : String × Json → List Char × JsonValue
  | (key, j) => (key.toList, value j)

/-- The keys and the values of the members of an object. -/
def valuesOfMembers : List (String × Json) → List (List Char × JsonValue)
  | [] => []
  | member :: members => valueOfMember member :: valuesOfMembers members

end

end Json

/-! ## Numbers -/

namespace JsonReader

open Numeral

theorem magnitude?_toDigits (n : ℕ) : magnitude? (Nat.toDigits 10 n) = some ⟨n, 0⟩ := by
  have hAll : ∀ c ∈ Nat.toDigits 10 n, isDigit c = true := fun c hc =>
    isDigit_iff.mpr (isDigit_of_mem_toDigits hc)
  have hTake : (Nat.toDigits 10 n).takeWhile isDigit = Nat.toDigits 10 n :=
    List.takeWhile_eq_self_iff.mpr hAll
  have hDrop : (Nat.toDigits 10 n).dropWhile isDigit = [] := List.dropWhile_eq_nil_iff.mpr hAll
  have hSpare : ((Nat.toDigits 10 n).isEmpty ||
      ((Nat.toDigits 10 n).head? == some '0' && 1 < (Nat.toDigits 10 n).length)) = false := by
    rw [Bool.or_eq_false_iff, List.isEmpty_eq_false_iff, Bool.and_eq_false_imp]
    refine ⟨Nat.toDigits_ne_nil, ?_⟩
    intro hZero
    rw [head?_toDigits (beq_iff_eq.mp hZero)]
    rfl
  unfold magnitude?
  simp only
  rw [hTake, hDrop, hSpare]
  simp [fraction?, digitsValue?_toDigits, exponent?]

theorem word?_toString (n : ℕ) : word? (toString n).toList = some (.number false ⟨n, 0⟩) := by
  rw [Nat.toString_eq_repr, Nat.toList_repr]
  obtain ⟨c, cs, hDigits⟩ := List.exists_cons_of_ne_nil (Nat.toDigits_ne_nil (n := n) (b := 10))
  have hc : c.isDigit = true := isDigit_of_mem_toDigits (hDigits ▸ List.mem_cons_self)
  have hMagnitude := magnitude?_toDigits n
  rw [hDigits] at hMagnitude ⊢
  unfold word?
  rw [if_neg, if_neg, if_neg]
  · split
    · rename_i hMinus
      exact absurd (List.cons.inj hMinus).1 (ne_of_isDigit hc (by decide))
    · rw [hMagnitude]
      rfl
  · exact fun h => ne_of_isDigit hc (by decide : 'f'.isDigit = false) (List.cons.inj h).1
  · exact fun h => ne_of_isDigit hc (by decide : 't'.isDigit = false) (List.cons.inj h).1
  · exact fun h => ne_of_isDigit hc (by decide : 'n'.isDigit = false) (List.cons.inj h).1

theorem isWordChar_of_isDigit {c : Char} (hc : c.isDigit = true) : isWordChar c = true := by
  have hBlank : isBlank c = false := by
    simp [isBlank, ne_of_isDigit hc (by decide : ' '.isDigit = false),
      ne_of_isDigit hc (by decide : '\t'.isDigit = false),
      ne_of_isDigit hc (by decide : '\n'.isDigit = false),
      ne_of_isDigit hc (by decide : '\r'.isDigit = false)]
  have hPunctuation : punctuation? c = none := by
    unfold punctuation?
    split
    all_goals first | rfl | cases hc
  simp [isWordChar, hBlank, hPunctuation, ne_of_isDigit hc (by decide : '"'.isDigit = false)]

/-! ## Strings -/

/-- Both digits of a control character are read back. -/
theorem unit?_of_control (n : Fin 32) (rest : List Char) :
    unit? ('0' :: '0' :: Json.hexDigit (n / 16) :: Json.hexDigit (n % 16) :: rest) =
      some (n.val, rest) := by
  have hValue : digitsValue? 16 ['0', '0', Json.hexDigit (n / 16), Json.hexDigit (n % 16)] =
      some n.val := by
    revert n
    decide
  rw [unit?, hValue]
  rfl

theorem character?_of_plain {c : Char} (hBackslash : c ≠ '\\') (hControl : 0x20 ≤ c.toNat)
    (rest : List Char) : character? (c :: rest) = some (c, rest) := by
  unfold character?
  split
  · rename_i h
    exact absurd (List.cons.inj h).1 hBackslash
  · rename_i h
    exact absurd (List.cons.inj h).1 hBackslash
  · rename_i h
    rw [← (List.cons.inj h).1, ← (List.cons.inj h).2, if_neg]
    rintro (hEq | hLt)
    · exact hBackslash hEq
    · omega
  · rename_i h
    cases h

/-- A character is read back as it stands in a string, and it is no quote there. -/
theorem character?_escape (c : Char) (rest : List Char) :
    character? (Json.escape c ++ rest) = some (c, rest) ∧
      (Json.escape c ++ rest).head? ≠ some '"' := by
  by_cases hLetter : c ∈ ['"', '\\', '\x08', '\x0c', '\n', '\r', '\t']
  · simp only [List.mem_cons, List.not_mem_nil, or_false] at hLetter
    rcases hLetter with rfl | rfl | rfl | rfl | rfl | rfl | rfl
    all_goals exact ⟨rfl, by simp [Json.escape]⟩
  · simp only [List.mem_cons, List.not_mem_nil, or_false, not_or] at hLetter
    obtain ⟨hQuote, hBackslash, hLetters⟩ := hLetter
    by_cases hControl : c.toNat < 0x20
    · have hEscape : Json.escape c = ['\\', 'u', '0', '0', Json.hexDigit (c.toNat / 16),
          Json.hexDigit (c.toNat % 16)] := by
        simp [Json.escape, hQuote, hBackslash, hLetters, hControl]
      rw [hEscape]
      refine ⟨?_, by simp⟩
      show unicode? ('0' :: '0' :: Json.hexDigit (c.toNat / 16) :: Json.hexDigit (c.toNat % 16) :: rest) =
        some (c, rest)
      rw [unicode?, unit?_of_control ⟨c.toNat, hControl⟩]
      simp only
      rw [if_pos (by omega), Char.ofNat_toNat]
    · rw [Json.escape_of_plain hQuote hBackslash (by omega)]
      exact ⟨character?_of_plain hBackslash (by omega) rest, by simpa using hQuote⟩

theorem readString_escape (cs rest : List Char) :
    readString (cs.flatMap Json.escape ++ '"' :: rest) = some (cs, rest) := by
  induction cs with
  | nil => exact readString_quote rest
  | cons c cs ih =>
    rw [List.flatMap_cons, List.append_assoc]
    obtain ⟨hRead, hQuote⟩ := character?_escape c (cs.flatMap Json.escape ++ '"' :: rest)
    rw [readString_character hQuote hRead, ih]
    rfl

/-! ## Texts and their tokens -/

/-- Behind the text a word would be at its end. -/
def Ends (text : List Char) : Prop := ∀ c, text.head? = some c → isWordChar c = false

/-- The text is cut into these tokens, whatever stands behind it, if a word would be at its end there. -/
def Lexes (text : List Char) (tokens : List JsonToken) : Prop :=
  ∀ rest, Ends rest → tokens? (text ++ rest) = (tokens? rest).map (tokens ++ ·)

variable {a b : List Char} {ts us : List JsonToken} {c : Char}

theorem ends_nil : Ends [] := by
  intro c h
  cases h

theorem ends_cons (h : isWordChar c = false) : Ends (c :: a) := by
  intro d hd
  rw [← Option.some.inj hd]
  exact h

theorem ends_append (ha : Ends a) (hb : Ends b) : Ends (a ++ b) := by
  cases a with
  | nil => exact hb
  | cons c a => exact ha

theorem lexes_nil : Lexes [] [] := by
  intro rest _
  show tokens? rest = (tokens? rest).map id
  rw [Option.map_id_apply]

theorem lexes_append (ha : Lexes a ts) (hb : Lexes b us) (hEnds : Ends b) :
    Lexes (a ++ b) (ts ++ us) := by
  intro rest hRest
  rw [List.append_assoc, ha _ (ends_append hEnds hRest), hb rest hRest, Option.map_map]
  simp only [Function.comp_def, List.append_assoc]

theorem lexes_blank (h : isBlank c = true) (ha : Lexes a ts) : Lexes (c :: a) ts := by
  intro rest hRest
  rw [List.cons_append, tokens?_blank h, ha rest hRest]

theorem lexes_punctuation {token : JsonToken} (h : punctuation? c = some token) (ha : Lexes a ts) :
    Lexes (c :: a) (token :: ts) := by
  intro rest hRest
  rw [List.cons_append, tokens?_punctuation h, ha rest hRest, Option.map_map]
  rfl

theorem lexes_string (text : List Char) (ha : Lexes a ts) :
    Lexes (Json.quoted text ++ a) (.scalar (.string text) :: ts) := by
  intro rest hRest
  have hText : Json.quoted text ++ a ++ rest =
      '"' :: (text.flatMap Json.escape ++ '"' :: (a ++ rest)) := by
    simp [Json.quoted]
  rw [hText, tokens?_string (readString_escape text _), ha rest hRest, Option.map_map]
  rfl

theorem lexes_word {word : List Char} {v : JsonValue} (hNe : word ≠ [])
    (hChars : ∀ c ∈ word, isWordChar c = true) (hWord : word? word = some v) :
    Lexes word [.scalar v] := by
  intro rest hRest
  rw [tokens?_word hNe hChars hWord hRest]
  rfl

theorem lexes_newLine (level : ℕ) (ha : Lexes a ts) : Lexes (Json.newLine level ++ a) ts := by
  have hSpaces (n : ℕ) : Lexes (List.replicate n ' ' ++ a) ts := by
    induction n with
    | zero => exact ha
    | succ n ih => exact lexes_blank (by decide) ih
  exact lexes_blank (by decide) (hSpaces _)

theorem read?_of_lexes {v : JsonValue} (h : Lexes a v.tokens) : read? a = some v := by
  have hTokens := h [] ends_nil
  rw [List.append_nil, tokens?_nil, Option.map_some, List.append_nil] at hTokens
  rw [read?, hTokens, Option.bind_some, ofTokens?_tokens]

end JsonReader

/-! ## Printing -/

namespace Output

variable {o o' : Output}

@[simp] theorem isComplete_append : (o ++ o').isComplete = (o.isComplete && o'.isComplete) :=
  List.all_append

@[simp] theorem isComplete_cons (c : Char) : isComplete (some c :: o) = o.isComplete := rfl

@[simp] theorem text_cons (c : Char) : text (some c :: o) = c :: o.text := rfl

theorem text_append (h : o.isComplete = true) : (o ++ o').text = o.text ++ o'.text := by
  induction o with
  | nil => rfl
  | cons c o ih =>
    cases c with
    | none => cases h
    | some c =>
      rw [isComplete_cons] at h
      rw [List.cons_append, text_cons, text_cons, ih h, List.cons_append]

end Output

namespace Json

open JsonReader

variable {level : ℕ} {first more : Output} {ts us : List JsonToken}

theorem lexes_number (n : ℕ) : Lexes (toString n).toList [.scalar (.number false ⟨n, 0⟩)] := by
  have hDigits : (toString n).toList = Nat.toDigits 10 n := by
    rw [Nat.toString_eq_repr, Nat.toList_repr]
  refine lexes_word ?_ ?_ (word?_toString n)
  · rw [hDigits]
    exact Nat.toDigits_ne_nil
  · intro c hc
    rw [hDigits] at hc
    exact isWordChar_of_isDigit (Numeral.isDigit_of_mem_toDigits hc)

theorem lexes_printItem {j : Json} (h : Lexes (print (level + 1) j).text ts) :
    Lexes (printItem level j).text ts := by
  rw [printItem, Output.text_append (Output.isComplete_ofText _), Output.text_ofText]
  exact lexes_newLine (level + 1) h

theorem lexes_printMember {j : Json} (key : String) (h : Lexes (print (level + 1) j).text ts) :
    Lexes (printMember level (key, j)).text (.scalar (.string key.toList) :: .colon :: ts) := by
  rw [printMember, Output.text_append (Output.isComplete_ofText _), Output.text_ofText,
    List.append_assoc, List.append_assoc]
  refine lexes_newLine (level + 1) (lexes_string key.toList ?_)
  exact lexes_punctuation rfl (lexes_blank (by decide) h)

/-- What stands between brackets: a first part, and more parts behind commas. -/
theorem lexes_brackets {start stop : Char} {startToken stopToken : JsonToken}
    (hStart : punctuation? start = some startToken) (hStop : punctuation? stop = some stopToken)
    (hComplete : first.isComplete = true) (hFirst : Lexes first.text ts)
    (hMoreComplete : more.isComplete = true) (hMore : Lexes more.text us) (hEnds : Ends more.text) :
    Lexes (Output.text (some start :: first ++ more ++ .ofText (newLine level ++ [stop])))
      (startToken :: ts ++ us ++ [stopToken]) := by
  have hClose : Lexes (newLine level ++ [stop]) [stopToken] :=
    lexes_newLine level (lexes_punctuation hStop lexes_nil)
  have hText : Output.text (some start :: first ++ more ++ .ofText (newLine level ++ [stop])) =
      start :: (first.text ++ more.text ++ (newLine level ++ [stop])) := by
    rw [List.cons_append, List.cons_append, Output.text_cons,
      Output.text_append (by rw [Output.isComplete_append, hComplete, hMoreComplete]; rfl),
      Output.text_append hComplete, Output.text_ofText]
  rw [hText]
  refine lexes_punctuation hStart (lexes_append (lexes_append hFirst hMore hEnds) hClose ?_)
  exact ends_cons (by decide)

mutual

/-- The output of a value is cut into the tokens of the value. -/
theorem lexes_print (j : Json) (level : ℕ) (h : (print level j).isComplete = true) :
    Lexes (print level j).text j.value.tokens := by
  match j with
  | .null =>
    rw [print, Output.ofString, Output.text_ofText]
    exact lexes_word (by decide) (List.all_eq_true.mp (by decide)) rfl
  | .number n =>
    rw [print, Output.ofString, Output.text_ofText]
    exact lexes_number n
  | .string text =>
    rw [print, Output.text_ofText, ← List.append_nil (quoted text)]
    exact lexes_string text lexes_nil
  | .unwritable =>
    rw [print] at h
    cases h
  | .array [] =>
    rw [print, Output.ofString, Output.text_ofText]
    exact lexes_punctuation rfl (lexes_punctuation rfl lexes_nil)
  | .array (item :: items) =>
    rw [print] at h ⊢
    simp only [Output.isComplete_append, Output.isComplete_cons, List.cons_append,
      Output.isComplete_ofText, Bool.and_true, Bool.and_eq_true] at h
    obtain ⟨hItem, hItems⟩ := h
    obtain ⟨hMore, hEnds⟩ := lexes_printItems items level hItems
    have hPrint : (print (level + 1) item).isComplete = true := by
      simpa [printItem] using hItem
    exact lexes_brackets rfl rfl hItem (lexes_printItem (lexes_print item (level + 1) hPrint)) hItems
      hMore hEnds
  | .object [] =>
    rw [print, Output.ofString, Output.text_ofText]
    exact lexes_punctuation rfl (lexes_punctuation rfl lexes_nil)
  | .object ((key, j) :: members) =>
    rw [print] at h ⊢
    simp only [Output.isComplete_append, Output.isComplete_cons, List.cons_append,
      Output.isComplete_ofText, Bool.and_true, Bool.and_eq_true] at h
    obtain ⟨hMember, hMembers⟩ := h
    obtain ⟨hMore, hEnds⟩ := lexes_printMembers members level hMembers
    have hPrint : (print (level + 1) j).isComplete = true := by
      simpa [printMember] using hMember
    exact lexes_brackets rfl rfl hMember (lexes_printMember key (lexes_print j (level + 1) hPrint))
      hMembers hMore hEnds

theorem lexes_printItems (items : List Json) (level : ℕ)
    (h : (printItems level items).isComplete = true) :
    Lexes (printItems level items).text (JsonValue.tokensOfItems (valuesOfItems items)) ∧
      Ends (printItems level items).text := by
  match items with
  | [] =>
    rw [printItems]
    exact ⟨lexes_nil, ends_nil⟩
  | item :: items =>
    rw [printItems] at h ⊢
    simp only [Output.isComplete_append, Output.isComplete_cons, List.cons_append,
      Bool.and_eq_true] at h
    obtain ⟨hItem, hItems⟩ := h
    obtain ⟨hMore, hEnds⟩ := lexes_printItems items level hItems
    have hPrint : (print (level + 1) item).isComplete = true := by
      simpa [printItem] using hItem
    rw [List.cons_append, Output.text_cons, Output.text_append hItem]
    refine ⟨lexes_punctuation rfl (lexes_append ?_ hMore hEnds), ends_cons (by decide)⟩
    exact lexes_printItem (lexes_print item (level + 1) hPrint)

theorem lexes_printMembers (members : List (String × Json)) (level : ℕ)
    (h : (printMembers level members).isComplete = true) :
    Lexes (printMembers level members).text (JsonValue.tokensOfMembers (valuesOfMembers members)) ∧
      Ends (printMembers level members).text := by
  match members with
  | [] =>
    rw [printMembers]
    exact ⟨lexes_nil, ends_nil⟩
  | (key, j) :: members =>
    rw [printMembers] at h ⊢
    simp only [Output.isComplete_append, Output.isComplete_cons, List.cons_append,
      Bool.and_eq_true] at h
    obtain ⟨hMember, hMembers⟩ := h
    obtain ⟨hMore, hEnds⟩ := lexes_printMembers members level hMembers
    have hPrint : (print (level + 1) j).isComplete = true := by
      simpa [printMember] using hMember
    rw [List.cons_append, Output.text_cons, Output.text_append hMember]
    refine ⟨lexes_punctuation rfl (lexes_append ?_ hMore hEnds), ends_cons (by decide)⟩
    exact lexes_printMember key (lexes_print j (level + 1) hPrint)

end

end Json

end SnippetAudit.Report
