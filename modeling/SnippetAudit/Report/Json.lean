/-!
# JSON

JSON values as a report holds them, and their text: each item and each member on a line of
its own, indented by two spaces a level; empty arrays and objects on one line. In strings the quote,
the backslash and the characters below U+0020 are escaped, all others stand as they are.

A value that has no text stops the writer where it stands. So the output of a value is a list of
characters in which such a place is `none`.

Results:
* `Output.text_ofText`, `Output.isComplete_ofText`: output without such a place is written in full.
* `escape_of_plain`: a character that is not escaped stands for itself.
-/

namespace SnippetAudit.Report

/-! ## Output -/

/-- Characters to write, up to a place where there is nothing that could be written. -/
abbrev Output := List (Option Char)

namespace Output

/-- The output of a text. -/
def ofText (text : List Char) : Output := text.map some

/-- The output of a text given as a string. -/
def ofString (text : String) : Output := ofText text.toList

/-- What is written before the first place where nothing can be. -/
def text (o : Output) : List Char := (o.takeWhile (·.isSome)).filterMap id

/-- Whether all of it is written. -/
def isComplete (o : Output) : Bool := o.all (·.isSome)

end Output

/-! ## Values -/

/-- A JSON value. -/
inductive Json where
  | null
  | number (n : Nat)
  | string (text : List Char)
  /-- A value that has no text. -/
  | unwritable
  | array (items : List Json)
  | object (members : List (String × Json))
  deriving Repr

namespace Json

/-- The digits of a control character in an escape. -/
def hexDigit (n : Nat) : Char := Char.ofNat (if n < 10 then 48 + n else 87 + n)

/-- A character as it stands in a string. -/
def escape (c : Char) : List Char :=
  if c = '"' then ['\\', '"']
  else if c = '\\' then ['\\', '\\']
  else if c = '\x08' then ['\\', 'b']
  else if c = '\x0c' then ['\\', 'f']
  else if c = '\n' then ['\\', 'n']
  else if c = '\r' then ['\\', 'r']
  else if c = '\t' then ['\\', 't']
  else if c.toNat < 0x20 then
    ['\\', 'u', '0', '0', hexDigit (c.toNat / 16), hexDigit (c.toNat % 16)]
  else [c]

/-- A string between quotes. -/
def quoted (text : List Char) : List Char := '"' :: text.flatMap escape ++ ['"']

/-- A new line, indented to a level. -/
def newLine (level : Nat) : List Char := '\n' :: List.replicate (2 * level) ' '

mutual

/-- The output of a value at a level. -/
def print (level : Nat) : Json → Output
  | .null => .ofString "null"
  | .number n => .ofString (toString n)
  | .string text => .ofText (quoted text)
  | .unwritable => [none]
  | .array [] => .ofString "[]"
  | .array (item :: items) =>
    some '[' :: printItem level item ++ printItems level items ++ .ofText (newLine level ++ [']'])
  | .object [] => .ofString "\x7b\x7d"
  | .object (member :: members) =>
    some '\x7b' :: printMember level member ++ printMembers level members
      ++ .ofText (newLine level ++ ['\x7d'])

/-- The output of an item of an array at a level. -/
def printItem (level : Nat) (item : Json) : Output :=
  .ofText (newLine (level + 1)) ++ print (level + 1) item

/-- The output of the items of an array behind the first. -/
def printItems (level : Nat) : List Json → Output
  | [] => []
  | item :: items => some ',' :: printItem level item ++ printItems level items

/-- The output of a member of an object at a level. -/
def printMember (level : Nat) : String × Json → Output
  | (key, value) =>
    .ofText (newLine (level + 1) ++ quoted key.toList ++ [':', ' ']) ++ print (level + 1) value

/-- The output of the members of an object behind the first. -/
def printMembers (level : Nat) : List (String × Json) → Output
  | [] => []
  | member :: members => some ',' :: printMember level member ++ printMembers level members

end

end Json

/-! ## Lemmas -/

namespace Output

@[simp] theorem text_ofText (cs : List Char) : (ofText cs).text = cs := by
  induction cs with
  | nil => rfl
  | cons c cs ih => simpa [ofText, text] using ih

@[simp] theorem isComplete_ofText (cs : List Char) : (ofText cs).isComplete = true := by
  simp [ofText, isComplete]

end Output

theorem Json.escape_of_plain {c : Char} (hQuote : c ≠ '"') (hBackslash : c ≠ '\\')
    (hControl : 0x20 ≤ c.toNat) : escape c = [c] := by
  have h (d : Char) (hd : d.toNat < 0x20) : c ≠ d := by
    rintro rfl
    omega
  simp [escape, hQuote, hBackslash, h '\x08' (by decide), h '\x0c' (by decide), h '\n' (by decide),
    h '\r' (by decide), h '\t' (by decide), Nat.not_lt.2 hControl]

end SnippetAudit.Report
