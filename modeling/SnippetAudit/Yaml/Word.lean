import SnippetAudit.Number.Numeral
import SnippetAudit.Text.Utf8
import SnippetAudit.Yaml.Cursor

/-!
# Tokens, and the words among them

The tokens of a document are indicators, the ends of indented blocks, names and scalars. Names
stand in words: here are the readers for the words that start with `%`,
`&`, `*` and `!`. Each takes the cursor at the sign and gives what it read with the cursor behind it.

A tag may be written with escaped bytes, and may so hold a zero byte. What follows that byte
does not count.

Results:
* `readAnchor_ok_name`: an anchor has a name.
-/

namespace SnippetAudit.Yaml

/-! ## Tokens -/

/-- A tag as written: a handle, which a directive may declare, and the rest. The rest may be written
    with escaped bytes, so it is held in bytes. -/
structure TagWord where
  handle : List Char
  suffix : List UInt8
  deriving DecidableEq, Repr

/-- The kinds of tokens. -/
inductive Token.Kind where
  | streamEnd
  | version (major minor : Nat)
  | tagHandle (handle : List Char) (lead : List UInt8)
  | documentStart
  | documentEnd
  | blockSequence
  | blockMapping
  | blockEnd
  | openSequence
  | closeSequence
  | openMapping
  | closeMapping
  | entry
  | separator
  | key
  | value
  | alias (name : List Char)
  | anchor (name : List Char)
  | tag (word : TagWord)
  | scalar (text : List Char) (plain : Bool)
  deriving DecidableEq, Repr

/-- A token and the marks where it starts and stops. -/
structure Token where
  kind : Token.Kind
  start : Mark
  stop : Mark
  deriving DecidableEq, Repr

namespace Word

open Text

/-! ## Anchors -/

/-- Reads the name of an anchor or alias, behind its sign. A name ends at a gap or at one of a few
    indicators. -/
def readAnchor (cur : Cursor) : Except Fault (List Char × Cursor) :=
  let (name, cur) := (cur.advance 1).span isNameChar
  let ends := atGap cur.rest || cur.rest.head?.any ("?:,]\x7d%@\x60".toList.contains ·)
  if name.isEmpty || !ends then .error .anchor else .ok (name, cur)

/-! ## Tags -/

/-- How many bytes of a character have to follow a byte, if it stands where `awaited` bytes have to
    follow. -/
def followers? (awaited byte : Nat) : Option Nat :=
  if awaited ≠ 0 then if byte / 64 = 2 then some (awaited - 1) else none
  else if byte < 0x80 then some 0
  else if byte / 32 = 6 then some 1
  else if byte / 16 = 14 then some 2
  else if byte / 8 = 30 then some 3
  else none

/-- Whether a character may stand in a tag; `verbatim` tags may hold a few more. -/
def isTagChar (verbatim : Bool) (c : Char) : Bool :=
  isNameChar c || ";/?:@&=+$.!~*'()".toList.contains c || (verbatim && ",[]".toList.contains c)

/-- Reads the characters of a tag. A byte may be written as an escape `%xx`; `awaited` more of these have
    to follow to make up a character. -/
def readTagText (verbatim : Bool) : Nat → List Char → Mark → Except Fault (List UInt8 × Cursor)
  | awaited, '%' :: a :: b :: rest, m =>
    match Numeral.digitsValue? 16 [a, b] with
    | some byte =>
      match followers? awaited byte with
      | some awaited =>
        (readTagText verbatim awaited rest (m.advance ['%', a, b])).map fun (bytes, cur) =>
          (UInt8.ofNat byte :: bytes, cur)
      | none => .error .tag
    | none => .error .tag
  | awaited, c :: rest, m =>
    if awaited ≠ 0 ∨ c = '%' then .error .tag
    else if isTagChar verbatim c then
      (readTagText verbatim 0 rest (m.advance [c])).map fun (bytes, cur) =>
        (Utf8.encode [c] ++ bytes, cur)
    else .ok ([], ⟨c :: rest, m⟩)
  | awaited, [], m => if awaited ≠ 0 then .error .tag else .ok ([], ⟨[], m⟩)

/-- Reads `!`, a name, and the `!` that may end a handle. -/
def readHandle (cur : Cursor) : Except Fault (List Char × Cursor) :=
  match cur.rest with
  | '!' :: _ =>
    let (name, cur) := (cur.advance 1).span isNameChar
    match cur.rest with
    | '!' :: _ => .ok ('!' :: name ++ ['!'], cur.advance 1)
    | _ => .ok ('!' :: name, cur)
  | _ => .error .tag

/-- The bytes of a tag that count: a zero byte ends it. -/
def beforeZero (bytes : List UInt8) : List UInt8 := bytes.takeWhile (· != 0)

/-- The tag between `!<` and `>`. -/
def readVerbatim (cur : Cursor) : Except Fault (TagWord × Cursor) := do
  let cur := cur.advance 2
  let (text, cur) ← readTagText true 0 cur.rest cur.mark
  if text.isEmpty then throw .tag
  match cur.rest with
  | '>' :: _ => return (⟨[], beforeZero text⟩, cur.advance 1)
  | _ => throw .tag

/-- A tag behind a handle such as `!e!`, or behind `!` alone. The tag `!` has no handle. -/
def readShorthand (cur : Cursor) : Except Fault (TagWord × Cursor) := do
  let (handle, cur) ← readHandle cur
  let (text, cur) ← readTagText false 0 cur.rest cur.mark
  if handle.length ≥ 2 && handle.getLast? == some '!' then
    if text.isEmpty then throw .tag
    return (⟨handle, beforeZero text⟩, cur)
  else
    let suffix := beforeZero (Utf8.encode handle.tail ++ text)
    if suffix.isEmpty then return (⟨[], Utf8.encode ['!']⟩, cur)
    return (⟨['!'], suffix⟩, cur)

/-- Reads a tag. Behind it stands a gap, or a comma in a flow collection. -/
def readTag (inFlow : Bool) (cur : Cursor) : Except Fault (TagWord × Cursor) := do
  let (word, cur) ← match cur.rest with
    | _ :: '<' :: _ => readVerbatim cur
    | _ => readShorthand cur
  if atGap cur.rest || (inFlow && cur.rest.head? == some ',') then return (word, cur)
  throw .tag

/-! ## Directives -/

/-- Reads a part of a version, of at most nine digits. -/
def readVersionPart (cur : Cursor) : Except Fault (Nat × Cursor) :=
  let (digits, cur) := cur.span Numeral.isDigit
  match Numeral.digitsValue? 10 digits with
  | some n => if digits.length ≤ 9 then .ok (n, cur) else .error .directive
  | none => .error .directive

/-- Reads the value of a version directive. -/
def readVersion (cur : Cursor) : Except Fault (Token.Kind × Cursor) := do
  let (major, cur) ← readVersionPart (cur.skipWhile isSpace)
  match cur.rest with
  | '.' :: _ =>
    let (minor, cur) ← readVersionPart (cur.advance 1)
    return (.version major minor, cur)
  | _ => throw .directive

/-- Reads the value of a tag directive: a handle and what it stands for. -/
def readTagDirective (cur : Cursor) : Except Fault (Token.Kind × Cursor) := do
  let (handle, cur) ← readHandle (cur.skipWhile isSpace)
  if handle.getLast? ≠ some '!' then throw .directive
  match cur.rest with
  | c :: _ => if !isSpace c then throw .directive
  | [] => throw .directive
  let cur := cur.skipWhile isSpace
  let (lead, cur) ← readTagText true 0 cur.rest cur.mark
  if lead.isEmpty || !atGap cur.rest then throw .directive
  return (.tagHandle handle (beforeZero lead), cur)

/-- Reads a directive and the end of its line. -/
def readDirective (cur : Cursor) : Except Fault (Token.Kind × Mark × Cursor) := do
  let (name, cur) := (cur.advance 1).span isNameChar
  if name.isEmpty || !atGap cur.rest then throw .directive
  let (kind, cur) ←
    if name == "YAML".toList then readVersion cur
    else if name == "TAG".toList then readTagDirective cur
    else throw .directive
  let stop := cur.mark
  return (kind, stop, ← cur.endLine .directive)

/-! ## Lemmas -/

theorem readAnchor_ok_name {cur after : Cursor} {name : List Char}
    (h : readAnchor cur = .ok (name, after)) : name ≠ [] := by
  unfold readAnchor at h
  rintro rfl
  split at h
  dsimp only at h
  split at h
  · simp at h
  · rename_i hCond
    simp only [Except.ok.injEq, Prod.mk.injEq] at h
    simp [h.1] at hCond

end Word

end SnippetAudit.Yaml
