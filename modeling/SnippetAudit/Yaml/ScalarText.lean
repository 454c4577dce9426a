import SnippetAudit.Number.Numeral
import SnippetAudit.Yaml.Cursor

/-!
# Scalars

Readers for the text of plain, quoted and block scalars. White space inside a plain or
quoted scalar is folded: a line break becomes a space, and of several line breaks the
first is dropped. A block scalar keeps its lines, or folds them likewise where they are
not indented further.

What a reader may have to do many times it does at most `fuel` times; one more than the number
of characters that are left is always enough.

Results:
* `foldBreaks_lineFeed`: one line break folds to a space.
* `Gap.text_of_breaks_nil`: white space within a line is kept.
-/

namespace SnippetAudit.Yaml.Scalar

/-! ## White space within a scalar -/

/-- White space between two parts of a scalar: spaces before the first line break, and the texts of
    the line breaks. Behind an escaped line break there is no first break to drop. -/
structure Gap where
  escaped : Bool
  spaces : List Char
  breaks : List Char
  deriving DecidableEq, Repr

/-- No white space. -/
def Gap.none : Gap := ⟨false, [], []⟩

/-- Whether the white space has left its first line. -/
def Gap.isBroken (g : Gap) : Bool := g.escaped || !g.breaks.isEmpty

/-- Line breaks, folded. -/
def foldBreaks : List Char → List Char
  | ['\n'] => [' ']
  | '\n' :: more => more
  | breaks => breaks

/-- What white space stands for between two parts of a scalar. -/
def Gap.text (g : Gap) : List Char :=
  if g.escaped then g.breaks else if g.breaks.isEmpty then g.spaces else foldBreaks g.breaks

/-- Puts a line break before white space. -/
def Gap.addBreak (c : Char) (g : Gap) : Gap := { g with breaks := breakText c :: g.breaks }

/-- Puts a space before white space. -/
def Gap.addSpace (c : Char) (g : Gap) : Gap := { g with spaces := c :: g.spaces }

/-- Reads white space, behind an escaped line break or not. Where it is `broken` already, spaces are
    indentation; a tab there before column `indent` is refused. -/
def readGap (indent : Nat) (escaped : Bool) : Bool → List Char → Mark → Except Fault (Gap × Cursor)
  | _, '\r' :: '\n' :: rest, m =>
    (readGap indent escaped true rest (m.nextLine ['\r', '\n'])).map fun (g, cur) =>
      (g.addBreak '\r', cur)
  | broken, c :: rest, m =>
    if isBreak c then
      (readGap indent escaped true rest (m.nextLine [c])).map fun (g, cur) => (g.addBreak c, cur)
    else if isSpace c then
      if broken then
        if c = '\t' ∧ m.column < indent then .error .tab
        else readGap indent escaped broken rest (m.advance [c])
      else
        (readGap indent escaped broken rest (m.advance [c])).map fun (g, cur) => (g.addSpace c, cur)
    else .ok (⟨escaped, [], []⟩, ⟨c :: rest, m⟩)
  | _, [], m => .ok (⟨escaped, [], []⟩, ⟨[], m⟩)

/-! ## Plain scalars -/

/-- Whether a flow collection gives a character a meaning of its own. -/
def isFlowIndicator (c : Char) : Bool := ",[]\x7b\x7d".toList.contains c

/-- Reads the characters of a plain scalar up to white space or to an indicator that ends it. -/
def readPlainPart (inFlow : Bool) : List Char → Mark → Except Fault (List Char × Cursor)
  | c :: rest, m =>
    if inFlow && c == ':' && rest.head?.any (fun d => isFlowIndicator d || d == '?') then .error .colon
    else if isSpace c || isBreak c || (c == ':' && atGap rest) || (inFlow && isFlowIndicator c) then
      .ok ([], ⟨c :: rest, m⟩)
    else (readPlainPart inFlow rest (m.advance [c])).map fun (text, cur) => (c :: text, cur)
  | [], m => .ok ([], ⟨[], m⟩)

/-- A plain scalar: its text, the mark behind the text, the cursor behind the white space that follows
    it, and whether that white space holds a line break. -/
structure Plain where
  text : List Char
  stop : Mark
  after : Cursor
  broken : Bool

/-- Reads the parts of a plain scalar behind some white space; `done` is the scalar where no part
    follows. -/
def readPlainParts (inFlow : Bool) (indent : Nat) : Nat → Gap → Plain → Except Fault Plain
  | 0, _, done => .ok done
  | fuel + 1, gap, done => do
    let cur := done.after
    if cur.mark.column = 0 ∧ atDocumentMarker cur.rest then return done
    if cur.rest.head? = some '#' then return done
    let (part, cur) ← readPlainPart inFlow cur.rest cur.mark
    if part.isEmpty then return done
    let (next, after) ← readGap indent false false cur.rest cur.mark
    let done : Plain := ⟨[], cur.mark, after, next.isBroken⟩
    let ends := (next.spaces.isEmpty && !next.isBroken) || (!inFlow && after.mark.column < indent)
    let more ← if ends then pure done else readPlainParts inFlow indent fuel next done
    return { more with text := gap.text ++ part ++ more.text }

/-- Reads a plain scalar whose further lines are indented to column `indent`. -/
def readPlain (inFlow : Bool) (indent : Nat) (fuel : Nat) (cur : Cursor) : Except Fault Plain :=
  readPlainParts inFlow indent fuel .none ⟨[], cur.mark, cur, false⟩

/-! ## Quoted scalars -/

/-- The character of an escape sequence and the length of the sequence, both behind the backslash. -/
def escape? : List Char → Option (Char × Nat)
  | [] => none
  | c :: rest =>
    let code (digits : Nat) : Option (Char × Nat) :=
      if rest.length < digits then none
      else
        (Numeral.digitsValue? 16 (rest.take digits)).bind fun n =>
          if n.isValidChar then some (Char.ofNat n, digits + 1) else none
    match c with
    | '0' => some ('\x00', 1)
    | 'a' => some ('\x07', 1)
    | 'b' => some ('\x08', 1)
    | 't' | '\t' => some ('\t', 1)
    | 'n' => some ('\n', 1)
    | 'v' => some ('\x0b', 1)
    | 'f' => some ('\x0c', 1)
    | 'r' => some ('\r', 1)
    | 'e' => some ('\x1b', 1)
    | ' ' | '"' | '/' | '\\' => some (c, 1)
    | 'N' => some ('\u0085', 1)
    | '_' => some ('\u00a0', 1)
    | 'L' => some ('\u2028', 1)
    | 'P' => some ('\u2029', 1)
    | 'x' => code 2
    | 'u' => code 4
    | 'U' => code 8
    | _ => none

/-- Reads the characters of a single-quoted scalar up to white space or to the closing quote. A quote
    written twice is one quote. -/
def readSinglePart : List Char → Mark → List Char × Cursor
  | '\'' :: '\'' :: rest, m =>
    let (text, cur) := readSinglePart rest (m.advance ['\'', '\''])
    ('\'' :: text, cur)
  | c :: rest, m =>
    if c = '\'' ∨ isSpace c ∨ isBreak c then ([], ⟨c :: rest, m⟩)
    else
      let (text, cur) := readSinglePart rest (m.advance [c])
      (c :: text, cur)
  | [], m => ([], ⟨[], m⟩)

/-- Reads the characters of a double-quoted scalar up to white space or to the closing quote. The flag
    says that the part ended with an escaped line break, which is read as well. -/
def readDoublePart : Nat → Cursor → Except Fault (List Char × Bool × Cursor)
  | 0, cur => .ok ([], false, cur)
  | fuel + 1, cur =>
    match cur.rest with
    | [] => .ok ([], false, cur)
    | '\\' :: rest =>
      if rest.head?.any isBreak then .ok ([], true, (cur.advance 1).nextLine)
      else
        match escape? rest with
        | some (c, length) =>
          (readDoublePart fuel (cur.advance (length + 1))).map fun (text, flag, cur) =>
            (c :: text, flag, cur)
        | none => .error .escape
    | c :: _ =>
      if c = '"' ∨ isSpace c ∨ isBreak c then .ok ([], false, cur)
      else (readDoublePart fuel (cur.advance 1)).map fun (text, flag, cur) => (c :: text, flag, cur)

/-- Reads the parts of a quoted scalar to its closing quote. -/
def readQuotedParts (double : Bool) : Nat → Cursor → Except Fault (List Char × Cursor)
  | 0, _ => .error .unclosedQuote
  | fuel + 1, cur => do
    if cur.mark.column = 0 ∧ atDocumentMarker cur.rest then throw .unclosedQuote
    if cur.rest.isEmpty then throw .unclosedQuote
    let (part, escaped, cur) ←
      if double then readDoublePart (fuel + 1) cur
      else
        let (part, cur) := readSinglePart cur.rest cur.mark
        pure (part, false, cur)
    if cur.rest.head? = some (if double then '"' else '\'') then return (part, cur.advance 1)
    let (gap, cur) ← readGap 0 escaped escaped cur.rest cur.mark
    let (text, cur) ← readQuotedParts double fuel cur
    return (part ++ gap.text ++ text, cur)

/-- Reads a quoted scalar from its opening quote. -/
def readQuoted (double : Bool) (fuel : Nat) (cur : Cursor) : Except Fault (List Char × Cursor) :=
  readQuotedParts double fuel (cur.advance 1)

/-! ## Block scalars -/

/-- What becomes of the line breaks at the end of a block scalar. -/
inductive Chomping where
  | strip
  | clip
  | keep
  deriving DecidableEq, Repr

/-- The chomping that a sign asks for. -/
def chomping? : Char → Option Chomping
  | '-' => some .strip
  | '+' => some .keep
  | _ => none

/-- Reads an indentation indicator, a digit other than zero; there may be none. -/
def readIncrement (cur : Cursor) : Except Fault (Option Nat × Cursor) :=
  match cur.rest.head?.bind (Numeral.digitValue? 10) with
  | some 0 => .error .blockHeader
  | some n => .ok (some n, cur.advance 1)
  | none => .ok (none, cur)

/-- Reads a chomping indicator; there may be none. -/
def readChomping (cur : Cursor) : Option Chomping × Cursor :=
  match cur.rest.head?.bind chomping? with
  | some c => (some c, cur.advance 1)
  | none => (none, cur)

/-- Reads the header of a block scalar, behind its sign: chomping and indentation in either order. -/
def readHeader (cur : Cursor) : Except Fault (Chomping × Option Nat × Cursor) := do
  let (first, cur) := readChomping cur
  let (increment, cur) ← readIncrement cur
  let (second, cur) :=
    if first.isNone && increment.isSome then readChomping cur else (none, cur)
  return ((first.or second).getD .clip, increment, ← cur.endLine .blockHeader)

/-- Reads the indentation and the empty lines before a line of a block scalar: their line breaks and
    the widest indentation met. While `indent` is zero it is not known yet. -/
def readIndentation (indent : Nat) :
    List Char → Mark → Except Fault (List Char × Nat × Cursor)
  | '\r' :: '\n' :: rest, m =>
    (readIndentation indent rest (m.nextLine ['\r', '\n'])).map fun (breaks, widest, cur) =>
      ('\n' :: breaks, max m.column widest, cur)
  | c :: rest, m =>
    let inside := indent = 0 ∨ m.column < indent
    if c = ' ' ∧ inside then readIndentation indent rest (m.advance [c])
    else if c = '\t' ∧ inside then .error .tab
    else if isBreak c then
      (readIndentation indent rest (m.nextLine [c])).map fun (breaks, widest, cur) =>
        (breakText c :: breaks, max m.column widest, cur)
    else .ok ([], m.column, ⟨c :: rest, m⟩)
  | [], m => .ok ([], m.column, ⟨[], m⟩)

/-- The text of the line break at a cursor; there is none at the end. -/
def lineBreak (cur : Cursor) : List Char :=
  match cur.rest with
  | c :: _ => [breakText c]
  | [] => []

/-- What stands behind a line of a block scalar: its line break, the breaks of the empty lines that
    follow, and whether the line started with a space. -/
structure LineEnd where
  last : List Char
  empty : List Char
  spaced : Bool

/-- What the end of a line stands for before the next line. A folded scalar joins two lines that both
    do not start with a space. -/
def LineEnd.joint (e : LineEnd) (folded spaced : Bool) : List Char :=
  if folded && e.last.head? == some '\n' && !e.spaced && !spaced then
    if e.empty.isEmpty then [' '] else e.empty
  else e.last ++ e.empty

/-- Reads the lines of a block scalar: their text up to the end of the last line, and that end. -/
def readBlockLines (folded : Bool) (indent : Nat) :
    Nat → LineEnd → Cursor → Except Fault (List Char × LineEnd × Cursor)
  | 0, e, cur => .ok ([], e, cur)
  | fuel + 1, e, cur =>
    if cur.mark.column = indent ∧ !cur.rest.isEmpty then do
      let spaced := cur.rest.head?.any isSpace
      let (line, cur) := cur.span (!isBreak ·)
      let last := lineBreak cur
      let next := cur.nextLine
      let (empty, _, next) ← readIndentation indent next.rest next.mark
      let (more, ending) ← readBlockLines folded indent fuel ⟨last, empty, spaced⟩ next
      return (e.joint folded spaced ++ line ++ more, ending)
    else .ok ([], e, cur)

/-- Reads a block scalar in a block that is indented to `outer`, if at all. -/
def readBlock (folded : Bool) (outer : Option Nat) (fuel : Nat) (cur : Cursor) :
    Except Fault (List Char × Cursor) := do
  let (chomping, increment, cur) ← readHeader (cur.advance 1)
  let known := increment.map (outer.getD 0 + ·)
  let (empty, widest, cur) ← readIndentation (known.getD 0) cur.rest cur.mark
  let least := match outer with
    | some n => n + 1
    | none => 1
  let indent := known.getD (max widest least)
  let (text, ending, cur) ← readBlockLines folded indent fuel ⟨[], empty, false⟩ cur
  let tail := match chomping with
    | .strip => []
    | .clip => ending.last
    | .keep => ending.last ++ ending.empty
  return (text ++ tail, cur)

/-! ## Lemmas -/

@[simp] theorem foldBreaks_lineFeed : foldBreaks ['\n'] = [' '] := rfl

theorem Gap.text_of_breaks_nil (spaces : List Char) : Gap.text ⟨false, spaces, []⟩ = spaces := rfl

end SnippetAudit.Yaml.Scalar
