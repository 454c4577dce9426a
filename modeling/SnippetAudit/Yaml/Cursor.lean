import SnippetAudit.Yaml.Fault

/-!
# Reading position

A cursor is the text that is left and the mark where it starts. Marks count bytes, lines and
columns from zero, where a column is one character wide; a carriage return with the line feed
behind it is one line break.

Results:
* `advance_rest`, `nextLine_rest_length`: moving on leaves a shorter text.
* `atDocumentMarker_of_ne`: a document marker is made of dashes or points.
-/

namespace SnippetAudit.Yaml

/-- A position in a text. -/
structure Mark where
  index : Nat
  line : Nat
  column : Nat
  deriving DecidableEq, Repr

/-- How many bytes a text has. -/
def byteCount : List Char → Nat
  | [] => 0
  | c :: text => c.utf8Size + byteCount text

/-- The mark behind characters of one line. -/
def Mark.advance (m : Mark) (text : List Char) : Mark :=
  { m with index := m.index + byteCount text, column := m.column + text.length }

/-- The mark behind a line break. -/
def Mark.nextLine (m : Mark) (text : List Char) : Mark := ⟨m.index + byteCount text, m.line + 1, 0⟩

/-! ## Characters -/

/-- Whether a character breaks a line. -/
def isBreak (c : Char) : Bool :=
  c == '\n' || c == '\r' || c == '\u0085' || c == '\u2028' || c == '\u2029'

/-- Whether a character separates tokens within a line. -/
def isSpace (c : Char) : Bool := c == ' ' || c == '\t'

/-- Whether a character may stand in a name: an ASCII letter or digit, `_` or `-`. -/
def isNameChar (c : Char) : Bool :=
  ('0' ≤ c && c ≤ '9') || ('a' ≤ c && c ≤ 'z') || ('A' ≤ c && c ≤ 'Z') || c == '_' || c == '-'

/-- The text of a line break: a line feed, but for the separators of Unicode, which are kept. -/
def breakText (c : Char) : Char := if c == '\u2028' || c == '\u2029' then c else '\n'

/-- Whether a document may hold a character: most control characters it may not. -/
def isAllowed (c : Char) : Bool :=
  let n := c.toNat
  n == 0x09 || n == 0x0A || n == 0x0D || (0x20 ≤ n && n ≤ 0x7E) || n == 0x85
    || (0xA0 ≤ n && n ≤ 0xD7FF) || (0xE000 ≤ n && n ≤ 0xFFFD) || (0x10000 ≤ n && n ≤ 0x10FFFF)

/-- Whether a text is at its end or starts with a space or a line break. -/
def atGap : List Char → Bool
  | [] => true
  | c :: _ => isSpace c || isBreak c

/-- Whether a text is at its end or starts with a line break. -/
def atLineEnd : List Char → Bool
  | [] => true
  | c :: _ => isBreak c

/-- Whether a text starts with `---` or `...` as a word of its own. -/
def atDocumentMarker : List Char → Bool
  | a :: b :: c :: rest => (a == '-' || a == '.') && a == b && b == c && atGap rest
  | _ => false

theorem atDocumentMarker_of_ne {c : Char} (hDash : c ≠ '-') (hPoint : c ≠ '.') (rest : List Char) :
    atDocumentMarker (c :: rest) = false := by
  unfold atDocumentMarker
  split
  · rename_i hEq
    obtain ⟨rfl, -⟩ := List.cons.inj hEq
    simp [hDash, hPoint]
  · rfl

/-! ## Cursors -/

/-- A position in a text and what is left from there. -/
structure Cursor where
  rest : List Char
  mark : Mark
  deriving Repr

namespace Cursor

/-- The start of a text. -/
def start (text : List Char) : Cursor := ⟨text, ⟨0, 0, 0⟩⟩

/-- The cursor behind `n` characters of one line. -/
def advance (cur : Cursor) (n : Nat) : Cursor :=
  ⟨cur.rest.drop n, cur.mark.advance (cur.rest.take n)⟩

/-- The cursor behind a line break. -/
def nextLine (cur : Cursor) : Cursor :=
  match cur.rest with
  | '\r' :: '\n' :: rest => ⟨rest, cur.mark.nextLine ['\r', '\n']⟩
  | c :: rest => ⟨rest, cur.mark.nextLine [c]⟩
  | [] => cur

/-- The characters of this line that satisfy a test, and the cursor behind them. -/
def span (cur : Cursor) (test : Char → Bool) : List Char × Cursor :=
  let taken := cur.rest.takeWhile test
  (taken, ⟨cur.rest.dropWhile test, cur.mark.advance taken⟩)

/-- The cursor behind the characters of this line that satisfy a test. -/
def skipWhile (cur : Cursor) (test : Char → Bool) : Cursor := (cur.span test).2

/-- The cursor behind spaces, and behind a comment that starts there. -/
def skipComment (cur : Cursor) : Cursor :=
  match cur.rest with
  | '#' :: _ => cur.skipWhile (!isBreak ·)
  | _ => cur

/-- The cursor behind the rest of a line that may hold a comment only, and behind its line break. -/
def endLine (cur : Cursor) (fault : Fault) : Except Fault Cursor :=
  let cur := (cur.skipWhile isSpace).skipComment
  if atLineEnd cur.rest then .ok cur.nextLine else .error fault

/-! ## Lemmas -/

@[simp] theorem advance_rest (cur : Cursor) (n : Nat) : (cur.advance n).rest = cur.rest.drop n := rfl

theorem nextLine_rest_length (cur : Cursor) (h : cur.rest ≠ []) :
    cur.nextLine.rest.length < cur.rest.length := by
  unfold nextLine
  split
  · rename_i heq; rw [heq]; simp only [List.length_cons]; omega
  · rename_i heq; rw [heq]; simp only [List.length_cons]; omega
  · contradiction

theorem span_append (cur : Cursor) (test : Char → Bool) :
    (cur.span test).1 ++ (cur.span test).2.rest = cur.rest := by
  simp [span]

end Cursor

end SnippetAudit.Yaml
