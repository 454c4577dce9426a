import SnippetAudit.Yaml.ScalarText
import SnippetAudit.Yaml.Word

/-!
# Tokens of a text

A text is cut into tokens from its front. Two things make the tokens of a line depend on
more than the characters at hand.

*Indentation.* A line that starts further right than the block around it opens a block,
one that starts further left closes blocks. In flow collections indentation has no meaning.

*Implicit keys.* A node is a key when a `:` follows it on the same line and within 1024
bytes. Tokens that such a key may start with are therefore held back, and the key
token is put before them when the `:` is met. A key that has to be one, because it stands
where a block's line starts, and is not followed by `:` makes the text faulty.

`Token.ofText` lists the tokens that can be handed on, and the fault that ends them early.

Results:
* `closeBlocks_flow`: indentation closes no block inside a flow collection.
-/

namespace SnippetAudit.Yaml

/-- A place where an implicit key may have started: the number of its first token. A required key
    stands where a line of a block starts. -/
structure KeyStart where
  number : Nat
  mark : Mark
  required : Bool
  deriving DecidableEq, Repr

/-- Whether a key that started at `k` can no longer be followed by its `:` at `m`. -/
def KeyStart.isStale (k : KeyStart) (m : Mark) : Bool :=
  k.mark.line < m.line || k.mark.index + 1024 < m.index

/-- The state between two tokens. -/
structure TokenQueue where
  /-- A number of steps that is enough for what is left of the text. -/
  fuel : Nat
  /-- What is left of the text. -/
  cursor : Cursor
  /-- Tokens that are held back, the next one first. -/
  queue : List Token
  /-- How many tokens were handed on. -/
  handed : Nat
  /-- The columns of the open blocks, innermost first. -/
  blocks : List Nat
  /-- Where a key may have started, for each flow collection and for the block around them, innermost
      first. -/
  keys : List (Option KeyStart)
  /-- Whether a key may start here. -/
  keyAllowed : Bool
  deriving Repr

namespace TokenQueue

/-- The state at the start of a text. -/
def start (text : List Char) : TokenQueue :=
  ⟨text.length + 1, .start text, [], 0, [], [none], true⟩

/-- Whether the position is inside a flow collection. -/
def inFlow (s : TokenQueue) : Bool := 1 < s.keys.length

/-- The column at which the next line of the block around the position would be inside it. -/
def nextIndent (s : TokenQueue) : Nat :=
  match s.blocks with
  | column :: _ => column + 1
  | [] => 0

/-- Adds a token at the end of the queue. -/
def push (s : TokenQueue) (kind : Token.Kind) (start stop : Mark) : TokenQueue :=
  { s with queue := s.queue ++ [⟨kind, start, stop⟩] }

/-- Adds an empty token before the token with a number. -/
def insertBefore (s : TokenQueue) (number : Nat) (kind : Token.Kind) (mark : Mark) : TokenQueue :=
  let place := number - s.handed
  { s with queue := s.queue.take place ++ ⟨kind, mark, mark⟩ :: s.queue.drop place }

/-! ## Implicit keys -/

/-- Gives up one key start: a required key must not be given up. -/
def giveUp (keep : KeyStart → Bool) : Option KeyStart → Except Fault (Option KeyStart)
  | none => .ok none
  | some k => if keep k then .ok (some k) else if k.required then .error .keyWithoutColon else .ok none

/-- Gives up the keys that are too far back. -/
def dropStaleKeys (s : TokenQueue) : Except Fault TokenQueue := do
  let keys ← s.keys.mapM (giveUp fun k => !k.isStale s.cursor.mark)
  return { s with keys }

/-- Gives up the key of the innermost collection. -/
def dropKey (s : TokenQueue) : Except Fault TokenQueue :=
  match s.keys with
  | [] => .ok s
  | k :: outer => do
    let k ← giveUp (fun _ => false) k
    return { s with keys := k :: outer }

/-- Notes that a key may start with the next token. -/
def saveKey (s : TokenQueue) : Except Fault TokenQueue :=
  if s.keyAllowed then do
    let s ← s.dropKey
    let required := !s.inFlow && s.blocks.head? == some s.cursor.mark.column
    let k : KeyStart := ⟨s.handed + s.queue.length, s.cursor.mark, required⟩
    return { s with keys := some k :: s.keys.tail }
  else .ok s

/-! ## Blocks -/

/-- Opens a block at a column, if that lies further right than the block around it. Its token goes
    before the token with the number `before`, or at the end. -/
def openBlock (s : TokenQueue) (column : Nat) (before : Option Nat) (kind : Token.Kind) (mark : Mark) :
    TokenQueue :=
  if s.inFlow || s.blocks.head?.any (column ≤ ·) then s
  else
    let s := { s with blocks := column :: s.blocks }
    match before with
    | some number => s.insertBefore number kind mark
    | none => s.push kind mark mark

/-- Closes the blocks that lie further right than a column; all of them where there is none. -/
def closeBlocks (s : TokenQueue) (column : Option Nat) : TokenQueue :=
  if s.inFlow then s
  else
    let closed := s.blocks.takeWhile fun block => column.all (· < block)
    let mark := s.cursor.mark
    { s with
      blocks := s.blocks.drop closed.length
      queue := s.queue ++ closed.map fun _ => ⟨.blockEnd, mark, mark⟩ }

/-! ## Separation -/

/-- Skips white space and comments before the next token, through at most `fuel` lines. A tab separates
    tokens only where no key can start; a new line of a block may start with a key. -/
def skipSeparation : Nat → TokenQueue → TokenQueue
  | 0, s => s
  | fuel + 1, s =>
    let cur := if s.cursor.mark.column = 0 && s.cursor.rest.head? == some '\uFEFF'
      then s.cursor.advance 1 else s.cursor
    let tabs := s.inFlow || !s.keyAllowed
    let cur := (cur.skipWhile fun c => c == ' ' || (tabs && c == '\t')).skipComment
    if cur.rest.head?.any isBreak then
      skipSeparation fuel
        { s with cursor := cur.nextLine, keyAllowed := s.keyAllowed || !s.inFlow }
    else { s with cursor := cur }

/-! ## Tokens -/

/-- Moves the cursor behind a token of `n` characters of one line and adds the token. -/
def takeIndicator (s : TokenQueue) (kind : Token.Kind) (n : Nat) : TokenQueue :=
  let after := s.cursor.advance n
  { s with cursor := after }.push kind s.cursor.mark after.mark

/-- The end of the text closes all blocks. -/
def readEnd (s : TokenQueue) : Except Fault TokenQueue := do
  let mark := s.cursor.mark
  let mark := if mark.column = 0 then mark else ⟨mark.index, mark.line + 1, 0⟩
  let s ← ({ s with cursor := { s.cursor with mark } }.closeBlocks none).dropKey
  return { s with keyAllowed := false }.push .streamEnd mark mark

/-- A directive, on a line of its own. -/
def readDirective (s : TokenQueue) : Except Fault TokenQueue := do
  let s ← (s.closeBlocks none).dropKey
  let start := s.cursor.mark
  let (kind, stop, cursor) ← Word.readDirective s.cursor
  return { s with cursor, keyAllowed := false }.push kind start stop

/-- The start or the end of a document. -/
def readDocumentMarker (s : TokenQueue) (kind : Token.Kind) : Except Fault TokenQueue := do
  let s ← (s.closeBlocks none).dropKey
  return { s with keyAllowed := false }.takeIndicator kind 3

/-- The start of a flow collection, which may be a key. -/
def readOpen (s : TokenQueue) (kind : Token.Kind) : Except Fault TokenQueue := do
  let s ← s.saveKey
  return { s with keys := none :: s.keys, keyAllowed := true }.takeIndicator kind 1

/-- The end of a flow collection. -/
def readClose (s : TokenQueue) (kind : Token.Kind) : Except Fault TokenQueue := do
  let s ← s.dropKey
  let keys := if s.inFlow then s.keys.tail else s.keys
  return { s with keys, keyAllowed := false }.takeIndicator kind 1

/-- The comma of a flow collection. -/
def readSeparator (s : TokenQueue) : Except Fault TokenQueue := do
  let s ← s.dropKey
  return { s with keyAllowed := true }.takeIndicator .separator 1

/-- The dash of a sequence entry, which may open a block. -/
def readEntry (s : TokenQueue) : Except Fault TokenQueue := do
  if !s.inFlow && !s.keyAllowed then throw .context
  let s ← (s.openBlock s.cursor.mark.column none .blockSequence s.cursor.mark).dropKey
  return { s with keyAllowed := true }.takeIndicator .entry 1

/-- The sign of an explicit key, which may open a block. -/
def readKey (s : TokenQueue) : Except Fault TokenQueue := do
  if !s.inFlow && !s.keyAllowed then throw .context
  let s ← (s.openBlock s.cursor.mark.column none .blockMapping s.cursor.mark).dropKey
  return { s with keyAllowed := !s.inFlow }.takeIndicator .key 1

/-- The colon of a value. A key that may have started before it is one; its key token, and the token
    of the block that it opens, go before it. -/
def readValue (s : TokenQueue) : Except Fault TokenQueue :=
  match s.keys with
  | some k :: outer =>
    let s := s.insertBefore k.number .key k.mark
    let s := s.openBlock k.mark.column (some k.number) .blockMapping k.mark
    .ok ({ s with keys := none :: outer, keyAllowed := false }.takeIndicator .value 1)
  | _ =>
    if !s.inFlow && !s.keyAllowed then .error .context
    else
      let s := s.openBlock s.cursor.mark.column none .blockMapping s.cursor.mark
      .ok ({ s with keyAllowed := !s.inFlow }.takeIndicator .value 1)

/-- An anchor or an alias, with which a key may start. -/
def readAnchor (s : TokenQueue) (kind : List Char → Token.Kind) : Except Fault TokenQueue := do
  let s ← s.saveKey
  let start := s.cursor.mark
  let (name, cursor) ← Word.readAnchor s.cursor
  return { s with cursor, keyAllowed := false }.push (kind name) start cursor.mark

/-- A tag, with which a key may start. -/
def readTag (s : TokenQueue) : Except Fault TokenQueue := do
  let s ← s.saveKey
  let start := s.cursor.mark
  let (word, cursor) ← Word.readTag s.inFlow s.cursor
  return { s with cursor, keyAllowed := false }.push (.tag word) start cursor.mark

/-- A block scalar, which is no key. -/
def readBlockScalar (s : TokenQueue) (folded : Bool) : Except Fault TokenQueue := do
  let s ← s.dropKey
  let start := s.cursor.mark
  let (text, cursor) ← Scalar.readBlock folded s.blocks.head? s.fuel s.cursor
  return { s with cursor, keyAllowed := true }.push (.scalar text false) start cursor.mark

/-- A quoted scalar, which may be a key. -/
def readQuoted (s : TokenQueue) (double : Bool) : Except Fault TokenQueue := do
  let s ← s.saveKey
  let start := s.cursor.mark
  let (text, cursor) ← Scalar.readQuoted double s.fuel s.cursor
  return { s with cursor, keyAllowed := false }.push (.scalar text false) start cursor.mark

/-- A plain scalar, which may be a key. Behind a line break that ends it a key may start. -/
def readPlain (s : TokenQueue) : Except Fault TokenQueue := do
  let s ← s.saveKey
  let start := s.cursor.mark
  let plain ← Scalar.readPlain s.inFlow s.nextIndent s.fuel s.cursor
  return { s with cursor := plain.after, keyAllowed := plain.broken }.push (.scalar plain.text true)
    start plain.stop

/-- Whether a text starts with a plain scalar, where no other token starts. -/
def startsPlain (inFlow : Bool) : List Char → Bool
  | [] => false
  | c :: rest =>
    if isSpace c || isBreak c then false
    else if c = '-' then !rest.head?.any isSpace
    else if c = '?' ∨ c = ':' then !inFlow && !atGap rest
    else !",[]\x7b\x7d#&*!|>'\"%@\x60".toList.contains c

/-- Reads the next token of a text. -/
def readToken (s : TokenQueue) : Except Fault TokenQueue := do
  let s ← (s.skipSeparation s.fuel).dropStaleKeys
  let s := s.closeBlocks (some s.cursor.mark.column)
  let first := s.cursor.mark.column = 0
  match s.cursor.rest with
  | [] => s.readEnd
  | c :: rest =>
    let marker := first && atDocumentMarker (c :: rest)
    if first && c == '%' then s.readDirective
    else if marker && c == '-' then s.readDocumentMarker .documentStart
    else if marker then s.readDocumentMarker .documentEnd
    else if c = '[' then s.readOpen .openSequence
    else if c = '\x7b' then s.readOpen .openMapping
    else if c = ']' then s.readClose .closeSequence
    else if c = '\x7d' then s.readClose .closeMapping
    else if c = ',' then s.readSeparator
    else if c = '-' ∧ atGap rest then s.readEntry
    else if c = '?' ∧ (s.inFlow ∨ atGap rest) then s.readKey
    else if c = ':' ∧ (s.inFlow ∨ atGap rest) then s.readValue
    else if c = '*' then s.readAnchor .alias
    else if c = '&' then s.readAnchor .anchor
    else if c = '!' then s.readTag
    else if c = '|' ∧ !s.inFlow then s.readBlockScalar false
    else if c = '>' ∧ !s.inFlow then s.readBlockScalar true
    else if c = '\'' then s.readQuoted false
    else if c = '"' then s.readQuoted true
    else if startsPlain s.inFlow (c :: rest) then s.readPlain
    else throw .indicator

/-- Whether the next token may turn out to belong to a key. -/
def isHeldBack (s : TokenQueue) : Bool := s.keys.any fun k => k.any (·.number == s.handed)

/-- Hands on the next token; where that cannot be done yet, reads one more. -/
def next (s : TokenQueue) : Except Fault (Option Token × TokenQueue) :=
  match s.queue with
  | [] => s.readToken.map (none, ·)
  | token :: queue => do
    let s ← s.dropStaleKeys
    if s.isHeldBack then s.readToken.map (none, ·)
    else return (some token, { s with queue, handed := s.handed + 1 })

/-- Hands on tokens to the end of the text or to a fault, in at most `fuel` steps. -/
def run : Nat → TokenQueue → List Token × Option Fault
  | 0, _ => ([], some .unfinished)
  | fuel + 1, s =>
    match s.next with
    | .error fault => ([], some fault)
    | .ok (none, s) => run fuel s
    | .ok (some token, s) =>
      if token.kind = .streamEnd then ([token], none)
      else
        let (tokens, fault) := run fuel s
        (token :: tokens, fault)

/-! ## Lemmas -/

theorem closeBlocks_flow {s : TokenQueue} (h : s.inFlow = true) (column : Option Nat) :
    s.closeBlocks column = s := by
  simp [closeBlocks, h]

end TokenQueue

/-! ## Texts -/

namespace Token

/-- The number of bytes of the pieces in which a text is looked at. -/
def pieceSize : Nat := 16384

/-- A text up to the first piece with a character that no document may hold, behind the start of a piece,
    which is given in reverse with its number of bytes. -/
def readable (size : Nat) (piece : List Char) : List Char → List Char
  | [] => piece.reverse
  | c :: rest =>
    let isFull := pieceSize < size + c.utf8Size
    if isAllowed c then
      if isFull then piece.reverse ++ readable c.utf8Size [c] rest
      else readable (size + c.utf8Size) (c :: piece) rest
    else if isFull then piece.reverse
    else []

/-- How many bytes behind a token are looked at before it is handed on. -/
def lookahead : Nat := 4

/-- The tokens of a text, and the fault that ends them early. A character that no document may hold spoils
    the whole piece of the text that it stands in. -/
def ofText (text : List Char) : List Token × Option Fault :=
  if text.all isAllowed then (TokenQueue.start text).run (6 * (text.length + 4))
  else
    let text := readable 0 [] text
    let (tokens, _) := (TokenQueue.start text).run (6 * (text.length + 4))
    (tokens.takeWhile fun token => token.stop.index + lookahead ≤ byteCount text, some .character)

end Token

end SnippetAudit.Yaml
