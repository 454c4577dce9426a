import SnippetAudit.Config
import SnippetAudit.Path
import SnippetAudit.Source.Comment
import SnippetAudit.Source.Location

/-!
# Metadata blocks

`extract_blocks` goes through the comment lines of a file with one cursor. The outer loop looks for
a comment that starts, after blanks, with the marker. Behind it the inner loop takes comments as
long as each stands on the next line; they are the lines of the block's document. Then the outer
loop goes on where the inner one has stopped.

The cursor is the list of the comments that are left.

Results:
* `length_follow_le`: the inner loop leaves no more comments than it was given.
* `ofComments_cons_of_marker`, `ofComments_cons_of_not_marker`: one turn of the outer loop.
-/

namespace SnippetAudit

open Text

/-- A block of metadata in a source file (`MetadataBlock`). -/
structure Block where
  /-- The file that holds the block. -/
  filename : Path
  /-- The line of the marker. -/
  location : Location
  /-- The last line of the block. -/
  endLine : Nat
  /-- The document: the comments behind the marker, each ended by a line feed. -/
  rawText : List Char
  deriving DecidableEq, Repr

namespace Block

/-- Whether a comment opens a block (`is_marker`). -/
def isMarker (marker : List Char) (c : Comment) : Bool := marker.isPrefixOf (trimStart c.value)

/-- The line of a document that a comment stands for: one leading space is not part of it. -/
def documentLine (c : Comment) : List Char :=
  match c.value with
  | ' ' :: rest => rest
  | value => value

/-- The inner loop of `extract_blocks` on the index of the last line taken, the document so far, and
    the comments that are left: it takes a comment if it stands on the next line, and stops at the
    first that does not. -/
def follow (last : Nat) (rawText : List Char) : List Comment → Nat × List Char × List Comment
  | [] => (last, rawText, [])
  | next :: rest =>
    if next.index = last + 1 then follow next.index (rawText ++ documentLine next ++ ['\n']) rest
    else (last, rawText, next :: rest)

theorem length_follow_le (last : Nat) (rawText : List Char) (comments : List Comment) :
    (follow last rawText comments).2.2.length ≤ comments.length := by
  induction comments generalizing last rawText with
  | nil => simp [follow]
  | cons next rest ih =>
    rw [follow]
    split
    · exact Nat.le_succ_of_le (ih ..)
    · exact Nat.le_refl _

/-- The outer loop of `extract_blocks` on the comments that are left: a comment without the marker is
    passed over, and behind one with the marker the inner loop runs and decides where to go on. -/
def ofComments (filename : Path) (marker : List Char) : List Comment → List Block
  | [] => []
  | head :: rest =>
    if isMarker marker head then
      let found := follow head.index [] rest
      { filename, location := .ofIndex head.index, endLine := found.1 + 1, rawText := found.2.1 } ::
        ofComments filename marker found.2.2
    else ofComments filename marker rest
termination_by comments => comments.length
decreasing_by
  · exact Nat.lt_succ_of_le (length_follow_le ..)
  · exact Nat.lt_succ_self _

/-- The metadata blocks of a file, in order (`extract_blocks`). -/
def ofText (config : Config) (filename : Path) (text : List Char) : List Block :=
  ofComments filename config.marker.toList (Comment.ofText config.commentPrefix.toList text)

/-- The first and the last line of a block (`MetadataBlock::span`). -/
def span (b : Block) : Nat × Nat := (b.location.line, b.endLine)

/-! ## Lemmas -/

@[simp] theorem ofComments_nil (filename : Path) (marker : List Char) :
    ofComments filename marker [] = [] := by
  rw [ofComments]

theorem ofComments_cons_of_marker {filename : Path} {marker : List Char} {head : Comment}
    (rest : List Comment) (h : isMarker marker head = true) :
    ofComments filename marker (head :: rest) =
      ⟨filename, .ofIndex head.index, (follow head.index [] rest).1 + 1,
          (follow head.index [] rest).2.1⟩ ::
        ofComments filename marker (follow head.index [] rest).2.2 := by
  rw [ofComments, if_pos h]

theorem ofComments_cons_of_not_marker {filename : Path} {marker : List Char} {head : Comment}
    (rest : List Comment) (h : isMarker marker head = false) :
    ofComments filename marker (head :: rest) = ofComments filename marker rest := by
  rw [ofComments, h, if_neg Bool.false_ne_true]

end Block

end SnippetAudit
