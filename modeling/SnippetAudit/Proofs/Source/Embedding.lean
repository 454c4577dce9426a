import SnippetAudit.CommandLine
import SnippetAudit.Proofs.Source.Blocks
import SnippetAudit.Proofs.Text.Lines
import SnippetAudit.Proofs.Text.Trim

/-!
# Writing a document into a source file

A document is written into a source file as a marker line and one comment line for each of
its lines: an indentation, the comment sign, one space and the line. Where the lines around
these are no comments, the file has one block at the marker line, and its document is the
one that was written.

Specification: `Row` is a line with what is put around it, `Embedding` a file that holds a
marker line and rows.

Results:
* `trim_line`, `documentText_line`: what is put around a line is taken off again.
* `lines_text`: the lines of the file are those around the block and those of the block.
* `isRun_embedding`: the rows and the marker line are one run of comment lines.
* `block_mem_ofText`, `eq_block_or_apart_of_mem_ofText`: the block that is written is there, and
  the others lie apart from it.
* `ofSource_embedding`: the block and its outcome at the marker line.
-/

namespace SnippetAudit

open Text

/-! ## Specification -/

/-- A sign or a marker: text on one line, without blanks at its ends. -/
structure IsWord (text : List Char) : Prop where
  ne_nil : text ≠ []
  no_feed : '\n' ∉ text
  startsBare : StartsBare text
  endsBare : EndsBare text

/-- How a line ends. -/
inductive LineEnd where
  | feed
  | returnFeed
  deriving DecidableEq, Repr

/-- The characters of a line end. -/
def LineEnd.text : LineEnd → List Char
  | .feed => ['\n']
  | .returnFeed => ['\r', '\n']

/-- A line of a document, with the indentation and the line end it gets in a source file. -/
structure Row where
  indent : List Char
  text : List Char
  ending : LineEnd
  indent_blank : isAllBlank indent = true
  indent_no_feed : '\n' ∉ indent
  text_no_feed : '\n' ∉ text
  text_endsBare : EndsBare text

/-- The comment line of a row, without its line end. -/
def Row.line (sign : List Char) (r : Row) : List Char := r.indent ++ (sign ++ ' ' :: r.text)

/-- The comment lines of rows. -/
def Row.writeAll (sign : List Char) (rows : List Row) : List Char :=
  rows.flatMap fun r => r.line sign ++ r.ending.text

/-- A source file with a marker line and the rows of a document behind it. The text before ends
    its last line, and the lines next to the marker line and the rows are no comments. -/
structure Embedding (sign marker : List Char) where
  before : List Char
  head : Row
  rows : List Row
  after : List Char
  head_text : head.text = marker
  before_ended : before = [] ∨ before.getLast? = some '\n'
  before_no_comment : ∀ line ∈ (lines before).getLast?, ¬ Block.IsComment sign line
  after_no_comment : ∀ line ∈ (lines after).head?, ¬ Block.IsComment sign line

namespace Embedding

variable {sign marker : List Char}

/-- The text of the file. -/
def text (e : Embedding sign marker) : List Char :=
  e.before ++ Row.writeAll sign (e.head :: e.rows) ++ e.after

/-- The index of the marker line. -/
def index (e : Embedding sign marker) : ℕ := (lines e.before).length

/-- The document that the rows stand for. -/
def document (e : Embedding sign marker) : List Char := unlines (e.rows.map (·.text))

/-- The block that the marker line opens. -/
def block (e : Embedding sign marker) (filename : Path) : Block :=
  ⟨filename, .ofIndex e.index, e.index + 1 + e.rows.length, e.document⟩

end Embedding

/-! ## One row -/

namespace Row

variable {sign : List Char}

/-- Trimming takes the indentation off, and the space where nothing stands behind it. -/
theorem trim_line (hSign : IsWord sign) (r : Row) :
    trim (r.line sign) = sign ++ (if r.text = [] then [] else ' ' :: r.text) := by
  have hStart : StartsBare (sign ++ ' ' :: r.text) := by
    intro c hc
    rw [List.head?_append_of_ne_nil _ hSign.ne_nil] at hc
    exact hSign.startsBare c hc
  rw [line, trim_blank_append r.indent_blank hStart]
  by_cases hText : r.text = []
  · rw [if_pos hText, hText, List.append_nil, trimEnd_append_blank (by decide)]
    exact trimEnd_eq_self hSign.endsBare
  · have hEnd : EndsBare (sign ++ ' ' :: r.text) := by
      intro c hc
      rw [List.getLast?_append_of_ne_nil _ (List.cons_ne_nil _ _),
        List.getLast?_cons_of_ne_nil hText] at hc
      exact r.text_endsBare c hc
    rw [if_neg hText]
    exact trimEnd_eq_self hEnd

theorem isComment_line (hSign : IsWord sign) (r : Row) : Block.IsComment sign (r.line sign) := by
  rw [Block.IsComment, trim_line hSign]
  exact List.prefix_append _ _

/-- What is put around a line is taken off again. -/
theorem documentText_line (hSign : IsWord sign) (r : Row) :
    Block.documentText sign (r.line sign) = r.text := by
  have hText : Block.commentText sign (r.line sign) =
      if r.text = [] then [] else ' ' :: r.text := by
    rw [Block.commentText, trim_line hSign, List.drop_left]
  rw [Block.documentText, hText]
  by_cases hNil : r.text = []
  · rw [if_pos hNil, hNil]
  · rw [if_neg hNil]
    rfl

theorem isMarkerLine_line {marker : List Char} (hSign : IsWord sign) (hMarker : IsWord marker)
    {r : Row} (h : r.text = marker) : Block.IsMarkerLine sign marker (r.line sign) := by
  refine ⟨isComment_line hSign r, ?_⟩
  have hNe : r.text ≠ [] := h ▸ hMarker.ne_nil
  rw [Block.commentText, trim_line hSign, List.drop_left, if_neg hNe, h,
    trimStart_cons, if_pos (by decide), trimStart_eq_self hMarker.startsBare]

theorem lineFeed_not_mem_line (hSign : IsWord sign) (r : Row) : '\n' ∉ r.line sign := by
  have hSpace : '\n' ≠ ' ' := by decide
  simp only [line, List.mem_append, List.mem_cons, not_or]
  exact ⟨r.indent_no_feed, hSign.no_feed, hSpace, r.text_no_feed⟩

/-- A comment line of a row does not end in a carriage return that could be taken for a part of
    the line end. -/
theorem getLast?_line (r : Row) : (r.line sign).getLast? ≠ some '\r' := by
  rw [line, List.getLast?_append_of_ne_nil _ (by simp),
    List.getLast?_append_of_ne_nil _ (List.cons_ne_nil _ _)]
  by_cases hText : r.text = []
  · rw [hText]
    decide
  · rw [List.getLast?_cons_of_ne_nil hText]
    intro hReturn
    have := r.text_endsBare _ hReturn
    exact absurd this (by decide)

end Row

/-! ## Outcomes at a line -/

/-- The outcomes at a line are those of the blocks at the line. -/
theorem Outcome.filter_ofSource_line? [Yaml.Wording] (config : Config) (filename : Path)
    (text : List Char) (line : ℕ) :
    (ofSource config filename text).filter (·.line? == some line) =
      ((Block.ofText config filename text).filter (·.location.line == line)).map ofBlock := by
  have hLine : ((fun o : Outcome => o.line? == some line) ∘ ofBlock) =
      fun b : Block => b.location.line == line := by
    funext b
    rw [Function.comp_apply, line?, location_ofBlock, Option.map_some, Option.some_beq_some]
  rw [ofSource, List.filter_map, hLine]

/-! ## The lines of the file -/

namespace Row

variable {sign : List Char}

theorem lines_line (hSign : IsWord sign) (r : Row) (rest : List Char) :
    lines (r.line sign ++ r.ending.text ++ rest) = r.line sign :: lines rest := by
  have hFeed := lineFeed_not_mem_line hSign r
  rw [List.append_assoc]
  cases r.ending with
  | feed => exact lines_line_append hFeed (getLast?_line r)
  | returnFeed => exact lines_line_return_append hFeed

theorem lines_writeAll (hSign : IsWord sign) (rows : List Row) (rest : List Char) :
    lines (writeAll sign rows ++ rest) = rows.map (·.line sign) ++ lines rest := by
  induction rows with
  | nil => rfl
  | cons r rows ih =>
    rw [writeAll, List.flatMap_cons, List.append_assoc, lines_line hSign, ← writeAll, ih,
      List.map_cons, List.cons_append]

end Row

namespace Embedding

variable {sign marker : List Char}

/-- The lines of the file are those around the block and those of the block. -/
theorem lines_text (hSign : IsWord sign) (e : Embedding sign marker) :
    lines e.text = lines e.before ++ ((e.head :: e.rows).map (·.line sign) ++ lines e.after) := by
  rw [text, List.append_assoc, lines_ended_append _ e.before_ended, Row.lines_writeAll hSign]

/-- The lines of the block stand behind those of the text before. -/
theorem getElem?_row (hSign : IsWord sign) (e : Embedding sign marker) {i : ℕ}
    (h : i ≤ e.rows.length) :
    ∃ r, (lines e.text)[e.index + i]? = some (r.line sign) ∧ (i = 0 → r = e.head) := by
  have hLt : i < (e.head :: e.rows).length := Nat.lt_succ_of_le h
  refine ⟨(e.head :: e.rows)[i], ?_, ?_⟩
  · rw [lines_text hSign, index, List.getElem?_append_right (Nat.le_add_right _ _),
      Nat.add_sub_cancel_left, List.getElem?_append_left (by simpa using hLt), List.getElem?_map,
      List.getElem?_eq_getElem hLt, Option.map_some]
  · rintro rfl
    rfl

/-- The document at the rows is the one that was written. -/
theorem documentOf_rows (hSign : IsWord sign) (e : Embedding sign marker) :
    Block.documentOf sign (lines e.text) (e.index + 1) e.rows.length = e.document := by
  have hDrop : (lines e.text).drop (e.index + 1) =
      e.rows.map (·.line sign) ++ lines e.after := by
    rw [lines_text hSign, index, List.drop_append, List.drop_eq_nil_of_le (Nat.le_succ _),
      Nat.add_sub_cancel_left]
    rfl
  have hTake : (e.rows.map (·.line sign) ++ lines e.after).take e.rows.length =
      e.rows.map (·.line sign) := by
    rw [← List.length_map (f := (·.line sign)), List.take_left]
  rw [Block.documentOf, hDrop, hTake, document, unlines, List.flatMap_map, List.flatMap_map]
  congr 1
  funext r
  rw [Row.documentText_line hSign]

/-! ## The run -/

/-- The marker line and the rows are one run of comment lines. -/
theorem isRun_embedding (hSign : IsWord sign) (e : Embedding sign marker) :
    Block.IsRun sign (lines e.text) e.index (e.index + e.rows.length) := by
  refine ⟨Nat.le_add_right _ _, ?_, ?_, ?_⟩
  · intro n hFirst hLast
    obtain ⟨r, hLine, _⟩ := e.getElem?_row hSign (i := n - e.index) (by omega)
    rw [Nat.add_sub_cancel' hFirst] at hLine
    exact ⟨_, hLine, Row.isComment_line hSign r⟩
  · rintro n hNext ⟨line, hLine, hComment⟩
    refine e.before_no_comment line ?_ hComment
    rw [index] at hNext
    rw [lines_text hSign, List.getElem?_append_left (by omega)] at hLine
    rw [List.getLast?_eq_getElem?, ← hNext, Nat.add_sub_cancel]
    exact hLine
  · rintro ⟨line, hLine, hComment⟩
    refine e.after_no_comment line ?_ hComment
    rw [lines_text hSign, index, List.getElem?_append_right (by omega),
      List.getElem?_append_right (by simp; omega)] at hLine
    rw [List.head?_eq_getElem?, Option.mem_def, ← hLine]
    congr 1
    simp only [List.length_map, List.length_cons]
    omega

theorem markerAt_embedding (hSign : IsWord sign) (hMarker : IsWord marker)
    (e : Embedding sign marker) : Block.MarkerAt sign marker (lines e.text) e.index := by
  obtain ⟨r, hLine, hHead⟩ := e.getElem?_row hSign (Nat.zero_le _)
  rw [hHead rfl] at hLine
  exact ⟨_, hLine, Row.isMarkerLine_line hSign hMarker e.head_text⟩

/-! ## The block -/

/-- A block of the file is the one at the marker line, or it lies before or behind all of it. -/
theorem eq_block_or_apart (hSign : IsWord sign) (hMarker : IsWord marker)
    (e : Embedding sign marker) {filename : Path} {r : ℕ × ℕ} {b : Block}
    (hRun : Block.IsRun sign (lines e.text) r.1 r.2)
    (hBlock : Block.IsBlockOf sign marker filename (lines e.text) r b) :
    b = e.block filename ∨ b.endLine < e.index + 1 ∨ e.index + 1 + e.rows.length < b.location.line := by
  by_contra hNot
  simp only [not_or, Nat.not_lt] at hNot
  obtain ⟨hNe, hAfter, hBefore⟩ := hNot
  have hFirst := hBlock.first_le
  have hLast := hBlock.le_last
  have hEnd := hBlock.endLine_eq
  -- the later one of the two first lines is in both runs
  obtain ⟨hSameFirst, hSameLast⟩ := hRun.unique (e.isRun_embedding hSign)
    (n := max e.index (b.location.line - 1)) (by omega) (by omega)
  have hLine : b.location.line = e.index + 1 := by
    by_contra hLater
    exact hBlock.first_marker e.index (by omega) (by omega) (e.markerAt_embedding hSign hMarker)
  apply hNe
  have hText : b.rawText = e.document := by
    rw [hBlock.rawText_eq, ← e.documentOf_rows hSign, hLine]
    congr 1
    omega
  obtain ⟨_, location, endLine, _⟩ := b
  have hLocation : location = .ofIndex e.index := Location.ext_line hLine
  have hEndLine : endLine = e.index + 1 + e.rows.length := by
    simp only at hEnd
    omega
  rw [block, ← hBlock.filename_eq, ← hLocation, ← hEndLine, ← hText]

section Config

variable {config : Config} (e : Embedding config.commentPrefix.toList config.marker.toList)
  (hSign : IsWord config.commentPrefix.toList) (hMarker : IsWord config.marker.toList)
include hSign hMarker

theorem eq_block_or_apart_of_mem_ofText {filename : Path} {b : Block}
    (hb : b ∈ Block.ofText config filename e.text) :
    b = e.block filename ∨ b.endLine < e.index + 1 ∨ e.index + 1 + e.rows.length < b.location.line := by
  obtain ⟨r, hr, hBlock⟩ := exists_mem_of_forall₂ (Block.isBlockOf_ofText config filename e.text) hb
  exact e.eq_block_or_apart hSign hMarker (Block.mem_openingRuns_iff.mp hr).1 hBlock

/-- The run of the marker line opens a block, and that one lies neither before nor behind it. -/
theorem block_mem_ofText (filename : Path) :
    e.block filename ∈ Block.ofText config filename e.text := by
  have hRun := e.isRun_embedding hSign
  obtain ⟨b, hb, hBlock⟩ :=
    exists_mem_right_of_forall₂ (Block.isBlockOf_ofText config filename e.text)
      (Block.mem_openingRuns_iff (r := (e.index, e.index + e.rows.length)).mpr
        ⟨hRun, e.index, le_rfl, hRun.le, e.markerAt_embedding hSign hMarker⟩)
  rcases e.eq_block_or_apart_of_mem_ofText hSign hMarker hb with rfl | hBefore | hBehind
  · exact hb
  · have hEnd := hBlock.endLine_eq
    simp only at hEnd
    omega
  · have hLast := hBlock.le_last
    simp only at hLast
    omega

end Config

/-- A file that a document is written into has one block at the marker line, which holds the
    document, and its other blocks lie outside the lines that were written. The outcome at the
    marker line has no finding iff metadata is read from the document. -/
theorem ofSource_embedding [Yaml.Wording] (config : Config) (filename : Path)
    (e : Embedding config.commentPrefix.toList config.marker.toList)
    (hSign : IsWord config.commentPrefix.toList) (hMarker : IsWord config.marker.toList) :
    let line := e.index + 1
    let blocks := Block.ofText config filename e.text
    blocks.filter (·.location.line == line) = [e.block filename] ∧
    (∀ b ∈ blocks, b = e.block filename ∨ b.endLine < line ∨
      line + e.rows.length < b.location.line) ∧
    ∃ o, (Outcome.ofSource config filename e.text).filter (·.line? == some line) = [o] ∧
      o.rawText = e.document ∧ (o.findings = [] ↔ ∃ m, Metadata.ofText e.document = .ok m) := by
  intro line blocks
  have hOne : blocks.filter (·.location.line == line) = [e.block filename] :=
    filter_eq_singleton_of_pairwise (f := fun b : Block => b.location.line)
      (Block.pairwise_line_ofText config filename e.text) (e.block_mem_ofText hSign hMarker filename)
  refine ⟨hOne, fun b hb => e.eq_block_or_apart_of_mem_ofText hSign hMarker hb,
    Outcome.ofBlock (e.block filename), ?_, Outcome.rawText_ofBlock _, ?_⟩
  · rw [Outcome.filter_ofSource_line?]
    exact congrArg (List.map Outcome.ofBlock) hOne
  · rw [← List.isEmpty_iff]
    exact Outcome.passed_ofBlock_iff

/-! ## A document between other lines -/

def slashes : Config := { Config.default with commentPrefix := "//", marker := "META" }

/-- A document with a line that looks like a marker, an empty line and a line with a carriage return
    inside that starts with the comment sign, between two other blocks. -/
def surrounded : Embedding slashes.commentPrefix.toList slashes.marker.toList where
  before := "// META\r\n// title: a\nx\n".toList
  head := ⟨['\t'], slashes.marker.toList, .returnFeed, by decide, by decide, by decide, by decide⟩
  rows := [
    ⟨[], "  // META".toList, .feed, by decide, by decide, by decide, by decide⟩,
    ⟨['\r', ' '], [], .returnFeed, by decide, by decide, by decide, by decide⟩,
    ⟨[], "//\ta\rb".toList, .returnFeed, by decide, by decide, by decide, by decide⟩]
  after := "\n// META".toList
  head_text := rfl
  before_ended := by decide
  before_no_comment := by decide
  after_no_comment := by decide

theorem ofSource_surrounded :
    IsWord slashes.commentPrefix.toList ∧ IsWord slashes.marker.toList ∧
    surrounded.text = ("// META\r\n// title: a\nx\n" ++
      "\t// META\r\n//   // META\n\r // \r\n// //\ta\rb\r\n" ++ "\n// META").toList ∧
    (Block.ofText slashes ⟨[]⟩ surrounded.text).filter (·.location.line == 4) =
      [⟨⟨[]⟩, .ofIndex 3, 7, "  // META\n\n//\ta\rb\n".toList⟩] ∧
    ∃ o, (Outcome.ofSource slashes ⟨[]⟩ surrounded.text).filter (·.line? == some 4) = [o] ∧
      (o.findings = [] ↔ ∃ m, Metadata.ofText surrounded.document = .ok m) := by
  have hSign : IsWord slashes.commentPrefix.toList := ⟨by decide, by decide, by decide, by decide⟩
  have hMarker : IsWord slashes.marker.toList := ⟨by decide, by decide, by decide, by decide⟩
  obtain ⟨hOne, _, o, hOutcome, _, hFindings⟩ :=
    ofSource_embedding slashes ⟨[]⟩ surrounded hSign hMarker
  exact ⟨hSign, hMarker, by decide +kernel, hOne, o, hOutcome, hFindings⟩

end Embedding

end SnippetAudit
