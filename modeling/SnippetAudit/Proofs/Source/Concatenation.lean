import SnippetAudit.CommandLine
import SnippetAudit.Proofs.Source.Runs
import SnippetAudit.Proofs.Text.Lines

/-!
# Concatenation of source files

A source file can be checked in pieces. It may be cut behind any line, but not between two comment
lines: the outcomes of the whole are those of the pieces, with line numbers that count from the
start of the whole.

Results:
* `ofLines_append`, `ofLines_add`: the comments of a list of lines, cut anywhere.
* `runs_moveDown`, `ofRun?_moveDown`: what is made of comments does not depend on where they stand.
* `ofText_append`: the blocks of two pieces.
* `ofSource_append`: the outcomes of two pieces.
-/

namespace SnippetAudit

open Text

/-! ## Places further down -/

/-- The comment `n` lines further down. -/
def Comment.moveDown (n : ℕ) (c : Comment) : Comment := { c with index := n + c.index }

/-- The location `n` lines further down. -/
def Location.moveDown (n : ℕ) (l : Location) : Location := ⟨n + l.line, Nat.add_pos_right n l.line_pos⟩

/-- The block `n` lines further down. -/
def Block.moveDown (n : ℕ) (b : Block) : Block :=
  { b with location := b.location.moveDown n, endLine := n + b.endLine }

/-- The outcome `n` lines further down. -/
def Outcome.moveDown (n : ℕ) (o : Outcome) : Outcome :=
  { o with location := o.location.map (·.moveDown n) }

/-! ## Comments -/

namespace Comment

theorem ofLines_append (sign : List Char) (i : ℕ) (ls ls' : List (List Char)) :
    ofLines sign i (ls ++ ls') = ofLines sign i ls ++ ofLines sign (i + ls.length) ls' := by
  induction ls generalizing i with
  | nil => rfl
  | cons line ls ih =>
    have hIndex : i + (line :: ls).length = i + 1 + ls.length := by
      rw [List.length_cons]
      omega
    rw [List.cons_append, ofLines, ofLines, ih (i + 1), hIndex]
    cases value? sign line <;> rfl

theorem ofLines_add (sign : List Char) (n i : ℕ) (ls : List (List Char)) :
    ofLines sign (n + i) ls = (ofLines sign i ls).map (moveDown n) := by
  induction ls generalizing i with
  | nil => rfl
  | cons line ls ih =>
    rw [ofLines, ofLines, Nat.add_assoc n i 1, ih (i + 1)]
    cases value? sign line <;> rfl

end Comment

namespace Block

/-! ## Runs -/

/-- Comments are cut into runs in the same way wherever they stand. -/
theorem runs_moveDown (n : ℕ) (comments : List Comment) :
    runs (comments.map (Comment.moveDown n)) = (runs comments).map (List.map (Comment.moveDown n)) := by
  have hNext (a b : Comment) : ((Comment.moveDown n b).index == (Comment.moveDown n a).index + 1) =
      (b.index == a.index + 1) := by
    simp only [Comment.moveDown, Nat.add_assoc, Nat.add_left_cancel_iff, Bool.beq_eq_decide_eq]
  unfold runs
  rw [List.splitBy_eq_iff]
  refine ⟨?_, ?_, ?_, ?_⟩
  · rw [← List.map_flatten, List.flatten_splitBy]
  · intro hNil
    obtain ⟨run, hRun, hEmpty⟩ := List.mem_map.mp hNil
    rw [List.map_eq_nil_iff.mp hEmpty] at hRun
    exact List.nil_notMem_splitBy _ _ hRun
  · intro moved hMoved
    obtain ⟨run, hRun, rfl⟩ := List.mem_map.mp hMoved
    rw [List.isChain_map]
    simp only [hNext]
    exact List.isChain_of_mem_splitBy hRun
  · rw [List.isChain_map]
    refine (List.isChain_getLast_head_splitBy _ comments).imp ?_
    rintro run run' ⟨hNe, hNe', hBreak⟩
    refine ⟨by simpa using hNe, by simpa using hNe', ?_⟩
    rw [List.getLast_map, List.head_map, hNext]
    exact hBreak

/-- A run opens the same block wherever it stands. -/
theorem ofRun?_moveDown (filename : Path) (marker : List Char) (n : ℕ) (run : List Comment) :
    ofRun? filename marker (run.map (Comment.moveDown n)) =
      (ofRun? filename marker run).map (moveDown n) := by
  have hMarker : ((!isMarker marker ·) ∘ Comment.moveDown n) = (!isMarker marker ·) := rfl
  have hText : documentLine ∘ Comment.moveDown n = documentLine := rfl
  unfold ofRun?
  rw [List.dropWhile_map, hMarker]
  cases run.dropWhile (!isMarker marker ·) with
  | nil => rfl
  | cons head rest =>
    simp only [List.map_cons, List.map_map, hText, List.length_map, Option.map_some, moveDown,
      Comment.moveDown, Location.moveDown, Location.ofIndex, Nat.add_assoc]

/-! ## Blocks -/

/-- Comments of two lists of lines follow each other only if the last line of the first and the first
    line of the second are comments. -/
theorem index_ne_of_seam {sign : List Char} {ls ls' : List (List Char)}
    (hSeam : ∀ line ∈ ls.getLast?, ∀ line' ∈ ls'.head?, ¬ (IsComment sign line ∧ IsComment sign line'))
    {a b : Comment} (ha : a ∈ Comment.ofLines sign 0 ls) (hb : b ∈ Comment.ofLines sign 0 ls') :
    ls.length + b.index ≠ a.index + 1 := by
  intro hNext
  obtain ⟨line, hLine, hComment, _⟩ := mem_ofLines_zero_iff.mp ha
  obtain ⟨line', hLine', hComment', _⟩ := mem_ofLines_zero_iff.mp hb
  have hBound : a.index < ls.length := (List.getElem?_eq_some_iff.mp hLine).1
  have hLast : a.index = ls.length - 1 := by omega
  have hFirst : b.index = 0 := by omega
  rw [hLast, ← List.getLast?_eq_getElem?] at hLine
  rw [hFirst, ← List.head?_eq_getElem?] at hLine'
  exact hSeam line hLine line' hLine' ⟨hComment, hComment'⟩

/-- The blocks of two pieces of a file that are not cut within a run of comment lines. -/
theorem ofText_append (config : Config) (filename : Path) {first : List Char} (rest : List Char)
    (hEnded : first = [] ∨ first.getLast? = some '\n')
    (hSeam : ∀ line ∈ (lines first).getLast?, ∀ line' ∈ (lines rest).head?,
      ¬ (IsComment config.commentPrefix.toList line ∧ IsComment config.commentPrefix.toList line')) :
    ofText config filename (first ++ rest) =
      ofText config filename first ++
        (ofText config filename rest).map (moveDown (lines first).length) := by
  have hComments : Comment.ofText config.commentPrefix.toList (first ++ rest) =
      Comment.ofText config.commentPrefix.toList first ++
        (Comment.ofText config.commentPrefix.toList rest).map
          (Comment.moveDown (lines first).length) := by
    unfold Comment.ofText
    rw [lines_ended_append rest hEnded, Comment.ofLines_append, Nat.zero_add, ← Comment.ofLines_add,
      Nat.add_zero]
  have hRuns : runs (Comment.ofText config.commentPrefix.toList (first ++ rest)) =
      runs (Comment.ofText config.commentPrefix.toList first) ++
        (runs (Comment.ofText config.commentPrefix.toList rest)).map
          (List.map (Comment.moveDown (lines first).length)) := by
    rw [hComments, ← runs_moveDown, runs, List.splitBy_append]
    · rfl
    · intro a ha moved hMoved
      obtain ⟨b, hb, rfl⟩ := List.mem_map.mp (List.mem_of_mem_head? hMoved)
      have hNot := index_ne_of_seam hSeam (List.mem_of_mem_getLast? ha) hb
      exact beq_eq_false_iff_ne.mpr hNot
  rw [ofText_eq_filterMap_runs, ofText_eq_filterMap_runs, ofText_eq_filterMap_runs, hRuns,
    List.filterMap_append, List.filterMap_map, List.map_filterMap]
  congr 2
  funext run
  exact ofRun?_moveDown filename config.marker.toList _ run

end Block

namespace Outcome

/-! ## Outcomes -/

/-- What is found about a block does not depend on where it stands. -/
theorem ofBlock_moveDown [Yaml.Wording] (n : ℕ) (b : Block) :
    ofBlock (b.moveDown n) = (ofBlock b).moveDown n := by
  have hText : (b.moveDown n).rawText = b.rawText := rfl
  unfold ofBlock pushValidation
  rw [hText]
  cases Metadata.ofText b.rawText <;> rfl

/-- The outcomes of a text that ends its last line and of a text behind it, where not both the last
    line of the first and the first line of the second are comments: those of the first, and those of
    the second with the lines of the first added to their line numbers. -/
theorem ofSource_append [Yaml.Wording] (config : Config) (filename : Path) {first : List Char}
    (rest : List Char) (hEnded : first = [] ∨ first.getLast? = some '\n')
    (hSeam : ∀ line ∈ (lines first).getLast?, ∀ line' ∈ (lines rest).head?,
      ¬ (Block.IsComment config.commentPrefix.toList line ∧
        Block.IsComment config.commentPrefix.toList line')) :
    ofSource config filename (first ++ rest) =
      ofSource config filename first ++
        (ofSource config filename rest).map (moveDown (lines first).length) := by
  have hMoved : ofBlock ∘ Block.moveDown (lines first).length =
      moveDown (lines first).length ∘ ofBlock := by
    funext b
    exact ofBlock_moveDown _ b
  unfold ofSource
  rw [Block.ofText_append config filename rest hEnded hSeam, List.map_append, List.map_map, List.map_map,
    hMoved]

/-- A text that ends in a block, and behind it a text with an empty line in front of another block. -/
theorem ofSource_append_twoBlocks :
    ofSource .default (.ofString "a.rego") ("# METADATA: library-snippet\r\n# a\n".toList ++
        "\n# METADATA: library-snippet\n# b".toList) =
      ofSource .default (.ofString "a.rego") "# METADATA: library-snippet\r\n# a\n".toList ++
        (ofSource .default (.ofString "a.rego") "\n# METADATA: library-snippet\n# b".toList).map
          (moveDown 2) :=
  ofSource_append .default (.ofString "a.rego") "\n# METADATA: library-snippet\n# b".toList
    (by decide) (by decide)

end Outcome

end SnippetAudit
