import Mathlib.Logic.Relation
import SnippetAudit.Proofs.Source.Concatenation
import SnippetAudit.Proofs.Text.Trim

/-!
# Source files that are alike to a check

A check sees of a source file only the comment lines, each trimmed and with its line number. So two
files are alike to it when at every index both lines trim to the same text or neither is a comment.
In particular, line ends, the blanks around a line and the lines between the comments can be changed.

Specification: `AlikeAt` compares two files at an index, `QuietEdit` is one change of a file.

Results:
* `ofLines_eq_of_alikeAt`: files that are alike have the same comments.
* `ofText_eq_of_quietEdit`: a quiet edit leaves the comments.
* `ofSource_eq_of_alike`: files that are alike, and files that come from each other by quiet edits,
  have the same outcomes.
-/

namespace SnippetAudit

open Text Block

/-! ## Specification -/

/-- At an index both files have lines that trim to the same text, or neither has a comment there. A
    line that is missing is no comment. -/
def AlikeAt (sign : List Char) (ls ls' : List (List Char)) (n : ℕ) : Prop :=
  (∃ line line', ls[n]? = some line ∧ ls'[n]? = some line' ∧ trim line = trim line') ∨
    ¬ CommentAt sign ls n ∧ ¬ CommentAt sign ls' n

instance (sign : List Char) (ls : List (List Char)) (n : ℕ) : Decidable (CommentAt sign ls n) :=
  decidable_of_iff (∃ line ∈ ls[n]?, IsComment sign line) (by simp [CommentAt])

instance (sign : List Char) (ls ls' : List (List Char)) (n : ℕ) : Decidable (AlikeAt sign ls ls' n) :=
  decidable_of_iff ((∃ line ∈ ls[n]?, ∃ line' ∈ ls'[n]?, trim line = trim line') ∨
    ¬ CommentAt sign ls n ∧ ¬ CommentAt sign ls' n) (by simp [AlikeAt])

/-- A text on one line, with what stands before and behind it in a file. -/
structure IsLineBetween (front line tail : List Char) : Prop where
  front_ended : front = [] ∨ front.getLast? = some '\n'
  no_feed : '\n' ∉ line
  tail_apart : tail = [] ∨ tail.head? = some '\n'

/-- One change of a file that leaves its comments. -/
inductive QuietEdit (sign : List Char) : List Char → List Char → Prop
  /-- Every line feed gets a carriage return before it. -/
  | returns (text : List Char) : QuietEdit sign text (withReturns text)
  /-- A line gets another indentation and other blanks at its end. At the end of a file, where nothing
      is no line, it stays a line. -/
  | blanks {front indent text gap indent' gap' tail : List Char}
    (hLine : IsLineBetween front (indent ++ (text ++ gap)) tail)
    (hLine' : IsLineBetween front (indent' ++ (text ++ gap')) tail)
    (hBlank : isAllBlank indent = true ∧ isAllBlank gap = true)
    (hBlank' : isAllBlank indent' = true ∧ isAllBlank gap' = true)
    (hThere : (indent ++ (text ++ gap)) ++ tail = [] ↔ (indent' ++ (text ++ gap')) ++ tail = []) :
    QuietEdit sign (front ++ ((indent ++ (text ++ gap)) ++ tail))
      (front ++ ((indent' ++ (text ++ gap')) ++ tail))
  /-- A line that is no comment becomes another one that is none. -/
  | rewrite {front line line' tail : List Char} (hLine : IsLineBetween front line tail)
    (hLine' : IsLineBetween front line' tail) (hNot : ¬ IsComment sign line)
    (hNot' : ¬ IsComment sign line') :
    QuietEdit sign (front ++ (line ++ tail)) (front ++ (line' ++ tail))

/-! ## Files that are alike -/

/-- Behind the ends of both files there is nothing to compare. -/
theorem alikeAt_of_forall_lt {sign : List Char} {ls ls' : List (List Char)}
    (h : ∀ n < max ls.length ls'.length, AlikeAt sign ls ls' n) (n : ℕ) : AlikeAt sign ls ls' n := by
  by_cases hn : n < max ls.length ls'.length
  · exact h n hn
  · obtain ⟨hEnd, hEnd'⟩ := Nat.max_le.mp (Nat.not_lt.mp hn)
    right
    constructor
    · rintro ⟨line, hLine, _⟩
      rw [List.getElem?_eq_none hEnd] at hLine
      cases hLine
    · rintro ⟨line, hLine, _⟩
      rw [List.getElem?_eq_none hEnd'] at hLine
      cases hLine

namespace Comment

variable {sign : List Char} {ls ls' : List (List Char)}

theorem value?_eq_of_trim_eq {line line' : List Char} (h : trim line = trim line') :
    value? sign line = value? sign line' := by
  rw [value?, value?, h]

theorem value?_eq_none {line : List Char} (h : ¬ IsComment sign line) : value? sign line = none := by
  rw [Option.eq_none_iff_forall_ne_some]
  intro value hValue
  exact h (value?_eq_some_iff.mp hValue).1

/-- The comments of a file are determined by the comment at each index. -/
theorem ofLines_ext (h : ∀ n : ℕ, ls[n]?.bind (value? sign) = ls'[n]?.bind (value? sign)) (i : ℕ) :
    ofLines sign i ls = ofLines sign i ls' := by
  have hNodup (ls : List (List Char)) : (ofLines sign i ls).Nodup :=
    (pairwise_ofLines sign i ls).imp fun hLt hEq => by
      rw [hEq] at hLt
      exact lt_irrefl _ hLt
  have hPerm : (ofLines sign i ls).Perm (ofLines sign i ls') := by
    rw [List.perm_ext_iff_of_nodup (hNodup ls) (hNodup ls')]
    intro c
    simp only [mem_ofLines_iff, h]
  refine hPerm.eq_of_pairwise ?_ (pairwise_ofLines sign i ls) (pairwise_ofLines sign i ls')
  intro a b _ _ hab hba
  omega

theorem bind_value?_eq_none {n : ℕ} (h : ¬ CommentAt sign ls n) : ls[n]?.bind (value? sign) = none := by
  rw [Option.bind_eq_none_iff]
  intro line hLine
  exact value?_eq_none fun hComment => h ⟨line, hLine, hComment⟩

/-- Files that are alike have the same comments. -/
theorem ofLines_eq_of_alikeAt (h : ∀ n, AlikeAt sign ls ls' n) (i : ℕ) :
    ofLines sign i ls = ofLines sign i ls' := by
  apply ofLines_ext
  intro n
  rcases h n with ⟨line, line', hLine, hLine', hTrim⟩ | ⟨hNot, hNot'⟩
  · rw [hLine, hLine']
    exact value?_eq_of_trim_eq hTrim
  · rw [bind_value?_eq_none hNot, bind_value?_eq_none hNot']

/-! ## Quiet edits -/

/-- Lines with the same values, one by one, have the same comments. -/
theorem ofLines_eq_of_forall₂
    (h : List.Forall₂ (fun line line' => value? sign line = value? sign line') ls ls') (i : ℕ) :
    ofLines sign i ls = ofLines sign i ls' := by
  induction h generalizing i with
  | nil => rfl
  | cons hLine _ ih => rw [ofLines, ofLines, hLine, ih (i + 1)]

/-- A carriage return at the end of a line does not show in its value. -/
theorem value?_append_return (line : List Char) :
    value? sign (line ++ ['\r']) = value? sign line := by
  apply value?_eq_of_trim_eq
  exact trim_append_blank line (by decide)

/-- The comments of a file are those before a line, the line if it is there, and those behind it. -/
theorem ofText_between {front line tail : List Char} (h : IsLineBetween front line tail) :
    ofText sign (front ++ (line ++ tail)) =
      ofText sign front ++
        ((if line ++ tail = [] then [] else (value? sign line).toList.map (mk (lines front).length)) ++
          ofLines sign ((lines front).length + 1) (lines tail.tail)) := by
  unfold ofText
  rw [lines_ended_append _ h.front_ended, ofLines_append, Nat.zero_add]
  by_cases hThere : line ++ tail = []
  · rw [if_pos hThere, hThere, (List.append_eq_nil_iff.mp hThere).2, List.tail_nil, lines_nil]
    rfl
  · have hOne : line ≠ [] ∨ tail ≠ [] := by
      rw [List.append_eq_nil_iff] at hThere
      exact not_and_or.mp hThere
    obtain ⟨shown, hLines, hShown⟩ := exists_lines_line_append h.no_feed h.tail_apart hOne
    have hValue : value? sign shown = value? sign line := by
      rcases hShown with rfl | rfl
      · rfl
      · exact (value?_append_return shown).symm
    rw [if_neg hThere, hLines, ofLines, hValue]
    cases value? sign line <;> rfl

/-- A quiet edit leaves the comments. -/
theorem ofText_eq_of_quietEdit {text text' : List Char} (h : QuietEdit sign text text') :
    ofText sign text = ofText sign text' := by
  cases h with
  | returns text =>
    apply ofLines_eq_of_forall₂
    refine (forall₂_lines_withReturns text).imp ?_
    rintro line line' (rfl | rfl)
    · rfl
    · exact (value?_append_return line).symm
  | @blanks front indent text gap indent' gap' tail hLine hLine' hBlank hBlank' hThere =>
    have hValue : value? sign (indent ++ (text ++ gap)) = value? sign (indent' ++ (text ++ gap')) := by
      apply value?_eq_of_trim_eq
      rw [trim_between_blanks _ hBlank.1 hBlank.2, trim_between_blanks _ hBlank'.1 hBlank'.2]
    rw [ofText_between hLine, ofText_between hLine', hValue]
    simp only [hThere]
  | rewrite hLine hLine' hNot hNot' =>
    rw [ofText_between hLine, ofText_between hLine', value?_eq_none hNot, value?_eq_none hNot']
    simp only [Option.toList_none, List.map_nil, ite_self]

end Comment

/-- The blocks of a file are made of its comments. -/
theorem Block.ofText_eq_of_comments_eq {config : Config} {text text' : List Char}
    (h : Comment.ofText config.commentPrefix.toList text =
      Comment.ofText config.commentPrefix.toList text') (filename : Path) :
    Block.ofText config filename text = Block.ofText config filename text' := by
  rw [Block.ofText, Block.ofText, h]

namespace Outcome

/-- Two files have the same outcomes if at every index their lines trim to the same text or neither line
    is a comment. In particular, the blocks and outcomes of a file stay what they are when every
    line feed becomes a carriage return and a line feed, when the blanks around lines change and
    when lines that are no comments become other such lines. -/
theorem ofSource_eq_of_alike [Yaml.Wording] (config : Config) (filename : Path) :
    (∀ text text',
      (∀ n, AlikeAt config.commentPrefix.toList (lines text) (lines text') n) →
      ofSource config filename text = ofSource config filename text') ∧
    ∀ text text',
      Relation.ReflTransGen (QuietEdit config.commentPrefix.toList) text text' →
      Block.ofText config filename text = Block.ofText config filename text' ∧
        ofSource config filename text = ofSource config filename text' := by
  constructor
  · intro text text' hAlike
    have hComments := Comment.ofLines_eq_of_alikeAt hAlike 0
    rw [ofSource, ofSource, Block.ofText_eq_of_comments_eq hComments filename]
  · intro text text' hEdits
    have hComments : Comment.ofText config.commentPrefix.toList text =
        Comment.ofText config.commentPrefix.toList text' := by
      induction hEdits with
      | refl => rfl
      | tail _ hEdit ih => exact ih.trans (Comment.ofText_eq_of_quietEdit hEdit)
    have hBlocks := Block.ofText_eq_of_comments_eq hComments filename
    exact ⟨hBlocks, by rw [ofSource, ofSource, hBlocks]⟩

/-- The settings of a check for blocks that open with `# M`. -/
def shortMarker : Config := { Config.default with marker := "M" }

/-- Files of which one lacks its last lines, and a file in which first the line ends, then the blanks of
    the marker line and then the last line change. -/
theorem ofSource_eq_of_alike_respaced :
    ofSource shortMarker (.ofString "a.rego") "x\n\t# M \n# a".toList =
      ofSource shortMarker (.ofString "a.rego") "\r\n# M\n  # a\r\n\nlater".toList ∧
    ofSource shortMarker (.ofString "a.rego") "# M\n# a\nx".toList =
      ofSource shortMarker (.ofString "a.rego") "\t# M\r\n# a\r\ny z".toList := by
  have hEdits : Relation.ReflTransGen (QuietEdit shortMarker.commentPrefix.toList)
      "# M\n# a\nx".toList "\t# M\r\n# a\r\ny z".toList := by
    have hBlanks := @QuietEdit.blanks shortMarker.commentPrefix.toList
      [] [] "# M".toList ['\r'] ['\t'] ['\r'] "\n# a\r\nx".toList
      ⟨by decide, by decide, by decide⟩ ⟨by decide, by decide, by decide⟩ (by decide) (by decide)
      (by decide)
    have hRewrite := @QuietEdit.rewrite shortMarker.commentPrefix.toList
      "\t# M\r\n# a\r\n".toList ['x'] "y z".toList []
      ⟨by decide, by decide, by decide⟩ ⟨by decide, by decide, by decide⟩ (by decide) (by decide)
    exact .tail (.tail (.single (.returns _)) hBlanks) hRewrite
  obtain ⟨hAlike, hQuiet⟩ := ofSource_eq_of_alike shortMarker (.ofString "a.rego")
  exact ⟨hAlike _ _ (alikeAt_of_forall_lt (by decide)), (hQuiet _ _ hEdits).2⟩

end Outcome

end SnippetAudit
