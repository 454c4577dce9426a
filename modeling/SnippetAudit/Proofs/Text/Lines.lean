import Mathlib.Data.List.Forall2
import SnippetAudit.Text.Lines

/-!
# Lines of a text that is put together or changed

Results:
* `lines_ended_append`: a text that ends its last line keeps its lines before those of what follows.
* `exists_lines_line_append`: text without a line feed is a line of its own between two line feeds.
* `forall₂_lines_withReturns`: carriage returns before the line feeds show in no line, unless there
  is one already.
-/

namespace SnippetAudit.Text

/-- Text that ends its last line has the lines before those of what follows. -/
theorem lines_ended_append {before : List Char} (rest : List Char)
    (h : before = [] ∨ before.getLast? = some '\n') :
    lines (before ++ rest) = lines before ++ lines rest := by
  rcases h with rfl | hLast
  · rw [lines_nil, List.nil_append, List.nil_append]
  · obtain ⟨front, rfl⟩ := List.getLast?_eq_some_iff.mp hLast
    rw [List.append_assoc, List.singleton_append, lines_append]

/-! ## One line -/

/-- Text without a line feed is one line, if it is not empty. -/
theorem lines_eq_singleton {line : List Char} (hFeed : '\n' ∉ line) (hNil : line ≠ []) :
    lines line = [line] := by
  induction line with
  | nil => exact absurd rfl hNil
  | cons c line ih =>
    obtain ⟨hc, hLine⟩ := not_or.mp (List.mem_cons.not.mp hFeed)
    have hNext : c = '\r' → ∀ tail, line ≠ '\n' :: tail := by
      rintro - tail rfl
      exact hLine List.mem_cons_self
    rw [lines_cons (Ne.symm hc) hNext]
    cases line with
    | nil => rw [lines_nil]
    | cons d line => rw [ih hLine (List.cons_ne_nil d line)]

/-- Text without a line feed, at the end of a text or with a line feed behind it, is a line unless it is
    nothing at the end. A carriage return at its end may belong to the line end. -/
theorem exists_lines_line_append {line tail : List Char} (hFeed : '\n' ∉ line)
    (hTail : tail = [] ∨ tail.head? = some '\n') (hLine : line ≠ [] ∨ tail ≠ []) :
    ∃ shown, lines (line ++ tail) = shown :: lines tail.tail ∧
      (line = shown ∨ line = shown ++ ['\r']) := by
  rcases hTail with rfl | hHead
  · have hNil : line ≠ [] := hLine.resolve_right (not_not.mpr rfl)
    refine ⟨line, ?_, .inl rfl⟩
    rw [List.append_nil, lines_eq_singleton hFeed hNil, List.tail_nil, lines_nil]
  · obtain ⟨rest, rfl⟩ := List.head?_eq_some_iff.mp hHead
    rw [List.tail_cons]
    by_cases hReturn : line.getLast? = some '\r'
    · obtain ⟨shown, rfl⟩ := List.getLast?_eq_some_iff.mp hReturn
      refine ⟨shown, ?_, .inr rfl⟩
      rw [List.append_assoc, List.singleton_append]
      exact lines_line_return_append fun h => hFeed (List.mem_append_left _ h)
    · exact ⟨line, lines_line_append hFeed hReturn, .inl rfl⟩

/-! ## Other line ends -/

/-- The text with a carriage return before every line feed. -/
def withReturns (text : List Char) : List Char :=
  text.flatMap fun c => if c = '\n' then ['\r', '\n'] else [c]

theorem withReturns_cons (c : Char) (text : List Char) :
    withReturns (c :: text) = (if c = '\n' then ['\r', '\n'] else [c]) ++ withReturns text := rfl

theorem withReturns_ne_lineFeed_cons (text tail : List Char) : withReturns text ≠ '\n' :: tail := by
  cases text with
  | nil => simp [withReturns]
  | cons c text =>
    rw [withReturns_cons]
    by_cases hc : c = '\n'
    · rw [if_pos hc]
      simp
    · rw [if_neg hc]
      simp [hc]

/-- With a carriage return before every line feed, the lines are the same but for those that ended in a
    carriage return and a line feed before. -/
theorem forall₂_lines_withReturns (text : List Char) :
    List.Forall₂ (fun line line' => line' = line ∨ line' = line ++ ['\r'])
      (lines text) (lines (withReturns text)) := by
  fun_induction lines text with
  | case1 => exact .nil
  | case2 rest ih =>
    have hReturns : withReturns ('\n' :: rest) = '\r' :: '\n' :: withReturns rest := rfl
    rw [hReturns, lines_return_lineFeed]
    exact .cons (.inl rfl) ih
  | case3 rest ih =>
    have hReturns : withReturns ('\r' :: '\n' :: rest) = ['\r'] ++ '\r' :: '\n' :: withReturns rest := rfl
    rw [hReturns, lines_line_return_append (by decide)]
    exact .cons (.inr rfl) ih
  | case4 c rest hFeed hReturn hNil ih =>
    rw [hNil, List.forall₂_nil_left_iff] at ih
    rw [withReturns_cons, if_neg hFeed, List.singleton_append,
      lines_cons hFeed fun _ => withReturns_ne_lineFeed_cons rest, ih]
    exact .cons (.inl rfl) .nil
  | case5 c rest hFeed hReturn line others hLines ih =>
    rw [hLines] at ih
    obtain ⟨line', others', hLine, hOthers, hLines'⟩ := List.forall₂_cons_left_iff.mp ih
    rw [withReturns_cons, if_neg hFeed, List.singleton_append,
      lines_cons hFeed fun _ => withReturns_ne_lineFeed_cons rest, hLines']
    refine .cons ?_ hOthers
    rcases hLine with rfl | rfl
    · exact .inl rfl
    · exact .inr rfl

end SnippetAudit.Text
