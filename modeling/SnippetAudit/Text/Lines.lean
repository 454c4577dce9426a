/-!
# Lines of a text

A line ends at a line feed. A carriage return right before that line feed belongs
to the line end; any other carriage return is text. The line feed at the very end
of a text opens no further line.

Results:
* `lines_line_append`, `lines_line_return_append`: a line without a line feed, ended by one, is the
  first line.
* `lines_append`: cutting a text after a line feed cuts its lines.
* `lines_unlines`: lines that hold no line end are read back.
-/

namespace SnippetAudit.Text

/-- The lines of a text, without their line ends. -/
def lines : List Char → List (List Char)
  | [] => []
  | '\n' :: rest => [] :: lines rest
  | '\r' :: '\n' :: rest => [] :: lines rest
  | c :: rest =>
    match lines rest with
    | [] => [[c]]
    | line :: others => (c :: line) :: others

/-- Every line followed by a line feed. -/
def unlines (ls : List (List Char)) : List Char :=
  ls.flatMap (· ++ ['\n'])

/-! ## Lemmas -/

@[simp] theorem lines_nil : lines [] = [] := by simp [lines]

@[simp] theorem lines_lineFeed (rest : List Char) : lines ('\n' :: rest) = [] :: lines rest := by
  simp [lines]

@[simp] theorem lines_return_lineFeed (rest : List Char) :
    lines ('\r' :: '\n' :: rest) = [] :: lines rest := by
  simp [lines]

theorem lines_cons {c : Char} {rest : List Char} (hFeed : c ≠ '\n')
    (hReturn : c = '\r' → ∀ tail, rest ≠ '\n' :: tail) :
    lines (c :: rest) = match lines rest with
      | [] => [[c]]
      | line :: others => (c :: line) :: others := by
  rw [lines]
  · intro h; exact hFeed h
  · intro tail h ht; exact hReturn h tail ht

/-- A line of text, ended by a line feed, is the first line of what it starts. -/
theorem lines_line_append {line rest : List Char} (hFeed : '\n' ∉ line)
    (hReturn : line.getLast? ≠ some '\r') :
    lines (line ++ '\n' :: rest) = line :: lines rest := by
  induction line with
  | nil => simp
  | cons c line ih =>
    have hc : c ≠ '\n' := fun h => hFeed (by simp [h])
    have hLine : '\n' ∉ line := fun h => hFeed (by simp [h])
    cases line with
    | nil =>
      have hr : c ≠ '\r' := by simpa using hReturn
      rw [List.cons_append, List.nil_append, lines_cons hc (fun h => absurd h hr)]
      simp
    | cons d line =>
      have hTail : (d :: line).getLast? ≠ some '\r' := by
        simpa [List.getLast?_cons_cons] using hReturn
      have hd : d ≠ '\n' := fun h => hLine (by simp [h])
      rw [List.cons_append, lines_cons hc]
      · rw [ih hLine hTail]
      · intro _ tail h
        exact hd (List.cons.inj h).1

/-- A carriage return right before the line feed belongs to the line end. -/
theorem lines_line_return_append {line rest : List Char} (hFeed : '\n' ∉ line) :
    lines (line ++ '\r' :: '\n' :: rest) = line :: lines rest := by
  induction line with
  | nil => simp
  | cons c line ih =>
    have hc : c ≠ '\n' := fun h => hFeed (by simp [h])
    have hLine : '\n' ∉ line := fun h => hFeed (by simp [h])
    have hNext : ∀ tail, line ++ '\r' :: '\n' :: rest ≠ '\n' :: tail := by
      intro tail h
      cases line with
      | nil => exact absurd (List.cons.inj h).1 (by decide)
      | cons d line => exact hLine (by simp [(List.cons.inj h).1])
    rw [List.cons_append, lines_cons hc (fun _ => hNext), ih hLine]

theorem lines_ne_nil {text : List Char} (h : text ≠ []) : lines text ≠ [] := by
  fun_cases lines text with
  | case1 => exact absurd rfl h
  | case2 => simp
  | case3 => simp
  | case4 => simp
  | case5 => simp

/-- Cutting a text after a line feed cuts its lines. -/
theorem lines_append (first rest : List Char) :
    lines (first ++ '\n' :: rest) = lines (first ++ ['\n']) ++ lines rest := by
  fun_induction lines first with
  | case1 => simp
  | case2 tail ih => simpa using ih
  | case3 tail ih => simpa using ih
  | case4 c tail hFeed hReturn hEmpty ih =>
    have hTail : tail = [] := Classical.byContradiction fun h => lines_ne_nil h hEmpty
    subst hTail
    by_cases hr : c = '\r'
    · subst hr; simp
    · simp [lines_cons hFeed (fun h => absurd h hr)]
  | case5 c tail hFeed hReturn line others hLines ih =>
    have hNe : tail ≠ [] := fun h => by simp [h] at hLines
    have hd : ∀ after, c = '\r' → ∀ t, tail ++ '\n' :: after ≠ '\n' :: t := by
      intro after h t ht
      cases tail with
      | nil => exact hNe rfl
      | cons d tail => exact hReturn tail h (by rw [(List.cons.inj ht).1])
    rw [List.cons_append, List.cons_append, lines_cons hFeed (hd _), lines_cons hFeed (hd _), ih]
    have hNil : lines (tail ++ ['\n']) ≠ [] := lines_ne_nil (by simp)
    cases h : lines (tail ++ ['\n']) with
    | nil => exact absurd h hNil
    | cons l ls => simp

/-- Lines that hold no line end are read back. -/
theorem lines_unlines {ls : List (List Char)}
    (h : ∀ line ∈ ls, '\n' ∉ line ∧ line.getLast? ≠ some '\r') : lines (unlines ls) = ls := by
  induction ls with
  | nil => simp [unlines]
  | cons line ls ih =>
    have hLine := h line (by simp)
    have ih := ih (fun l hl => h l (by simp [hl]))
    simp only [unlines, List.flatMap_cons] at ih ⊢
    rw [List.append_assoc, List.cons_append, List.nil_append, lines_line_append hLine.1 hLine.2, ih]

end SnippetAudit.Text
