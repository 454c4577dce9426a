import Mathlib.Data.List.Infix
import Mathlib.Data.List.TakeWhile
import SnippetAudit.Text.Blank

/-!
# Text without blanks at its ends

Trimming leaves a text alone when no blank stands at its ends, and what it leaves of a text
is such a text.

Results:
* `trim_blank_append`: an indentation does not matter to what is trimmed.
* `trim_between_blanks`: neither do the blanks at the end.
* `startsBare_trim`: a trimmed text starts with no blank, and so does every start of it.
* `trim_eq_nil_iff`: trimming leaves nothing iff there are only blanks.
-/

namespace SnippetAudit.Text

/-- No blank stands at the start of the text. -/
def StartsBare (text : List Char) : Prop := ∀ c ∈ text.head?, isBlank c = false

/-- No blank stands at the end of the text. -/
def EndsBare (text : List Char) : Prop := ∀ c ∈ text.getLast?, isBlank c = false

instance (text : List Char) : Decidable (StartsBare text) :=
  decidable_of_iff (text.head?.all (!isBlank ·) = true) (by simp [StartsBare, Option.all_eq_true])

instance (text : List Char) : Decidable (EndsBare text) :=
  decidable_of_iff (text.getLast?.all (!isBlank ·) = true) (by simp [EndsBare, Option.all_eq_true])

variable {text lead gap : List Char}

/-! ## The start -/

theorem StartsBare.start (h : StartsBare text) (hLead : lead <+: text) : StartsBare lead := by
  obtain ⟨rest, rfl⟩ := hLead
  intro c hc
  exact h c (List.mem_head?_append_of_mem_head? hc)

theorem StartsBare.append {rest : List Char} (h : StartsBare text) (hRest : StartsBare rest) :
    StartsBare (text ++ rest) := by
  cases text with
  | nil => exact hRest
  | cons c text => exact h

theorem startsBare_trimStart (text : List Char) : StartsBare (trimStart text) := by
  intro c hc
  have hNot := List.head?_dropWhile_not isBlank text
  rw [show text.dropWhile isBlank = trimStart text from rfl, Option.mem_def.mp hc] at hNot
  exact hNot

theorem trimStart_eq_self (h : StartsBare text) : trimStart text = text := by
  cases text with
  | nil => rfl
  | cons c text => exact trimStart_eq_self_iff.mpr (h c rfl)

/-! ## The end -/

theorem trimEnd_isPrefix (text : List Char) : trimEnd text <+: text := by
  rw [← List.reverse_suffix, trimEnd, List.reverse_reverse]
  exact List.dropWhile_suffix isBlank

theorem trimEnd_eq_self (h : EndsBare text) : trimEnd text = text := by
  have hReverse : StartsBare text.reverse := by
    intro c hc
    rw [List.head?_reverse] at hc
    exact h c hc
  have hDrop : text.reverse.dropWhile isBlank = text.reverse := trimStart_eq_self hReverse
  rw [trimEnd, hDrop, List.reverse_reverse]

/-! ## Both ends -/

/-- An indentation does not matter to what is trimmed. -/
theorem trim_blank_append (hGap : isAllBlank gap = true) (hText : StartsBare text) :
    trim (gap ++ text) = trimEnd text := by
  rw [trim, trimStart_blank_append text hGap, trimStart_eq_self hText]

/-- Blanks at the end do not matter to what is trimmed. -/
theorem trim_append_blank (text : List Char) (hGap : isAllBlank gap = true) :
    trim (text ++ gap) = trim text := by
  induction text with
  | nil => exact trim_eq_nil_of_isAllBlank hGap
  | cons c text ih =>
    unfold trim at ih ⊢
    rw [List.cons_append, trimStart_cons, trimStart_cons]
    by_cases hc : isBlank c = true
    · rw [if_pos hc, if_pos hc, ih]
    · rw [if_neg hc, if_neg hc, ← List.cons_append, trimEnd_append_blank hGap]

/-- Blanks around a text do not matter to what is trimmed. -/
theorem trim_between_blanks (text : List Char) (hLead : isAllBlank lead = true)
    (hGap : isAllBlank gap = true) : trim (lead ++ (text ++ gap)) = trim text := by
  rw [trim, trimStart_blank_append _ hLead, ← trim, trim_append_blank text hGap]

theorem startsBare_trim (text : List Char) : StartsBare (trim text) :=
  (startsBare_trimStart text).start (trimEnd_isPrefix _)

/-- Trimming leaves nothing iff there are only blanks. -/
theorem trim_eq_nil_iff : trim text = [] ↔ isAllBlank text = true := by
  refine ⟨fun h => ?_, trim_eq_nil_of_isAllBlank⟩
  have hStart : isAllBlank (trimStart text) = true := by
    rw [trim, trimEnd, List.reverse_eq_nil_iff, List.dropWhile_eq_nil_iff] at h
    exact List.all_eq_true.mpr fun c hc => h c (List.mem_reverse.mpr hc)
  have hNil : trimStart text = [] := by
    cases hText : trimStart text with
    | nil => rfl
    | cons c rest =>
      have hBare := startsBare_trimStart text c (by rw [hText]; rfl)
      rw [hText, isAllBlank, List.all_cons, hBare] at hStart
      cases hStart
  exact List.all_eq_true.mpr (List.dropWhile_eq_nil_iff.mp hNil)

end SnippetAudit.Text
