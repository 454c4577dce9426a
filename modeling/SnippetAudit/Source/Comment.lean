import SnippetAudit.Text.Blank
import SnippetAudit.Text.Lines

/-!
# Comment lines

A line is a comment when it starts, after trimming, with the comment sign. Its value
is the rest of the trimmed line.

Results:
* `after?_eq_some_iff`: what stands behind the start of a text.
* `mem_ofLines_iff`: which comments a list of lines has.
-/

namespace SnippetAudit

open Text

/-- A comment line (`Comment`): its index in the file, counted from zero, and the text behind the
    sign. -/
structure Comment where
  index : Nat
  value : List Char
  deriving DecidableEq, Repr

namespace Comment

/-- The rest of a text behind `lead`, if it starts so. -/
def after? (lead text : List Char) : Option (List Char) :=
  match lead, text with
  | [], text => some text
  | _ :: _, [] => none
  | a :: lead, b :: text => if a = b then after? lead text else none

/-- The value of a line as a comment with the given sign. -/
def value? (sign line : List Char) : Option (List Char) := after? sign (trim line)

/-- The comments of a list of lines, the first of which has the index `i`. -/
def ofLines (sign : List Char) : Nat → List (List Char) → List Comment
  | _, [] => []
  | i, line :: rest =>
    match value? sign line with
    | some value => ⟨i, value⟩ :: ofLines sign (i + 1) rest
    | none => ofLines sign (i + 1) rest

/-- The comment lines of a text, in order (`tokenize`). -/
def ofText (sign text : List Char) : List Comment := ofLines sign 0 (lines text)

/-! ## Lemmas -/

theorem after?_eq_some_iff {lead text rest : List Char} :
    after? lead text = some rest ↔ text = lead ++ rest := by
  induction lead generalizing text with
  | nil => simp [after?, eq_comm]
  | cons a lead ih =>
    cases text with
    | nil => simp [after?]
    | cons b text =>
      simp only [after?]
      split
      · rename_i h; subst h; simp [ih]
      · rename_i h; simp [Ne.symm h]

/-- The comments of a list of lines are the values of its lines at their indices. -/
theorem mem_ofLines_iff {sign : List Char} {ls : List (List Char)} {i : Nat} {c : Comment} :
    c ∈ ofLines sign i ls ↔
      ∃ k, c.index = i + k ∧ (ls[k]?.bind (value? sign)) = some c.value := by
  induction ls generalizing i with
  | nil => simp [ofLines]
  | cons line rest ih =>
    have hShift : (∃ k, c.index = i + k ∧ ((line :: rest)[k]?.bind (value? sign)) = some c.value) ↔
        (c.index = i ∧ value? sign line = some c.value) ∨
          ∃ k, c.index = i + 1 + k ∧ (rest[k]?.bind (value? sign)) = some c.value := by
      constructor
      · rintro ⟨k, hk, hv⟩
        cases k with
        | zero => exact .inl ⟨by simpa using hk, by simpa using hv⟩
        | succ k => exact .inr ⟨k, by omega, by simpa using hv⟩
      · rintro (⟨hk, hv⟩ | ⟨k, hk, hv⟩)
        · exact ⟨0, by simpa using hk, by simpa using hv⟩
        · exact ⟨k + 1, by omega, by simpa using hv⟩
    rw [hShift, ofLines]
    cases hv : value? sign line with
    | none => simp [ih]
    | some value =>
      simp only [List.mem_cons, ih, Option.some.injEq]
      constructor
      · rintro (rfl | h)
        · exact .inl ⟨rfl, rfl⟩
        · exact .inr h
      · rintro (⟨hk, hv⟩ | h)
        · left; cases c; simp_all
        · exact .inr h

end Comment

end SnippetAudit
