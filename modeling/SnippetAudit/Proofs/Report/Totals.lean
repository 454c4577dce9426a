import Mathlib.Algebra.Order.BigOperators.Group.List
import Mathlib.Algebra.Order.Ring.Nat
import SnippetAudit.Report.Summary

/-!
# Totals

The totals of a report are counted outcome by outcome, and it makes no difference in which order. They
are sums: of one for each outcome that failed, and of the findings of each outcome.

Results:
* `ofOutcomes_eq_foldl`: the totals are counted outcome by outcome.
* `ofOutcomes_eq_of_perm`: they do not depend on the order.
* `errors_eq_sum`, `failed_eq_sum`: the totals as sums.
* `failed_le_errors`, `errors_eq_zero_iff`: findings and outcomes that failed.
-/

namespace SnippetAudit

theorem Outcome.passed_iff {o : Outcome} : o.passed = true ↔ o.findings = [] := List.isEmpty_iff

namespace Report.Summary

/-! ## Counting -/

/-- Counts one more outcome. The findings of one that passed are not looked at. -/
def tally (s : Summary) (o : Outcome) : Summary :=
  if o.passed then { s with passed := s.passed + 1 }
  else { s with failed := s.failed + 1, errors := s.errors + o.findings.length }

theorem foldl_tally (outcomes : List Outcome) (s : Summary) :
    outcomes.foldl tally s =
      { s with
        passed := s.passed + (ofOutcomes outcomes).passed
        failed := s.failed + (ofOutcomes outcomes).failed
        errors := s.errors + (ofOutcomes outcomes).errors } := by
  induction outcomes generalizing s with
  | nil => rfl
  | cons o outcomes ih =>
    rw [List.foldl_cons, ih, tally]
    unfold ofOutcomes
    cases hPassed : o.passed with
    | true =>
      have hNone : o.findings = [] := Outcome.passed_iff.mp hPassed
      simp [hPassed, hNone]
      omega
    | false =>
      simp [hPassed]
      omega

/-- The totals are counted outcome by outcome. -/
theorem ofOutcomes_eq_foldl (outcomes : List Outcome) :
    ofOutcomes outcomes = outcomes.foldl tally ⟨outcomes.length, 0, 0, 0⟩ := by
  rw [foldl_tally]
  simp only [Nat.zero_add]
  rfl

/-- The totals do not depend on the order of the outcomes. -/
theorem ofOutcomes_eq_of_perm {l l' : List Outcome} (h : l.Perm l') : ofOutcomes l = ofOutcomes l' := by
  unfold ofOutcomes
  rw [h.length_eq, h.countP_eq, h.countP_eq, (h.flatMap_right _).length_eq]

/-! ## Sums -/

theorem errors_eq_sum (outcomes : List Outcome) :
    (ofOutcomes outcomes).errors = (outcomes.map fun o => o.findings.length).sum :=
  List.length_flatMap

theorem failed_eq_sum (outcomes : List Outcome) :
    (ofOutcomes outcomes).failed = (outcomes.map fun o => if o.passed then 0 else 1).sum := by
  show outcomes.countP (!·.passed) = _
  induction outcomes with
  | nil => rfl
  | cons o outcomes ih =>
    rw [List.countP_cons, List.map_cons, List.sum_cons, ih, Nat.add_comm]
    cases o.passed <;> rfl

/-- Every outcome that failed has a finding. -/
theorem failed_le_errors (outcomes : List Outcome) :
    (ofOutcomes outcomes).failed ≤ (ofOutcomes outcomes).errors := by
  rw [failed_eq_sum, errors_eq_sum]
  apply List.sum_le_sum
  intro o _
  split
  · exact Nat.zero_le _
  · rename_i hFailed
    rw [Outcome.passed_iff] at hFailed
    exact List.length_pos_iff.mpr hFailed

theorem errors_eq_zero_iff {outcomes : List Outcome} :
    (ofOutcomes outcomes).errors = 0 ↔ (ofOutcomes outcomes).failed = 0 := by
  have hLe := failed_le_errors outcomes
  constructor
  · omega
  · intro hFailed
    rw [errors_eq_sum, List.sum_eq_zero_iff]
    intro n hn
    obtain ⟨o, ho, rfl⟩ := List.mem_map.mp hn
    have hPassed := List.countP_eq_zero.mp hFailed o ho
    rw [Bool.not_eq_true', Bool.not_eq_false] at hPassed
    rw [Outcome.passed_iff.mp hPassed, List.length_nil]

end Report.Summary

end SnippetAudit
