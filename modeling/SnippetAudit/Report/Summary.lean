import SnippetAudit.Outcome

/-!
# Summary

The totals of a report. The exit status of a run is the number of findings, or 255 where there
are more.

Results:
* `passed_add_failed`: each outcome passed or failed.
* `exitCode_le`: the exit status fits into a byte.
-/

namespace SnippetAudit.Report

/-- The totals of a list of outcomes (`Summary`). -/
structure Summary where
  outcomes : Nat
  passed : Nat
  failed : Nat
  errors : Nat
  deriving DecidableEq, Repr

namespace Summary

/-- The totals of these outcomes (`Summary::from_outcomes`). -/
def ofOutcomes (outcomes : List Outcome) : Summary where
  outcomes := outcomes.length
  passed := outcomes.countP (·.passed)
  failed := outcomes.countP (!·.passed)
  errors := (outcomes.flatMap (·.findings)).length

/-- The exit status of a run (`Summary::exit_code`). -/
def exitCode (s : Summary) : Nat := min s.errors 255

/-! ## Lemmas -/

theorem passed_add_failed (outcomes : List Outcome) :
    (ofOutcomes outcomes).passed + (ofOutcomes outcomes).failed = outcomes.length := by
  induction outcomes with
  | nil => rfl
  | cons o outcomes ih =>
    simp only [ofOutcomes, List.countP_cons, List.length_cons] at ih ⊢
    cases o.passed <;> simp <;> omega

theorem exitCode_le (s : Summary) : s.exitCode ≤ 255 := Nat.min_le_right _ _

end Summary

end SnippetAudit.Report
