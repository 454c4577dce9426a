import SnippetAudit.Proofs.Report.Totals
import SnippetAudit.Proofs.Tree.Visits

/-!
# What a walk says about a block or a path

About a block a walk finds nothing, or one thing that is wrong with its document. About a path
that could not be looked at it says so, once, and nothing else. So the findings of a walk are as
many as its outcomes that did not pass.

Results:
* `isVerdict_of_mem_outcomes`: every outcome of a walk is of one of these forms.
* `exitCode_of_forall_isVerdict`: the exit status counts the outcomes that did not pass.
-/

namespace SnippetAudit

/-! ## Specification -/

/-- The finding is about a document. -/
def Finding.IsOfDocument : Finding → Prop
  | .schema _ _ => True
  | .parse _ => True
  | .io _ => False

/-- An outcome with a location has at most one finding, about the document of its block. An outcome
    without one has no document, and one finding about its path. -/
structure Outcome.IsVerdict (o : Outcome) : Prop where
  ofBlock : o.location ≠ none → o.findings.length ≤ 1 ∧ ∀ f ∈ o.findings, f.IsOfDocument
  ofPath : o.location = none → o.rawText = [] ∧ ∃ message, o.findings = [.io message]

namespace Outcome

variable {o : Outcome}

/-! ## One outcome -/

theorem isOfDocument_ofRejection [Yaml.Wording] (r : Rejection) :
    (Finding.ofRejection r).IsOfDocument := by
  cases r <;> trivial

theorem findings_ofBlock [Yaml.Wording] (b : Block) :
    (ofBlock b).findings = match Metadata.ofText b.rawText with
      | .ok _ => []
      | .error r => [.ofRejection r] := by
  unfold ofBlock pushValidation
  cases Metadata.ofText b.rawText <;> rfl

theorem isVerdict_ofBlock [Yaml.Wording] (b : Block) : (ofBlock b).IsVerdict := by
  constructor
  · intro _
    rw [findings_ofBlock]
    cases Metadata.ofText b.rawText with
    | ok m => simp
    | error r => simpa using isOfDocument_ofRejection r
  · intro hNone
    rw [location_ofBlock] at hNone
    cases hNone

theorem isVerdict_fileFailure (path : Path) (message : String) :
    (fileFailure path (.io message)).IsVerdict := by
  constructor
  · intro hSome
    exact absurd rfl hSome
  · intro _
    exact ⟨rfl, message, rfl⟩

/-- A verdict has one finding, unless it passed. -/
theorem IsVerdict.length_findings (h : o.IsVerdict) :
    o.findings.length = if o.passed then 0 else 1 := by
  unfold passed
  cases hLocation : o.location with
  | none =>
    obtain ⟨_, message, hFindings⟩ := h.ofPath hLocation
    rw [hFindings]
    rfl
  | some l =>
    have hLength := (h.ofBlock (by rw [hLocation]; exact Option.some_ne_none l)).1
    cases hFindings : o.findings with
    | nil => rfl
    | cons f rest =>
      rw [hFindings, List.length_cons] at hLength
      show rest.length + 1 = 1
      omega

end Outcome

namespace Walk

/-! ## The outcomes of a walk -/

theorem isVerdict_of_mem_outcomes [Yaml.Wording] {fs : FileSystem} {config : Config} {v : Visit}
    {o : Outcome} (h : o ∈ outcomes fs config v) : o.IsVerdict := by
  obtain ⟨⟨path, found⟩, _, hMem⟩ := List.mem_flatMap.mp h
  rcases cases_of_mem_outcomesAt hMem with ⟨message, rfl⟩ | ⟨_, _, _, b, _, rfl⟩
  · exact Outcome.isVerdict_fileFailure path message
  · exact Outcome.isVerdict_ofBlock b

end Walk

namespace Report.Summary

/-! ## Totals -/

/-- Verdicts have as many findings as there are among them that did not pass. -/
theorem errors_eq_failed {outcomes : List Outcome} (h : ∀ o ∈ outcomes, o.IsVerdict) :
    (ofOutcomes outcomes).errors = (ofOutcomes outcomes).failed := by
  rw [errors_eq_sum, failed_eq_sum]
  congr 1
  apply List.map_congr_left
  intro o ho
  exact (h o ho).length_findings

/-- The exit status of verdicts is the number of those that did not pass, up to 255. -/
theorem exitCode_of_forall_isVerdict {outcomes : List Outcome} (h : ∀ o ∈ outcomes, o.IsVerdict) :
    (ofOutcomes outcomes).exitCode = min 255 (outcomes.countP (!·.passed)) := by
  unfold exitCode
  rw [errors_eq_failed h, Nat.min_comm]
  rfl

end Report.Summary

end SnippetAudit
