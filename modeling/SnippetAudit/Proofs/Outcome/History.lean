import Mathlib.Data.List.Perm.Basic
import SnippetAudit.CommandLine
import SnippetAudit.Proofs.Lists
import SnippetAudit.Proofs.Report.Totals

/-!
# What becomes of a list of outcomes

A list of outcomes is appended to, findings are pushed on its outcomes, and it is sorted. None of
this takes away an outcome or a finding, and what is appended without a location comes with a
finding. So an outcome that failed stays failed, and the totals of a report never go down.

Results:
* `Operation.continues_of_apply`, `Operation.continues_of_applyAll`: what one operation and what many
  leave of a list.
* `Continues.sum_le`: what counts more for an outcome with more findings never goes down.
* `totals_of_applyAll`: the outcomes and the totals after any operations.
-/

namespace SnippetAudit.Outcome

open Report

/-! ## Specification -/

/-- What is done to a list of outcomes. -/
inductive Operation where
  /-- Appends the outcome of a block about which nothing is found yet. -/
  | block (b : Block)
  /-- Appends a path with one finding. -/
  | fileFailure (filename : Path) (finding : Finding)
  /-- Pushes a finding on an outcome. -/
  | push (index : ℕ) (finding : Finding)
  /-- Pushes what validating a text finds on an outcome. -/
  | pushValidation (index : ℕ) (text : List Char)
  /-- Appends the outcomes of a source file. -/
  | source (config : Config) (filename : Path) (text : List Char)
  /-- Puts the outcomes in the order of a report. -/
  | sort

namespace Operation

/-- The list after an operation. An outcome on which something is pushed has to exist. -/
def apply [Yaml.Wording] (outcomes : List Outcome) : Operation → Option (List Outcome)
  | .block b => some (outcomes ++ [forBlock b])
  | .fileFailure filename finding => some (outcomes ++ [Outcome.fileFailure filename finding])
  | .push index finding =>
    if index < outcomes.length then some (outcomes.modify index (·.push finding)) else none
  | .pushValidation index text =>
    if index < outcomes.length then some (outcomes.modify index (·.pushValidation text)) else none
  | .source config filename text => some (outcomes ++ ofSource config filename text)
  | .sort => some (Outcome.sort outcomes)

/-- The list after operations, one after another. -/
def applyAll [Yaml.Wording] (outcomes : List Outcome) (operations : List Operation) :
    Option (List Outcome) :=
  operations.foldlM apply outcomes

end Operation

/-- An outcome that has gone on has kept its place and its document, and its findings with others behind
    them. -/
structure GrowsInto (o o' : Outcome) : Prop where
  filename : o'.filename = o.filename
  location : o'.location = o.location
  rawText : o'.rawText = o.rawText
  findings : o.findings <+: o'.findings

/-- An outcome without a location has no document, and something is found about its path. -/
def IsGrounded (o : Outcome) : Prop := o.location = none → o.rawText = [] ∧ o.findings ≠ []

/-- The outcomes of the first list go on in the second, in some order and among others that are
    grounded. -/
def Continues (l l' : List Outcome) : Prop :=
  ∃ kept added, l'.Perm (kept ++ added) ∧ List.Forall₂ GrowsInto l kept ∧ ∀ o ∈ added, o.IsGrounded

/-! ## One outcome -/

theorem GrowsInto.refl (o : Outcome) : o.GrowsInto o := ⟨rfl, rfl, rfl, List.prefix_refl _⟩

theorem GrowsInto.trans {o o' o'' : Outcome} (h : o.GrowsInto o') (h' : o'.GrowsInto o'') :
    o.GrowsInto o'' where
  filename := h'.filename.trans h.filename
  location := h'.location.trans h.location
  rawText := h'.rawText.trans h.rawText
  findings := h.findings.trans h'.findings

theorem growsInto_push (o : Outcome) (finding : Finding) : o.GrowsInto (o.push finding) :=
  ⟨rfl, rfl, rfl, List.prefix_append _ _⟩

theorem growsInto_pushValidation [Yaml.Wording] (o : Outcome) (text : List Char) :
    o.GrowsInto (o.pushValidation text) := by
  unfold pushValidation
  split
  · exact .refl o
  · exact growsInto_push o _

/-- An outcome that failed stays failed. -/
theorem GrowsInto.not_passed {o o' : Outcome} (h : o.GrowsInto o') (hFailed : o.passed = false) :
    o'.passed = false := by
  rw [← Bool.not_eq_true, passed_iff] at hFailed ⊢
  exact h.findings.ne_nil hFailed

theorem GrowsInto.isGrounded {o o' : Outcome} (h : o.GrowsInto o') (ho : o.IsGrounded) :
    o'.IsGrounded := by
  intro hLocation
  rw [h.location] at hLocation
  obtain ⟨hText, hFindings⟩ := ho hLocation
  exact ⟨h.rawText.trans hText, h.findings.ne_nil hFindings⟩

theorem isGrounded_of_location {o : Outcome} {l : Location} (h : o.location = some l) :
    o.IsGrounded := by
  intro hNone
  rw [h] at hNone
  cases hNone

theorem isGrounded_fileFailure (filename : Path) (finding : Finding) :
    (fileFailure filename finding).IsGrounded :=
  fun _ => ⟨rfl, List.cons_ne_nil _ _⟩

/-! ## A list of outcomes -/

/-- What is changed in its place goes on. -/
theorem continues_of_forall₂ {l l' : List Outcome} (h : List.Forall₂ GrowsInto l l') :
    Continues l l' :=
  ⟨l', [], .of_eq (List.append_nil l').symm, h, by simp⟩

theorem continues_refl (l : List Outcome) : Continues l l :=
  continues_of_forall₂ (List.forall₂_same.mpr fun o _ => .refl o)

/-- Behind a list there may be grounded outcomes. -/
theorem continues_append {l added : List Outcome} (h : ∀ o ∈ added, o.IsGrounded) :
    Continues l (l ++ added) :=
  ⟨l, added, .rfl, List.forall₂_same.mpr fun o _ => .refl o, h⟩

theorem continues_of_perm {l l' : List Outcome} (h : l'.Perm l) : Continues l l' :=
  ⟨l, [], by rw [List.append_nil]; exact h, List.forall₂_same.mpr fun o _ => .refl o, by simp⟩

theorem Continues.trans {l l' l'' : List Outcome} (h : Continues l l') (h' : Continues l' l'') :
    Continues l l'' := by
  obtain ⟨kept, added, hPerm, hKept, hAdded⟩ := h
  obtain ⟨kept', added', hPerm', hKept', hAdded'⟩ := h'
  -- what becomes of the second list, in the order in which it goes on from the first
  obtain ⟨both, hBoth, hOrder⟩ := List.perm_comp_forall₂ hPerm.symm hKept'
  obtain ⟨kept'', added'', hKept'', hAdded'', rfl⟩ := forall₂_append_left_iff.mp hBoth
  refine ⟨kept'', added'' ++ added', ?_, ?_, ?_⟩
  · rw [← List.append_assoc]
    exact hPerm'.trans (hOrder.symm.append_right added')
  · refine (forall₂_of_common hKept.flip hKept'').imp ?_
    rintro o o'' ⟨o', _, hGrows, hGrows'⟩
    exact hGrows.trans hGrows'
  · intro o'' ho
    rcases List.mem_append.mp ho with ho | ho
    · obtain ⟨o, hMem, hGrows⟩ := exists_mem_of_forall₂ hAdded'' ho
      exact hGrows.isGrounded (hAdded o hMem)
    · exact hAdded' o'' ho

/-- What counts more for an outcome with more findings never goes down. -/
theorem Continues.sum_le {l l' : List Outcome} (h : Continues l l') {f : Outcome → ℕ}
    (hf : ∀ o o', GrowsInto o o' → f o ≤ f o') : (l.map f).sum ≤ (l'.map f).sum := by
  obtain ⟨kept, added, hPerm, hKept, _⟩ := h
  have hLe : (l.map f).sum ≤ (kept.map f).sum := by
    apply List.Forall₂.sum_le_sum
    rw [List.forall₂_map_left_iff, List.forall₂_map_right_iff]
    exact hKept.imp hf
  rw [(hPerm.map f).sum_eq, List.map_append, List.sum_append]
  omega

/-! ## Operations -/

namespace Operation

/-- An operation takes no outcome and no finding away. -/
theorem continues_of_apply [Yaml.Wording] {l l' : List Outcome} {operation : Operation}
    (h : apply l operation = some l') : Continues l l' := by
  cases operation with
  | block b =>
    obtain rfl := Option.some.inj h
    exact continues_append (List.forall_mem_singleton.mpr (isGrounded_of_location rfl))
  | fileFailure filename finding =>
    obtain rfl := Option.some.inj h
    exact continues_append (List.forall_mem_singleton.mpr (isGrounded_fileFailure filename finding))
  | push index finding =>
    obtain ⟨_, hChanged⟩ := Option.ite_none_right_eq_some.mp h
    obtain rfl := Option.some.inj hChanged
    exact continues_of_forall₂ (forall₂_modify .refl (growsInto_push · finding) l index)
  | pushValidation index text =>
    obtain ⟨_, hChanged⟩ := Option.ite_none_right_eq_some.mp h
    obtain rfl := Option.some.inj hChanged
    exact continues_of_forall₂ (forall₂_modify .refl (growsInto_pushValidation · text) l index)
  | source config filename text =>
    obtain rfl := Option.some.inj h
    apply continues_append
    intro o ho
    obtain ⟨b, _, rfl⟩ := List.mem_map.mp ho
    exact isGrounded_of_location (location_ofBlock b)
  | sort =>
    obtain rfl := Option.some.inj h
    exact continues_of_perm (sort_perm l)

/-- Neither do operations one after another. -/
theorem continues_of_applyAll [Yaml.Wording] {operations : List Operation} {l l' : List Outcome}
    (h : applyAll l operations = some l') : Continues l l' := by
  induction operations generalizing l with
  | nil =>
    obtain rfl := Option.some.inj h
    exact continues_refl l
  | cons operation operations ih =>
    rw [applyAll, List.foldlM_cons] at h
    obtain ⟨next, hFirst, hRest⟩ := Option.bind_eq_some_iff.mp h
    exact (continues_of_apply hFirst).trans (ih hRest)

end Operation

/-! ## Totals -/

/-- Totals of a list that goes on do not go down. -/
theorem Continues.totals_le {l l' : List Outcome} (h : Continues l l') :
    (Summary.ofOutcomes l).errors ≤ (Summary.ofOutcomes l').errors ∧
    (Summary.ofOutcomes l).failed ≤ (Summary.ofOutcomes l').failed ∧
    (Summary.ofOutcomes l).exitCode ≤ (Summary.ofOutcomes l').exitCode := by
  have hErrors : (Summary.ofOutcomes l).errors ≤ (Summary.ofOutcomes l').errors := by
    rw [Summary.errors_eq_sum, Summary.errors_eq_sum]
    exact h.sum_le fun o o' hGrows => hGrows.findings.length_le
  refine ⟨hErrors, ?_, ?_⟩
  · rw [Summary.failed_eq_sum, Summary.failed_eq_sum]
    apply h.sum_le
    intro o o' hGrows
    cases hPassed : o.passed with
    | true => exact Nat.zero_le _
    | false => rw [hGrows.not_passed hPassed]
  · unfold Summary.exitCode
    omega

/-- A list that goes on from nothing has grounded outcomes only. -/
theorem Continues.isGrounded {l : List Outcome} (h : Continues [] l) : ∀ o ∈ l, o.IsGrounded := by
  obtain ⟨kept, added, hPerm, hKept, hAdded⟩ := h
  obtain rfl := List.forall₂_nil_left_iff.mp hKept
  intro o ho
  exact hAdded o (hPerm.mem_iff.mp ho)

/-- After any operations on a list that was empty at first, an outcome without a location has no
    document and at least one finding, and an outcome passed iff it has none. Every outcome of an
    earlier list is still there, with the same place and document and with its findings, perhaps with
    others behind them; so it has failed if it had failed. Each outcome passed or failed, there are no
    fewer findings than outcomes that failed, and the exit status is the number of findings, or 255
    where there are more, and 0 iff no outcome failed. Sorting changes none of the totals, and the
    findings, the failed outcomes and the exit status have not become fewer since the earlier list. -/
theorem totals_of_applyAll [Yaml.Wording] {before after : List Operation} {earlier l : List Outcome}
    (hBefore : Operation.applyAll [] before = some earlier)
    (hAfter : Operation.applyAll earlier after = some l) :
    (∀ o ∈ l, (o.location = none → o.rawText = [] ∧ 1 ≤ o.findings.length) ∧
      (o.passed = true ↔ o.findings = [])) ∧
    (∃ kept added, l.Perm (kept ++ added) ∧
      List.Forall₂ (fun o o' => GrowsInto o o' ∧ (o.passed = false → o'.passed = false)) earlier
        kept) ∧
    (Summary.ofOutcomes l = l.foldl Summary.tally ⟨l.length, 0, 0, 0⟩ ∧
      (Summary.ofOutcomes l).passed + (Summary.ofOutcomes l).failed =
        (Summary.ofOutcomes l).outcomes ∧
      (Summary.ofOutcomes l).failed ≤ (Summary.ofOutcomes l).errors ∧
      (Summary.ofOutcomes l).exitCode = min 255 (Summary.ofOutcomes l).errors ∧
      ((Summary.ofOutcomes l).exitCode = 0 ↔ (Summary.ofOutcomes l).failed = 0) ∧
      Summary.ofOutcomes (sort l) = Summary.ofOutcomes l) ∧
    (Summary.ofOutcomes earlier).errors ≤ (Summary.ofOutcomes l).errors ∧
    (Summary.ofOutcomes earlier).failed ≤ (Summary.ofOutcomes l).failed ∧
    (Summary.ofOutcomes earlier).exitCode ≤ (Summary.ofOutcomes l).exitCode := by
  have hEarlier := Operation.continues_of_applyAll hBefore
  have hLater := Operation.continues_of_applyAll hAfter
  have hGrounded := (hEarlier.trans hLater).isGrounded
  have hExit : (Summary.ofOutcomes l).exitCode = min 255 (Summary.ofOutcomes l).errors :=
    Nat.min_comm _ _
  refine ⟨?_, ?_, ⟨Summary.ofOutcomes_eq_foldl l, Summary.passed_add_failed l,
    Summary.failed_le_errors l, hExit, ?_, Summary.ofOutcomes_eq_of_perm (sort_perm l)⟩,
    hLater.totals_le⟩
  · intro o ho
    refine ⟨?_, passed_iff⟩
    intro hLocation
    obtain ⟨hText, hFindings⟩ := hGrounded o ho hLocation
    exact ⟨hText, List.length_pos_iff.mpr hFindings⟩
  · obtain ⟨kept, added, hPerm, hKept, _⟩ := hLater
    exact ⟨kept, added, hPerm, hKept.imp fun o o' hGrows => ⟨hGrows, hGrows.not_passed⟩⟩
  · rw [hExit, ← Summary.errors_eq_zero_iff]
    omega

/-- A failed path, a source file with one block, and a block about which nothing is found. -/
def gathering : List Operation :=
  [.fileFailure (.ofString "b.rego") (.io "gone"),
    .source .default (.ofString "a.rego") "# METADATA: library-snippet".toList,
    .block ⟨.ofString "a.rego", .ofIndex 4, 6, []⟩]

/-- What is gathered by `gathering`. -/
def gathered : List Outcome :=
  [fileFailure (.ofString "b.rego") (.io "gone"),
    ⟨.ofString "a.rego", some (.ofIndex 0), [],
      [.schema "(root)" "title and description of the snippet must be strings"]⟩,
    forBlock ⟨.ofString "a.rego", .ofIndex 4, 6, []⟩]

/-- What is gathered by `gathering` gets two more findings and is sorted. -/
def revising : List Operation := [.pushValidation 2 [], .push 0 (.io "torn"), .sort]

/-- The totals before and after `revising`. -/
theorem totals_of_applyAll_revising :
    ∃ earlier l, Operation.applyAll [] gathering = some earlier ∧
      Operation.applyAll earlier revising = some l ∧
      Summary.ofOutcomes earlier = ⟨3, 1, 2, 2⟩ ∧ Summary.ofOutcomes l = ⟨3, 0, 3, 4⟩ ∧
      (∀ o ∈ l, o.location = none → o.rawText = [] ∧ 1 ≤ o.findings.length) ∧
      (Summary.ofOutcomes earlier).exitCode ≤ (Summary.ofOutcomes l).exitCode := by
  have hBefore : Operation.applyAll [] gathering = some gathered := by decide +kernel
  obtain ⟨l, hAfter, hLater⟩ : ∃ l, Operation.applyAll gathered revising = some l ∧
      Summary.ofOutcomes l = ⟨3, 0, 3, 4⟩ := by
    refine ⟨_, rfl, ?_⟩
    rw [Summary.ofOutcomes_eq_of_perm (sort_perm _)]
    decide +kernel
  obtain ⟨hOutcomes, _, _, _, _, hExit⟩ := totals_of_applyAll hBefore hAfter
  exact ⟨gathered, l, hBefore, hAfter, by decide +kernel, hLater, fun o ho => (hOutcomes o ho).1, hExit⟩

end SnippetAudit.Outcome
