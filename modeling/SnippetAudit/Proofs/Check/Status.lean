import Mathlib.Data.Nat.Notation
import SnippetAudit.CommandLine
import SnippetAudit.Proofs.Outcome.Verdict
import SnippetAudit.Proofs.Report.Writing
import SnippetAudit.Tree.Memory

/-!
# The status of a check and what it has written

A check has a status iff its configuration is loaded, its walk comes to an end, and its report is
written in full and handed on. The status is then the number of outcomes that did not pass, up to
255.

A check without a status has written nothing if it never came to its report. If it came to it, it
has written as much of the report as there was room for, so a fatal check can have an output. A
check with a status other than zero always has one.

Results:
* `found_eq_ok_iff`: the outcomes that a check comes to.
* `run_of_found_error`, `run_of_delivers`, `run_of_not_delivers`: the three ways a check ends.
* `run_eq_ok_iff`: when a check has a status, which one it is, and what has been written then.
* `output_of_run`: what has been written when there is no status, and when there is one.
* `fatal_with_output`: two fatal checks that have written something.
-/

namespace SnippetAudit

open Text Report

namespace Check

/-! ## Specification -/

/-- The sorted outcomes that a check comes to, or why it comes to none. -/
def found [Yaml.Wording] (c : Check) (fs : FileSystem) (depth : ℕ) : Except Fatal (List Outcome) :=
  loadConfig fs c.configFile >>= c.outcomes fs depth

/-- The report of a check as bytes. -/
def reportBytes (c : Check) (outcomes : List Outcome) : List UInt8 :=
  c.format.reportBytes c.root outcomes

/-- The report can be written to the sink in full and handed on. -/
structure Delivers (c : Check) (sink : Sink) (outcomes : List Outcome) : Prop where
  canWrite : c.format.CanWrite outcomes
  fits : sink.Fits (c.reportBytes outcomes)
  flush : sink.flushFails = false

variable {c : Check} {fs : FileSystem} {depth code : ℕ} {sink : Sink} {outcomes : List Outcome}

/-! ## Three ways to end -/

theorem found_eq_ok_iff [Yaml.Wording] :
    c.found fs depth = .ok outcomes ↔
      ∃ config v, loadConfig fs c.configFile = .ok config ∧
        Visit.ofPath? fs depth c.root = some v ∧ Walk.crash? fs config v = none ∧
        outcomes = Outcome.sort (Walk.outcomes fs config v) := by
  unfold found
  cases hConfig : loadConfig fs c.configFile with
  | error fatal => simp [bind, Except.bind]
  | ok config =>
    show c.outcomes fs depth config = .ok outcomes ↔ _
    unfold Check.outcomes
    cases hVisit : Visit.ofPath? fs depth c.root with
    | none => simp
    | some v =>
      unfold Walk.ending
      cases hCrash : Walk.crash? fs config v with
      | some message => simp [hCrash]
      | none => simp [hCrash, eq_comm]

/-- A check comes to its outcomes, and then writes its report and hands it on. -/
theorem run_eq [Yaml.Wording] (c : Check) (fs : FileSystem) (depth : ℕ) (sink : Sink) :
    c.run fs depth sink =
      match c.found fs depth with
      | .error fatal => (.error fatal, sink)
      | .ok outcomes =>
        match (render c.format c.root outcomes >>= fun _ => Writing.flush).run sink with
        | (.error failure, sink) => (.error (.report failure), sink)
        | (.ok (), sink) => (.ok (Summary.ofOutcomes outcomes).exitCode, sink) := rfl

/-- A check that comes to no outcomes writes nothing. -/
theorem run_of_found_error [Yaml.Wording] {fatal : Fatal} (sink : Sink)
    (h : c.found fs depth = .error fatal) :
    c.run fs depth sink = (.error fatal, sink) := by
  rw [run_eq, h]

theorem run_of_found_ok [Yaml.Wording] (sink : Sink) (h : c.found fs depth = .ok outcomes) :
    c.run fs depth sink =
      match (render c.format c.root outcomes >>= fun _ => Writing.flush).run sink with
      | (.error failure, sink) => (.error (.report failure), sink)
      | (.ok (), sink) => (.ok (Summary.ofOutcomes outcomes).exitCode, sink) := by
  rw [run_eq, h]

theorem run_of_delivers [Yaml.Wording] (h : c.found fs depth = .ok outcomes)
    (hDelivers : c.Delivers sink outcomes) :
    c.run fs depth sink = (.ok (Summary.ofOutcomes outcomes).exitCode,
      { (sink.write (c.reportBytes outcomes)).2 with flushed := true }) := by
  obtain ⟨hWritten, hOk⟩ := run_render c.format c.root outcomes sink
  have hRender : (render c.format c.root outcomes).run sink =
      (.ok (), (sink.write (c.reportBytes outcomes)).2) :=
    Prod.ext (hOk.mpr ⟨hDelivers.canWrite, hDelivers.fits⟩) hWritten
  have hFlush : (sink.write (c.reportBytes outcomes)).2.flushFails = false := by
    rw [Sink.flushFails_write, hDelivers.flush]
  rw [run_of_found_ok sink h, Writing.run_bind, hRender]
  simp only
  rw [Writing.run_flush, hFlush]
  rfl

theorem run_of_not_delivers [Yaml.Wording] (h : c.found fs depth = .ok outcomes)
    (hNot : ¬ c.Delivers sink outcomes) :
    ∃ failure, c.run fs depth sink =
      (.error (.report failure), (sink.write (c.reportBytes outcomes)).2) := by
  obtain ⟨hWritten, hOk⟩ := run_render c.format c.root outcomes sink
  rw [run_of_found_ok sink h, Writing.run_bind]
  cases hRender : (render c.format c.root outcomes).run sink with
  | mk result sink' =>
    rw [hRender] at hWritten hOk
    simp only at hWritten hOk
    cases result with
    | error failure => exact ⟨failure, by rw [hWritten]; rfl⟩
    | ok _ =>
      -- the report is written, so it must be the flush that fails
      obtain ⟨hCan, hFits⟩ := hOk.mp rfl
      have hFlush : sink'.flushFails = true := by
        rw [hWritten, Sink.flushFails_write, ← Bool.not_eq_false]
        exact fun hFalse => hNot ⟨hCan, hFits, hFalse⟩
      refine ⟨.flush sink'.flushCause, ?_⟩
      simp only
      rw [Writing.run_flush, hFlush, hWritten]
      rfl

/-! ## The status -/

/-- Where a status comes from. -/
theorem exists_found_of_run [Yaml.Wording] {sink' : Sink}
    (hRun : c.run fs depth sink = (.ok code, sink')) :
    ∃ outcomes, c.found fs depth = .ok outcomes ∧ c.Delivers sink outcomes ∧
      code = (Summary.ofOutcomes outcomes).exitCode ∧
      sink' = { (sink.write (c.reportBytes outcomes)).2 with flushed := true } ∧
      sink'.written = sink.written ++ c.reportBytes outcomes := by
  cases hFound : c.found fs depth with
  | error fatal =>
    rw [run_of_found_error sink hFound] at hRun
    cases hRun
  | ok outcomes =>
    by_cases hDelivers : c.Delivers sink outcomes
    · rw [run_of_delivers hFound hDelivers] at hRun
      cases hRun
      refine ⟨outcomes, rfl, hDelivers, rfl, rfl, ?_⟩
      show (sink.write (c.reportBytes outcomes)).2.written = _
      rw [Sink.written_write, Sink.accepted_of_fits hDelivers.fits]
    · obtain ⟨failure, hFailure⟩ := run_of_not_delivers hFound hDelivers
      rw [hFailure] at hRun
      cases hRun

theorem isVerdict_of_found [Yaml.Wording] (h : c.found fs depth = .ok outcomes) :
    ∀ o ∈ outcomes, o.IsVerdict := by
  obtain ⟨config, v, _, _, _, rfl⟩ := found_eq_ok_iff.mp h
  intro o ho
  exact Walk.isVerdict_of_mem_outcomes ((Outcome.sort_perm _).mem_iff.mp ho)

/-- However many outcomes did not pass, the status is zero only if there are none. -/
theorem min_countP_eq_zero_iff :
    min 255 (outcomes.countP (!·.passed)) = 0 ↔ ∀ o ∈ outcomes, o.passed = true := by
  have hMin : min 255 (outcomes.countP (!·.passed)) = 0 ↔ outcomes.countP (!·.passed) = 0 := by omega
  rw [hMin, List.countP_eq_zero]
  simp

/-- A check has a status iff it comes to outcomes and its report can be delivered. Then all of the
    report is written and handed on, each outcome is a verdict, and the status is the number of
    those that did not pass, up to 255. -/
theorem run_eq_ok_iff [Yaml.Wording] {sink' : Sink} :
    c.run fs depth sink = (.ok code, sink') ↔
      ∃ config v outcomes, loadConfig fs c.configFile = .ok config ∧
        Visit.ofPath? fs depth c.root = some v ∧ Walk.crash? fs config v = none ∧
        outcomes = Outcome.sort (Walk.outcomes fs config v) ∧ c.Delivers sink outcomes ∧
        sink' = { (sink.write (c.reportBytes outcomes)).2 with flushed := true } ∧
        sink'.written = sink.written ++ c.reportBytes outcomes ∧
        (∀ o ∈ outcomes, o.IsVerdict) ∧
        code = min 255 (outcomes.countP (!·.passed)) ∧
        (code = 0 ↔ ∀ o ∈ outcomes, o.passed = true) := by
  constructor
  · intro hRun
    obtain ⟨outcomes, hFound, hDelivers, hCode, hSink, hWritten⟩ := exists_found_of_run hRun
    have hVerdicts := isVerdict_of_found hFound
    obtain ⟨config, v, hConfig, hVisit, hCrash, hOutcomes⟩ := found_eq_ok_iff.mp hFound
    rw [Summary.exitCode_of_forall_isVerdict hVerdicts] at hCode
    refine ⟨config, v, outcomes, hConfig, hVisit, hCrash, hOutcomes, hDelivers, hSink, hWritten,
      hVerdicts, hCode, ?_⟩
    rw [hCode]
    exact min_countP_eq_zero_iff
  · rintro ⟨config, v, outcomes, hConfig, hVisit, hCrash, hOutcomes, hDelivers, rfl, _, hVerdicts,
      rfl, _⟩
    have hFound := found_eq_ok_iff.mpr ⟨config, v, hConfig, hVisit, hCrash, hOutcomes⟩
    rw [run_of_delivers hFound hDelivers, Summary.exitCode_of_forall_isVerdict hVerdicts]

/-! ## The output -/

theorem reportBytes_ne_nil (h : outcomes ≠ []) : c.reportBytes outcomes ≠ [] := by
  intro hNil
  have hText : c.format.reportText c.root outcomes = [] := by
    rw [← Utf8.decodeLossy_encode (c.format.reportText c.root outcomes)]
    exact congrArg Utf8.decodeLossy hNil
  obtain ⟨o, rest, rfl⟩ := List.exists_cons_of_ne_nil h
  cases hFormat : c.format with
  | text =>
    rw [hFormat] at hText
    simp [Format.reportText, textReport, unlines, Outcome.reportLines] at hText
  | json =>
    rw [hFormat] at hText
    simp [Format.reportText, jsonReport, Json.print, Output.text] at hText

/-- What a check has written. Without a status it is nothing, if there are no outcomes; else it is as
    much of the report as there was room for. With a status other than zero it is something. -/
theorem output_of_run [Yaml.Wording] (c : Check) (fs : FileSystem) (depth : ℕ) (sink : Sink) :
    ∃ out, (c.run fs depth sink).2.written = sink.written ++ out ∧
      (∀ fatal, (c.run fs depth sink).1 = .error fatal →
        (c.found fs depth = .error fatal ∧ out = []) ∨
        ∃ outcomes failure, c.found fs depth = .ok outcomes ∧ fatal = .report failure ∧
          ¬ c.Delivers sink outcomes ∧ out = sink.accepted (c.reportBytes outcomes) ∧
          (out = [] ↔ c.reportBytes outcomes = [] ∨ sink.room = some 0)) ∧
      ∀ code, (c.run fs depth sink).1 = .ok code → 0 < code → out ≠ [] := by
  cases hFound : c.found fs depth with
  | error fatal =>
    rw [run_of_found_error sink hFound]
    refine ⟨[], (List.append_nil _).symm, ?_, ?_⟩
    · intro fatal' hFatal
      exact .inl ⟨by rw [Except.error.inj hFatal], rfl⟩
    · intro code hCode
      cases hCode
  | ok outcomes =>
    by_cases hDelivers : c.Delivers sink outcomes
    · rw [run_of_delivers hFound hDelivers]
      refine ⟨_, Sink.written_write, ?_, ?_⟩
      · intro fatal hFatal
        cases hFatal
      · intro code hCode hPos
        rw [Sink.accepted_of_fits hDelivers.fits]
        apply reportBytes_ne_nil
        rintro rfl
        rw [← Except.ok.inj hCode] at hPos
        exact absurd hPos (by decide)
    · obtain ⟨failure, hRun⟩ := run_of_not_delivers hFound hDelivers
      rw [hRun]
      refine ⟨_, Sink.written_write, ?_, ?_⟩
      · intro fatal hFatal
        exact .inr ⟨outcomes, failure, rfl, (Except.error.inj hFatal).symm, hDelivers, rfl,
          Sink.accepted_eq_nil_iff⟩
      · intro code hCode
        cases hCode

/-! ## Fatal checks with an output -/

/-- A check of a root where nothing is. -/
def ofNothing (root : List UInt8) (format : Format) : Check := ⟨⟨root⟩, format, none⟩

theorem found_ofNothing (root : List UInt8) (format : Format) :
    (ofNothing root format).found (MemoryTree.fileSystem []) 1 =
      .ok [.fileFailure ⟨root⟩ (.io MemoryTree.missing)] :=
  found_eq_ok_iff.mpr ⟨.default, .node ⟨root⟩ (.unstatable MemoryTree.missing) [], rfl, rfl, rfl,
    (List.mergeSort_singleton _).symm⟩

/-- The report about a root that is no text has a text up to the root. -/
theorem jsonReport_ofNothing :
    (jsonReport [.fileFailure ⟨[0xFF]⟩ (.io MemoryTree.missing)]).text =
      "[\n  \x7b\n    \"filename\": ".toList ∧
    (jsonReport [.fileFailure ⟨[0xFF]⟩ (.io MemoryTree.missing)]).isComplete = false := by
  have hPath : (Path.mk [0xFF]).json = .unwritable := by rfl
  constructor
  · simp [jsonReport, Outcome.json, Outcome.fileFailure, hPath, Json.print, Json.printItem,
      Json.printMember, Json.newLine, Json.quoted, Json.escape, Output.ofText, Output.text]
  · simp [jsonReport, Outcome.json, Outcome.fileFailure, hPath, Json.print, Json.printItem,
      Json.printMember, Output.isComplete]

/-- Two fatal checks with an output: a text report that does not fit into five bytes, and a JSON report
    with a path that is no text. -/
theorem fatal_with_output :
    (ofNothing [0x6C, 0x69, 0x62] .text).run (MemoryTree.fileSystem []) 1 (.empty (some 5) false) =
      (.error (.report (.write "disk full")),
        { Sink.empty (some 0) false with written := Utf8.encode "FAIL ".toList, flushed := false }) ∧
    (ofNothing [0xFF] .json).run (MemoryTree.fileSystem []) 1 (.empty none false) =
      (.error (.report .path),
        { Sink.empty none false with
          written := Utf8.encode "[\n  \x7b\n    \"filename\": ".toList
          flushed := false }) := by
  rw [run_of_found_ok _ (found_ofNothing _ _), run_of_found_ok _ (found_ofNothing _ _)]
  constructor
  · rfl
  · obtain ⟨hText, hComplete⟩ := jsonReport_ofNothing
    have hRender : (render (ofNothing [0xFF] .json).format (ofNothing [0xFF] .json).root
        [.fileFailure ⟨[0xFF]⟩ (.io MemoryTree.missing)]).run (.empty none false) = _ :=
      run_render_json_of_not_complete ⟨[0xFF]⟩ (.empty none false) hComplete fun n hn => (by cases hn)
    rw [Writing.run_bind, hRender, hText]
    rfl

end Check

end SnippetAudit
