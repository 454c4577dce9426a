import SnippetAudit.Proofs.Report.JsonReport

/-!
# Reports that run out of room

A report goes to its writer in pieces. However it is cut, a writer with room for some bytes gets
the first bytes of the report, as many as there is room for, and is left alone after that. Which of
the three failures is told depends on where the room ends: within the report, before the line feed
behind a JSON array, or behind all that can be written before a file name that is no text.

Results:
* `Cutting.render_eq`: the pieces make no difference.
* `run_render_text_cases`, `run_render_json_cases`: how the writing ends, by the room.
* `run_render_of_room`: what is written, when all is well, and which failure is told.
-/

namespace SnippetAudit.Report

open Text

/-! ## Specification -/

/-- What a writer without a limit gets of a report. -/
def received (format : Format) (root : Path) (outcomes : List Outcome) : List UInt8 :=
  ((render format root outcomes).run (.empty none false)).2.written

/-- Every value of the report can be written. Only a JSON report has values, and only a file name
    may be one that cannot. -/
def Format.Serializes (format : Format) (outcomes : List Outcome) : Prop :=
  format = .json → ∀ o ∈ outcomes, IsText o.filename.bytes

/-- A way to hand a text to a writer in pieces. -/
structure Cutting where
  pieces : List Char → List (List Char)
  /-- The pieces are the text. -/
  flatten_pieces : ∀ text, (pieces text).flatten = text

namespace Cutting

/-- Writes a text piece by piece. Behind the first piece that does not fit none is tried. -/
def put (c : Cutting) (failure : String → Failure) (text : List Char) : Writing Unit :=
  forM (c.pieces text) (Writing.put failure)

/-- Writes the report of outcomes piece by piece. -/
def render (c : Cutting) (format : Format) (root : Path) (outcomes : List Outcome) : Writing Unit :=
  match format with
  | .text => c.put .write (textReport root outcomes)
  | .json => do
    let output := jsonReport outcomes
    c.put .serialize output.text
    if !output.isComplete then throw .path
    c.put .write ['\n']

end Cutting

/-! ## Pieces -/

namespace Cutting

theorem put_eq (c : Cutting) (failure : String → Failure) (text : List Char) :
    c.put failure text = Writing.put failure text := by
  rw [put, Writing.forM_put, c.flatten_pieces]

/-- The pieces in which a report is written make no difference. -/
theorem render_eq (c : Cutting) : c.render = Report.render := by
  funext format root outcomes
  cases format with
  | text =>
    rw [Report.render, renderText_eq]
    exact c.put_eq _ _
  | json =>
    unfold render Report.render renderJson
    simp only [put_eq]

end Cutting

/-! ## What is received -/

variable {s : Sink} {n : ℕ}

theorem received_eq (format : Format) (root : Path) (outcomes : List Outcome) :
    received format root outcomes = format.reportBytes root outcomes := by
  rw [received, (run_render format root outcomes _).1, Sink.written_write]
  rfl

/-- Behind the array of a JSON report stands a line feed, if the array is written in full. -/
theorem received_json (root : Path) (outcomes : List Outcome) :
    received .json root outcomes = Utf8.encode (jsonReport outcomes).text ++
      if (jsonReport outcomes).isComplete then [0x0A] else [] := by
  rw [received_eq, Format.reportBytes, Format.reportText, Utf8.encode_append]
  cases (jsonReport outcomes).isComplete <;> rfl

/-! ## How the writing ends -/

theorem fits_iff {bytes : List UInt8} (hRoom : s.room = some n) :
    s.Fits bytes ↔ bytes.length ≤ n := by
  simp [Sink.Fits, hRoom]

theorem run_put_of_room (failure : String → Failure) (text : List Char) (hRoom : s.room = some n) :
    ((Writing.put failure text).run s).1 =
      if (Utf8.encode text).length ≤ n then .ok () else .error (failure s.fullCause) := by
  by_cases hLength : (Utf8.encode text).length ≤ n
  · rw [Writing.run_put_of_fits failure ((fits_iff hRoom).mpr hLength), if_pos hLength]
  · rw [Writing.run_put_of_not_fits failure (mt (fits_iff hRoom).mp hLength), if_neg hLength]

/-- A text report is written in full, or it could not be written. -/
theorem run_render_text_cases (root : Path) (outcomes : List Outcome) (hRoom : s.room = some n) :
    (((render .text root outcomes).run s).1 = .ok () ∧ (received .text root outcomes).length ≤ n) ∨
    (((render .text root outcomes).run s).1 = .error (.write s.fullCause) ∧
      n < (received .text root outcomes).length) := by
  have hEnding : ((render .text root outcomes).run s).1 =
      if (received .text root outcomes).length ≤ n then .ok () else .error (.write s.fullCause) := by
    rw [received_eq, render, renderText_eq]
    exact run_put_of_room .write (textReport root outcomes) hRoom
  by_cases hLength : (received .text root outcomes).length ≤ n
  · exact .inl ⟨by rw [hEnding, if_pos hLength], hLength⟩
  · exact .inr ⟨by rw [hEnding, if_neg hLength], Nat.lt_of_not_le hLength⟩

/-- A JSON report could not be serialized if its array does not fit. If it fits, a value that has no
    text is told, or else it is the line feed that decides. -/
theorem run_render_json_cases (root : Path) (outcomes : List Outcome) (hRoom : s.room = some n) :
    let array := Utf8.encode (jsonReport outcomes).text
    let ending := ((render .json root outcomes).run s).1
    (ending = .ok () ∧ (jsonReport outcomes).isComplete = true ∧ array.length + 1 ≤ n) ∨
    (ending = .error (.write s.fullCause) ∧ (jsonReport outcomes).isComplete = true ∧
      n = array.length) ∨
    (ending = .error .path ∧ (jsonReport outcomes).isComplete = false ∧ array.length ≤ n) ∨
    (ending = .error (.serialize s.fullCause) ∧ n < array.length) := by
  intro array ending
  by_cases hArray : array.length ≤ n
  · have hFits : s.Fits array := (fits_iff hRoom).mpr hArray
    cases hText : (jsonReport outcomes).isComplete with
    | false =>
      have hEnding : ending = .error .path :=
        congrArg Prod.fst (run_render_json_of_not_complete root s hText hFits)
      exact .inr (.inr (.inl ⟨hEnding, rfl, hArray⟩))
    | true =>
      have hRest : (s.write array).2.room = some (n - array.length) := by
        rw [Sink.write, hRoom]
      have hFeed : ending = if 1 ≤ n - array.length then .ok () else .error (.write s.fullCause) := by
        rw [← s.fullCause_write array]
        exact (congrArg Prod.fst (run_render_json_of_complete root hText hFits)).trans
          (run_put_of_room .write ['\n'] hRest)
      by_cases hRoomLeft : 1 ≤ n - array.length
      · exact .inl ⟨by rw [hFeed, if_pos hRoomLeft], rfl, by omega⟩
      · exact .inr (.inl ⟨by rw [hFeed, if_neg hRoomLeft], rfl, by omega⟩)
  · have hEnding : ending = .error (.serialize s.fullCause) :=
      congrArg Prod.fst (run_render_json_of_not_fits root (mt (fits_iff hRoom).mp hArray))
    exact .inr (.inr (.inr ⟨hEnding, Nat.lt_of_not_le hArray⟩))

/-! ## Reports with a limit -/

theorem Format.serializes_json_iff {outcomes : List Outcome} :
    Format.json.Serializes outcomes ↔ (jsonReport outcomes).isComplete = true := by
  rw [isComplete_jsonReport_iff]
  exact ⟨fun h => h rfl, fun h _ => h⟩

theorem isComplete_jsonReport_eq_false_iff {outcomes : List Outcome} :
    (jsonReport outcomes).isComplete = false ↔ ∃ o ∈ outcomes, ¬ IsText o.filename.bytes := by
  rw [← Bool.not_eq_true, isComplete_jsonReport_iff]
  simp

/-- A failure told with its message is that failure. -/
theorem mapError_eq_error_iff {ending : Except Failure Unit} {failure : Failure} :
    (ending.mapError fun failure => (failure, failure.message)) =
      .error (failure, failure.message) ↔ ending = .error failure := by
  cases ending with
  | ok _ => simp [Except.mapError]
  | error other =>
    simp only [Except.mapError, Except.error.injEq, Prod.mk.injEq]
    exact and_iff_left_of_imp fun h => h ▸ rfl

theorem mapError_eq_ok_iff {ending : Except Failure Unit} :
    (ending.mapError fun failure => (failure, failure.message)) = .ok () ↔ ending = .ok () := by
  cases ending <;> simp [Except.mapError]

/-- With room for `n` bytes a sink gets the first `n` bytes of what a writer without a limit gets,
    and nothing else, in whatever pieces it is handed over. All is well iff every value can be
    written and there is room for everything. A text report that does not fit could not be written.
    For a JSON report this is told where just the line feed behind the array does not fit; where the
    array does not fit it could not be serialized, and a path that is no text is to blame iff
    everything before it fits. The cause that is told is the sink's, but for such a path. -/
theorem run_render_of_room (cutting : Cutting) (format : Format) (root : Path)
    (outcomes : List Outcome) (sink : Sink) (n : ℕ) :
    let limited : Sink := { sink with room := some n }
    let full := received format root outcomes
    let array := Utf8.encode (jsonReport outcomes).text
    let ending := (cutting.render format root outcomes).run limited
    let told := ending.1.mapError fun failure => (failure, failure.message)
    ending = (render format root outcomes).run limited ∧
    ending.2.written = sink.written ++ full.take n ∧
    ending.2.written.length = sink.written.length + min n full.length ∧
    (format = .json → (∃ o ∈ outcomes, ¬ IsText o.filename.bytes) → full = array) ∧
    (format = .json → (∀ o ∈ outcomes, IsText o.filename.bytes) → full = array ++ [0x0A]) ∧
    (told = .ok () ↔ format.Serializes outcomes ∧ full.length ≤ n) ∧
    (told = .error (.write sink.fullCause, "failed to write report: " ++ sink.fullCause) ↔
      (format = .text ∧ n < full.length) ∨
      (format = .json ∧ format.Serializes outcomes ∧ ending.2.written = sink.written ++ array ∧
        n + 1 = full.length)) ∧
    (told = .error (.serialize sink.fullCause, "failed to serialize report: " ++ sink.fullCause) ↔
      format = .json ∧ n < array.length) ∧
    (told = .error (.path, "failed to serialize report: path contains invalid UTF-8 characters") ↔
      format = .json ∧ ¬ format.Serializes outcomes ∧ full.length ≤ n) := by
  intro limited full array ending told
  have hEnding : ending = (render format root outcomes).run limited := by
    show (cutting.render format root outcomes).run _ = _
    rw [cutting.render_eq]
  have hWritten : ending.2.written = sink.written ++ full.take n := by
    rw [hEnding, (run_render format root outcomes _).1, Sink.written_write, ← received_eq]
    rfl
  have hOk : told = .ok () ↔ ((render format root outcomes).run limited).1 = .ok () := by
    rw [← hEnding]
    exact mapError_eq_ok_iff
  have hTold (failure : Failure) : told = .error (failure, failure.message) ↔
      ((render format root outcomes).run limited).1 = .error failure := by
    rw [← hEnding]
    exact mapError_eq_error_iff
  have hWrite : told = .error (.write _, "failed to write report: " ++ sink.fullCause) ↔ _ :=
    hTold (.write sink.fullCause)
  have hSerialize : told = .error (.serialize _, "failed to serialize report: " ++ sink.fullCause) ↔ _ :=
    hTold (.serialize sink.fullCause)
  have hPath : told =
      .error (.path, "failed to serialize report: path contains invalid UTF-8 characters") ↔ _ :=
    hTold .path
  have hLength : ending.2.written.length = sink.written.length + min n full.length := by
    rw [hWritten, List.length_append, List.length_take]
  refine ⟨hEnding, hWritten, hLength, ?_⟩
  rw [hWritten, hOk, hWrite, hSerialize, hPath]
  cases format with
  | text =>
    rcases run_render_text_cases root outcomes (s := limited) rfl with
      ⟨hResult, hLength⟩ | ⟨hResult, hLength⟩
    · rw [hResult]
      simp [Format.Serializes, full, hLength]
    · rw [hResult]
      simp [limited, full, hLength]
  | json =>
    have hFull : full = array ++ if (jsonReport outcomes).isComplete then [0x0A] else [] :=
      received_json root outcomes
    rw [Format.serializes_json_iff, ← isComplete_jsonReport_eq_false_iff, ← isComplete_jsonReport_iff,
      hFull]
    rcases run_render_json_cases root outcomes (s := limited) rfl with
      ⟨hResult, hComplete, (hLength : array.length + 1 ≤ n)⟩ |
      ⟨hResult, hComplete, (hLength : n = array.length)⟩ |
      ⟨hResult, hComplete, (hLength : array.length ≤ n)⟩ | ⟨hResult, (hLength : n < array.length)⟩
    · have hLine : n ≠ array.length := by omega
      rw [hResult, hComplete]
      simp [hLength, hLine, Nat.le_of_lt hLength]
    · rw [hResult, hComplete]
      simp [limited, hLength]
    · rw [hResult, hComplete]
      simp [hLength]
    · have hLong : ¬ array.length + 1 ≤ n := by omega
      have hLine : n ≠ array.length := by omega
      rw [hResult]
      cases (jsonReport outcomes).isComplete <;>
        simp [limited, hLength, hLong, hLine]

end SnippetAudit.Report
