import Mathlib.Tactic.Push
import SnippetAudit.Report.Render

/-!
# What a writer gets of a report

A report is one text, whatever its form, and it is written from its start. In which pieces it is
written makes no difference; a text report is written line by line. A sink gets as much of it as
there is room for and nothing else, also when the writing is given up. The writing comes to a good
end iff every value of the report has a text and all of the report fits.

Results:
* `Sink.write_append_of_not_fits`: after a text that does not fit nothing more is written.
* `Writing.forM_put`: texts in turn are written as all of them at once.
* `renderText_eq`: the lines of a text report are written as one text.
* `run_render`: what is written, and when the writing comes to a good end.
-/

namespace SnippetAudit.Report

open Text

/-! ## Specification -/

/-- The text report of outcomes, given the root that was checked. -/
def textReport (root : Path) (outcomes : List Outcome) : List Char :=
  unlines (outcomes.flatMap (·.reportLines root))

/-- The text of a report, up to a value that has none. -/
def Format.reportText (format : Format) (root : Path) (outcomes : List Outcome) : List Char :=
  match format with
  | .text => textReport root outcomes
  | .json => (jsonReport outcomes).text ++ if (jsonReport outcomes).isComplete then ['\n'] else []

/-- The text of a report as bytes. -/
def Format.reportBytes (format : Format) (root : Path) (outcomes : List Outcome) : List UInt8 :=
  Utf8.encode (format.reportText root outcomes)

/-- Every value of the report has a text. -/
def Format.CanWrite (format : Format) (outcomes : List Outcome) : Prop :=
  format = .json → (jsonReport outcomes).isComplete = true

namespace Sink

/-- There is room for all of the bytes. -/
def Fits (s : Sink) (bytes : List UInt8) : Prop := ∀ n, s.room = some n → bytes.length ≤ n

/-- As many of the bytes as there is room for. -/
def accepted (s : Sink) (bytes : List UInt8) : List UInt8 :=
  match s.room with
  | none => bytes
  | some n => bytes.take n

variable {s : Sink} {a b bytes : List UInt8}

/-! ## One text -/

theorem write_fst_iff : (s.write bytes).1 = true ↔ s.Fits bytes := by
  unfold write Fits
  cases s.room with
  | none => simp
  | some n => simp

@[simp] theorem written_write : (s.write bytes).2.written = s.written ++ s.accepted bytes := by
  unfold write accepted
  cases s.room <;> rfl

@[simp] theorem flushFails_write : (s.write bytes).2.flushFails = s.flushFails := by
  unfold write
  cases s.room <;> rfl

@[simp] theorem fullCause_write (s : Sink) (bytes : List UInt8) :
    (s.write bytes).2.fullCause = s.fullCause := by
  unfold write
  cases s.room <;> rfl

theorem write_nil (s : Sink) : s.write [] = (true, s) := by
  obtain ⟨written, room, flushFails, flushed, fullCause, flushCause⟩ := s
  cases room <;> simp [write]

theorem accepted_of_fits (h : s.Fits bytes) : s.accepted bytes = bytes := by
  unfold accepted
  cases hRoom : s.room with
  | none => rfl
  | some n => exact List.take_of_length_le (h n hRoom)

theorem accepted_eq_nil_iff : s.accepted bytes = [] ↔ bytes = [] ∨ s.room = some 0 := by
  unfold accepted
  cases s.room with
  | none => simp
  | some n => simp [or_comm]

/-! ## One text after another -/

theorem fits_append (h : s.Fits a) : s.Fits (a ++ b) ↔ (s.write a).2.Fits b := by
  rw [← write_fst_iff, write_append b (write_fst_iff.mpr h), write_fst_iff]

/-- After a text that does not fit there is room for nothing. -/
theorem write_append_of_not_fits (b : List UInt8) (h : ¬ s.Fits a) :
    (s.write (a ++ b)).2 = (s.write a).2 ∧ ¬ s.Fits (a ++ b) := by
  unfold Fits at h ⊢
  push Not at h ⊢
  obtain ⟨n, hRoom, hLength⟩ := h
  have hLonger : n < a.length := by omega
  constructor
  · have hSome : a ≠ [] := List.ne_nil_of_length_pos (Nat.zero_lt_of_lt hLonger)
    have hFlushed : (a ++ b).isEmpty = a.isEmpty := by
      rw [List.isEmpty_eq_false_iff.mpr hSome, List.isEmpty_eq_false_iff.mpr]
      exact List.append_ne_nil_of_left_ne_nil hSome b
    unfold write
    rw [hRoom]
    simp only [List.length_append, hFlushed]
    rw [List.take_append_of_le_length (by omega),
      show n - (a.length + b.length) = n - a.length by omega]
  · exact ⟨n, hRoom, by rw [List.length_append]; omega⟩

end Sink

/-! ## Writing -/

namespace Writing

variable {s s' : Sink}

/-- What is written after something else starts where that has left the sink, and after a failure
    nothing is written. -/
theorem run_bind {α β : Type} (x : Writing α) (f : α → Writing β) (s : Sink) :
    (x >>= f).run s = match x.run s with
      | (.ok a, s') => (f a).run s'
      | (.error failure, s') => (.error failure, s') := by
  show StateT.run (ExceptT.run (x >>= f)) s = match StateT.run x.run s with
    | (.ok a, s') => (f a).run s'
    | (.error failure, s') => (.error failure, s')
  rw [ExceptT.run_bind, StateT.run_bind]
  rcases StateT.run x.run s with ⟨_ | a, s'⟩
  · rfl
  · rfl

theorem run_put_of_fits (failure : String → Failure) {text : List Char} (h : s.Fits (Utf8.encode text)) :
    (put failure text).run s = (.ok (), (s.write (Utf8.encode text)).2) := by
  have hWrite : (s.write (Utf8.encode text)).1 = true := Sink.write_fst_iff.mpr h
  show (if !(s.write (Utf8.encode text)).1 then _ else _ : Writing Unit).run _ = _
  rw [hWrite]
  rfl

theorem run_put_of_not_fits (failure : String → Failure) {text : List Char}
    (h : ¬ s.Fits (Utf8.encode text)) :
    (put failure text).run s = (.error (failure s.fullCause), (s.write (Utf8.encode text)).2) := by
  have hWrite : (s.write (Utf8.encode text)).1 = false := by
    rw [Bool.eq_false_iff]
    exact fun hTrue => h (Sink.write_fst_iff.mp hTrue)
  rw [← s.fullCause_write (Utf8.encode text)]
  show (if !(s.write (Utf8.encode text)).1 then _ else _ : Writing Unit).run _ = _
  rw [hWrite]
  rfl

/-- What is written of one text, and when that is all of it. -/
theorem run_put (failure : String → Failure) (text : List Char) (s : Sink) :
    ((put failure text).run s).2 = (s.write (Utf8.encode text)).2 ∧
    (((put failure text).run s).1 = .ok () ↔ s.Fits (Utf8.encode text)) := by
  by_cases h : s.Fits (Utf8.encode text)
  · rw [run_put_of_fits failure h]
    exact ⟨rfl, fun _ => h, fun _ => rfl⟩
  · rw [run_put_of_not_fits failure h]
    exact ⟨rfl, fun hOk => (by cases hOk), fun hFits => absurd hFits h⟩

theorem run_flush (s : Sink) :
    flush.run s =
      if s.flushFails then (.error (.flush s.flushCause), s)
      else (.ok (), { s with flushed := true }) := by
  obtain ⟨written, room, flushFails, flushed, fullCause, flushCause⟩ := s
  cases flushFails with
  | true => rfl
  | false => rfl

/-! ## Pieces -/

theorem put_nil (failure : String → Failure) : put failure [] = pure () := by
  apply funext
  intro (s : Sink)
  show (put failure []).run s = (.ok (), s)
  have hFits : s.Fits (Utf8.encode []) := fun n _ => Nat.zero_le n
  rw [run_put_of_fits failure hFits]
  exact congrArg (fun written : Bool × Sink => (Except.ok (), written.2)) s.write_nil

/-- Two texts in turn are written as the two at once. -/
theorem put_bind_put (failure : String → Failure) (a b : List Char) :
    (put failure a >>= fun _ => put failure b) = put failure (a ++ b) := by
  apply funext
  intro (s : Sink)
  show (put failure a >>= fun _ => put failure b).run s = (put failure (a ++ b)).run s
  rw [run_bind]
  by_cases ha : s.Fits (Utf8.encode a)
  · rw [run_put_of_fits failure ha]
    have hWrite := s.write_append (Utf8.encode b) (Sink.write_fst_iff.mpr ha)
    have hFits := Sink.fits_append (b := Utf8.encode b) ha
    rw [← Utf8.encode_append] at hWrite hFits
    by_cases hb : (s.write (Utf8.encode a)).2.Fits (Utf8.encode b)
    · rw [run_put_of_fits failure (hFits.mpr hb), hWrite]
      exact run_put_of_fits failure hb
    · rw [run_put_of_not_fits failure (mt hFits.mp hb), hWrite, ← s.fullCause_write (Utf8.encode a)]
      exact run_put_of_not_fits failure hb
  · obtain ⟨hWrite, hFits⟩ := Sink.write_append_of_not_fits (Utf8.encode b) ha
    rw [← Utf8.encode_append] at hWrite hFits
    rw [run_put_of_not_fits failure ha, run_put_of_not_fits failure hFits, hWrite]

/-- Any number of texts in turn are written as all of them at once. -/
theorem forM_put (failure : String → Failure) (pieces : List (List Char)) :
    forM pieces (put failure) = put failure pieces.flatten := by
  induction pieces with
  | nil => rw [List.forM_nil, List.flatten_nil, put_nil]
  | cons piece pieces ih => rw [List.forM_cons, ih, put_bind_put, ← List.flatten_cons]

theorem forM_putLine (ls : List (List Char)) : forM ls putLine = put .write (unlines ls) := by
  have hPieces : forM (ls.map (· ++ ['\n'])) (put .write) = forM ls putLine := by
    induction ls with
    | nil => rfl
    | cons line ls ih =>
      rw [List.map_cons, List.forM_cons, List.forM_cons, ih]
      rfl
  rw [← hPieces, forM_put, unlines, List.flatMap_def]

end Writing

/-! ## A report -/

/-- The lines of a text report are written as one text. -/
theorem renderText_eq (root : Path) (outcomes : List Outcome) :
    renderText root outcomes = .put .write (textReport root outcomes) := by
  unfold renderText textReport
  induction outcomes with
  | nil => rw [List.forM_nil, List.flatMap_nil, unlines, List.flatMap_nil, Writing.put_nil]
  | cons o outcomes ih =>
    rw [List.forM_cons, ih, Writing.forM_putLine, Writing.put_bind_put, List.flatMap_cons, unlines,
      unlines, unlines, List.flatMap_append]

/-- Behind the array of a JSON report comes a line feed, or a value that has no text is told. -/
theorem render_json_eq (root : Path) (outcomes : List Outcome) :
    render .json root outcomes = (Writing.put .serialize (jsonReport outcomes).text >>= fun _ =>
      if (jsonReport outcomes).isComplete then Writing.put .write ['\n'] else throw .path) := by
  unfold render renderJson
  dsimp only
  cases (jsonReport outcomes).isComplete with
  | false => rfl
  | true => rfl

/-- Where the array does not fit, it could not be serialized. -/
theorem run_render_json_of_not_fits (root : Path) {outcomes : List Outcome} {s : Sink}
    (hFits : ¬ s.Fits (Utf8.encode (jsonReport outcomes).text)) :
    (render .json root outcomes).run s =
      (.error (.serialize s.fullCause), (s.write (Utf8.encode (jsonReport outcomes).text)).2) := by
  rw [render_json_eq, Writing.run_bind, Writing.run_put_of_not_fits .serialize hFits]

/-- The writing of a JSON report is given up at a value that has no text, with all before it written. -/
theorem run_render_json_of_not_complete (root : Path) {outcomes : List Outcome} (s : Sink)
    (hText : (jsonReport outcomes).isComplete = false)
    (hFits : s.Fits (Utf8.encode (jsonReport outcomes).text)) :
    (render .json root outcomes).run s =
      (.error .path, (s.write (Utf8.encode (jsonReport outcomes).text)).2) := by
  rw [render_json_eq, Writing.run_bind, Writing.run_put_of_fits .serialize hFits, hText]
  rfl

/-- Behind an array that is written in full the line feed is written. -/
theorem run_render_json_of_complete (root : Path) {outcomes : List Outcome} {s : Sink}
    (hText : (jsonReport outcomes).isComplete = true)
    (hFits : s.Fits (Utf8.encode (jsonReport outcomes).text)) :
    (render .json root outcomes).run s =
      (Writing.put .write ['\n']).run (s.write (Utf8.encode (jsonReport outcomes).text)).2 := by
  rw [render_json_eq, Writing.run_bind, Writing.run_put_of_fits .serialize hFits, hText]
  rfl

/-- The array is written first, then the line feed behind it. -/
theorem run_render_json (root : Path) (outcomes : List Outcome) (s : Sink) :
    ((render .json root outcomes).run s).2 = (s.write (Format.json.reportBytes root outcomes)).2 ∧
    (((render .json root outcomes).run s).1 = .ok () ↔
      (jsonReport outcomes).isComplete = true ∧ s.Fits (Format.json.reportBytes root outcomes)) := by
  rw [Format.reportBytes, Format.reportText]
  by_cases hArray : s.Fits (Utf8.encode (jsonReport outcomes).text)
  · cases hText : (jsonReport outcomes).isComplete with
    | false =>
      -- the array stops at a value without a text
      rw [run_render_json_of_not_complete root s hText hArray, if_neg Bool.false_ne_true,
        List.append_nil]
      exact ⟨rfl, fun hOk => (by cases hOk), fun h => (by cases h.1)⟩
    | true =>
      rw [run_render_json_of_complete root hText hArray, if_pos rfl, Utf8.encode_append,
        s.write_append _ (Sink.write_fst_iff.mpr hArray), Sink.fits_append hArray]
      obtain ⟨hWritten, hOk⟩ :=
        Writing.run_put .write ['\n'] (s.write (Utf8.encode (jsonReport outcomes).text)).2
      exact ⟨hWritten, hOk.trans (and_iff_right rfl).symm⟩
  · rw [run_render_json_of_not_fits root hArray, Utf8.encode_append]
    obtain ⟨hWritten, hNot⟩ := Sink.write_append_of_not_fits
      (Utf8.encode (if (jsonReport outcomes).isComplete then ['\n'] else [])) hArray
    exact ⟨hWritten.symm, fun hOk => (by cases hOk), fun h => absurd h.2 hNot⟩

/-- What is written of a report, and when the writing comes to a good end. -/
theorem run_render (format : Format) (root : Path) (outcomes : List Outcome) (s : Sink) :
    ((render format root outcomes).run s).2 = (s.write (format.reportBytes root outcomes)).2 ∧
    (((render format root outcomes).run s).1 = .ok () ↔
      format.CanWrite outcomes ∧ s.Fits (format.reportBytes root outcomes)) := by
  cases format with
  | text =>
    obtain ⟨hWritten, hOk⟩ := Writing.run_put .write (textReport root outcomes) s
    have hCan : Format.text.CanWrite outcomes := fun h => (by cases h)
    rw [render, renderText_eq]
    exact ⟨hWritten, hOk.trans (and_iff_right hCan).symm⟩
  | json =>
    obtain ⟨hWritten, hOk⟩ := run_render_json root outcomes s
    have hCan : Format.json.CanWrite outcomes ↔ (jsonReport outcomes).isComplete = true :=
      ⟨fun h => h rfl, fun h _ => h⟩
    exact ⟨hWritten, by rw [hOk, hCan]⟩

end SnippetAudit.Report
