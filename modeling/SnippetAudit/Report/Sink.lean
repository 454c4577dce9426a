import SnippetAudit.Text.Utf8

/-!
# Where a report goes

A sink keeps what was written to it. It may have room for a number of bytes only, and it may
fail to hand its bytes on when it is flushed. What is said of such a failure is up to the sink.

Results:
* `write_append`: writing two texts in turn is writing them at once, if the first one fits.
-/

namespace SnippetAudit.Report

open Text

/-- A place to write to. -/
structure Sink where
  /-- What was written. -/
  written : List UInt8
  /-- How many more bytes can be written; there may be no limit. -/
  room : Option Nat
  /-- Whether flushing fails. -/
  flushFails : Bool
  /-- Whether all that was written has been handed on. -/
  flushed : Bool
  /-- What is said where there is no room. -/
  fullCause : String
  /-- What is said where flushing fails. -/
  flushCause : String
  deriving DecidableEq, Repr

namespace Sink

/-- A sink in memory to which nothing was written. -/
def empty (room : Option Nat) (flushFails : Bool) : Sink :=
  ⟨[], room, flushFails, true, "disk full", "flush failed"⟩

/-- Writes as many bytes as there is room for. The flag says that all of them were written. No bytes
    are nothing to hand on. -/
def write (s : Sink) (bytes : List UInt8) : Bool × Sink :=
  match s.room with
  | none => (true, { s with written := s.written ++ bytes, flushed := bytes.isEmpty && s.flushed })
  | some n =>
    (bytes.length ≤ n,
      { s with
        written := s.written ++ bytes.take n
        room := some (n - bytes.length)
        flushed := bytes.isEmpty && s.flushed })

end Sink

/-- Why a report could not be written, with the cause that the sink gives. -/
inductive Failure where
  /-- The text of the report does not fit. -/
  | write (cause : String)
  /-- The values of the report do not fit. -/
  | serialize (cause : String)
  /-- A path of the report is no text. -/
  | path
  /-- What was written could not be handed on. -/
  | flush (cause : String)
  deriving DecidableEq, Repr

/-- The wording of a failure. -/
def Failure.message : Failure → String
  | .write cause => "failed to write report: " ++ cause
  | .serialize cause => "failed to serialize report: " ++ cause
  | .path => "failed to serialize report: path contains invalid UTF-8 characters"
  | .flush cause => "failed to flush report: " ++ cause

/-- Writing to a sink, which may fail; what was written by then stays. -/
abbrev Writing := ExceptT Failure (StateM Sink)

namespace Writing

/-- Writes a text; where it does not fit, all that does is written. -/
def put (failure : String → Failure) (text : List Char) : Writing Unit := do
  let fits ← modifyGet fun s : Sink => s.write (Utf8.encode text)
  if !fits then throw (failure (← get).fullCause)

/-- Hands on what was written. -/
def flush : Writing Unit := do
  let s ← get
  if s.flushFails then throw (.flush s.flushCause)
  modify fun s => { s with flushed := true }

end Writing

/-! ## Lemmas -/

theorem Sink.write_append {s : Sink} {a : List UInt8} (b : List UInt8) (h : (s.write a).1 = true) :
    (s.write (a ++ b)) = (s.write a).2.write b := by
  have hFlushed : ((a ++ b).isEmpty && s.flushed) = (b.isEmpty && (a.isEmpty && s.flushed)) := by
    cases a <;> simp
  unfold write at h ⊢
  cases hRoom : s.room with
  | none => simp [hFlushed]
  | some n =>
    have hLength : a.length ≤ n := by simpa [hRoom] using h
    have hFits : decide ((a ++ b).length ≤ n) = decide (b.length ≤ n - a.length) := by
      rw [List.length_append, decide_eq_decide]
      omega
    have hTake : (a ++ b).take n = a ++ b.take (n - a.length) := by
      rw [List.take_append, List.take_of_length_le hLength]
    have hRest : n - (a ++ b).length = n - a.length - b.length := by
      rw [List.length_append]
      omega
    simp only [hFits, hTake, hRest, hFlushed, List.take_of_length_le hLength, List.append_assoc]

end SnippetAudit.Report
