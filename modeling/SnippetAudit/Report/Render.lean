import SnippetAudit.Outcome
import SnippetAudit.Report.Json
import SnippetAudit.Report.Sink

/-!
# Reports

A report lists outcomes as lines of text, which are written one by one, or as one JSON array with a
line feed behind it.

In the text report each outcome has a heading with its status, its path and its line. Below the
heading of one that failed stand its findings, behind an arrow, and the lines of its block, indented.
In the JSON report a path has to be text.

Results:
* `reportLines_passed`: an outcome that passed has one line.
-/

namespace SnippetAudit

open Text Report

/-- The forms of a report (`ReportFormat`). -/
inductive Report.Format where
  | text
  | json
  deriving DecidableEq, Repr

/-! ## Lines of text -/

namespace Outcome

/-- The first line about an outcome. -/
def heading (root : Path) (o : Outcome) : List Char :=
  let status := if o.passed then "PASS ".toList else "FAIL ".toList
  let line := match o.line? with
    | some line => ':' :: (toString line).toList
    | none => []
  status ++ o.filename.display root ++ line

/-- The lines about an outcome. -/
def reportLines (root : Path) (o : Outcome) : List (List Char) :=
  o.heading root ::
    if o.passed then []
    else
      o.findings.map (fun finding => "--> ".toList ++ finding.text.toList)
        ++ (lines o.rawText).map ("    ".toList ++ ·)

end Outcome

/-! ## JSON -/

/-- The JSON value of a finding. -/
def Finding.json : Finding → Json
  | .schema path message =>
    .object [("kind", .string "schema".toList),
      ("detail", .object [("path", .string path.toList), ("message", .string message.toList)])]
  | .parse detail => .object [("kind", .string "parse".toList), ("detail", .string detail.toList)]
  | .io detail => .object [("kind", .string "io".toList), ("detail", .string detail.toList)]

/-- The JSON value of a path. -/
def Path.json (p : Path) : Json :=
  match Utf8.decode? p.bytes with
  | some text => .string text
  | none => .unwritable

/-- The JSON value of a location. -/
def Location.json (l : Location) : Json := .object [("line", .number l.line)]

/-- The JSON value of an outcome. -/
def Outcome.json (o : Outcome) : Json :=
  .object [("filename", o.filename.json),
    ("location", match o.location with
      | some location => location.json
      | none => .null),
    ("raw_text", .string o.rawText),
    ("errors", .array (o.findings.map (·.json)))]

/-! ## Writing -/

namespace Report

/-- Writes a line and a line feed behind it. -/
def Writing.putLine (line : List Char) : Writing Unit := put .write (line ++ ['\n'])

/-- Writes the text report of outcomes, given the root that was checked (`render_text`). -/
def renderText (root : Path) (outcomes : List Outcome) : Writing Unit :=
  forM outcomes fun o => forM (o.reportLines root) Writing.putLine

/-- The output of the JSON report of outcomes, without the line feed behind it. -/
def jsonReport (outcomes : List Outcome) : Output :=
  (Json.array (outcomes.map (·.json))).print 0

/-- Writes the JSON report of outcomes (`render_json`). -/
def renderJson (outcomes : List Outcome) : Writing Unit := do
  let output := jsonReport outcomes
  Writing.put .serialize output.text
  if !output.isComplete then throw .path
  Writing.put .write ['\n']

/-- Writes the report of outcomes (`render`). -/
def render (format : Format) (root : Path) (outcomes : List Outcome) : Writing Unit :=
  match format with
  | .text => renderText root outcomes
  | .json => renderJson outcomes

end Report

/-! ## Lemmas -/

theorem Outcome.reportLines_passed (root : Path) {o : Outcome} (h : o.passed = true) :
    o.reportLines root = [o.heading root] := by
  simp [reportLines, h]

end SnippetAudit
