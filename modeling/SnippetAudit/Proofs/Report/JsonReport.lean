import SnippetAudit.Proofs.Check.Coverage
import SnippetAudit.Proofs.Report.JsonRoundTrip
import SnippetAudit.Proofs.Report.Writing

/-!
# Reading the outcomes of a JSON report

A JSON report is one array with a line feed behind it. A reader of JSON that knows nothing of reports
reads the array, and each of its items tells one outcome: the file name, the line or null, the
document, and the findings with their kinds and details. File names have to be text, since a report
cannot be written otherwise.

Results:
* `Outcome.ofJson?_value`: an outcome is read back from its value.
* `isComplete_jsonReport_iff`: a report can be written iff the file names in it are text.
* `read_render_json`: what is written is one array, from which the outcomes are read back.
-/

namespace SnippetAudit

open Text Report

/-! ## Specification -/

namespace Report.JsonValue

/-- The value of a member of an object. -/
def field? : JsonValue → String → Option JsonValue
  | .object members, name => members.lookup name.toList
  | _, _ => none

/-- The characters of a string. -/
def string? : JsonValue → Option (List Char)
  | .string text => some text
  | _ => none

/-- The value of a number that is written with digits only. -/
def nat? : JsonValue → Option ℕ
  | .number false magnitude => if magnitude.exponent = 0 then some magnitude.digits else none
  | _ => none

/-- The items of an array. -/
def items? : JsonValue → Option (List JsonValue)
  | .array items => some items
  | _ => none

end Report.JsonValue

/-- The finding that a JSON value tells: its kind, and its detail. -/
def Finding.ofJson? (v : JsonValue) : Option Finding := do
  let kind ← (← v.field? "kind").string?
  let detail ← v.field? "detail"
  if kind = "schema".toList then
    let path ← (← detail.field? "path").string?
    let message ← (← detail.field? "message").string?
    return .schema (String.ofList path) (String.ofList message)
  else
    let text ← detail.string?
    if kind = "parse".toList then return .parse (String.ofList text)
    else if kind = "io".toList then return .io (String.ofList text)
    else none

/-- The location that a JSON value tells; null tells that there is none. -/
def Location.ofJson? : JsonValue → Option (Option Location)
  | .null => some none
  | v => do
    let line ← (← v.field? "line").nat?
    (Location.ofLine? line).map some

/-- The outcome that a JSON value tells. -/
def Outcome.ofJson? (v : JsonValue) : Option Outcome := do
  let filename ← (← v.field? "filename").string?
  let location ← Location.ofJson? (← v.field? "location")
  let rawText ← (← v.field? "raw_text").string?
  let findings ← (← (← v.field? "errors").items?).mapM Finding.ofJson?
  return ⟨.ofText filename, location, rawText, findings⟩

/-! ## One outcome -/

theorem Finding.ofJson?_value (f : Finding) : Finding.ofJson? f.json.value = some f := by
  cases f with
  | schema path message =>
    have hRead : Finding.ofJson? (Finding.schema path message).json.value =
        some (.schema (String.ofList path.toList) (String.ofList message.toList)) := by
      simp only [Finding.json, Json.value, Json.valuesOfMembers, Json.valueOfMember]
      rfl
    rw [hRead, String.ofList_toList, String.ofList_toList]
  | parse detail =>
    have hRead : Finding.ofJson? (Finding.parse detail).json.value =
        some (.parse (String.ofList detail.toList)) := by
      simp only [Finding.json, Json.value, Json.valuesOfMembers, Json.valueOfMember]
      rfl
    rw [hRead, String.ofList_toList]
  | io detail =>
    have hRead : Finding.ofJson? (Finding.io detail).json.value =
        some (.io (String.ofList detail.toList)) := by
      simp only [Finding.json, Json.value, Json.valuesOfMembers, Json.valueOfMember]
      rfl
    rw [hRead, String.ofList_toList]

theorem Location.ofJson?_value (l : Location) : Location.ofJson? l.json.value = some (some l) := by
  simp only [Location.json, Json.value, Json.valuesOfMembers, Json.valueOfMember]
  show (Location.ofLine? l.line).map some = _
  rw [Location.ofLine?, dif_pos l.line_pos]
  rfl

theorem Json.valuesOfItems_eq_map (items : List Json) :
    Json.valuesOfItems items = items.map Json.value := by
  induction items with
  | nil => rw [Json.valuesOfItems]; rfl
  | cons item items ih => rw [Json.valuesOfItems, ih, List.map_cons]

/-- An outcome is read back from its value, if its file name is text. -/
theorem Outcome.ofJson?_value {o : Outcome} (h : IsText o.filename.bytes) :
    Outcome.ofJson? o.json.value = some o := by
  obtain ⟨text, hText⟩ := h
  have hFilename : o.filename = .ofText text := congrArg Path.mk hText
  have hJson : o.filename.json = .string text := by
    rw [Path.json, hText, Utf8.decode?_encode]
  have hFindings : (o.findings.map fun f : Finding => f.json.value).mapM Finding.ofJson? = some o.findings :=
    mapM_map_eq_some fun f _ => f.ofJson?_value
  obtain ⟨filename, location, rawText, findings⟩ := o
  simp only at hFilename hJson hFindings
  subst hFilename
  have hRead (v : JsonValue) (hLocation : Location.ofJson? v = some location) :
      Outcome.ofJson? (.object [("filename".toList, .string text), ("location".toList, v),
          ("raw_text".toList, .string rawText),
          ("errors".toList, .array (findings.map fun f : Finding => f.json.value))]) =
        some ⟨.ofText text, location, rawText, findings⟩ := by
    show (do
      let location ← Location.ofJson? v
      let findings ← (findings.map fun f : Finding => f.json.value).mapM Finding.ofJson?
      return Outcome.mk (.ofText text) location rawText findings) = _
    rw [hLocation, hFindings]
    rfl
  simp only [Outcome.json, hJson, Json.value, Json.valuesOfMembers, Json.valueOfMember,
    Json.valuesOfItems_eq_map, List.map_map]
  cases location with
  | none =>
    simp only [Json.value]
    exact hRead .null rfl
  | some l => exact hRead l.json.value l.ofJson?_value

/-! ## When a report has a text -/

namespace Report.Json

variable {level : ℕ}

theorem isComplete_printItems {items : List Json} :
    (printItems level items).isComplete = true ↔
      ∀ item ∈ items, (print (level + 1) item).isComplete = true := by
  induction items with
  | nil => simp [printItems, Output.isComplete]
  | cons item items ih =>
    rw [printItems, printItem, List.cons_append, Output.isComplete_cons, Output.isComplete_append,
      Output.isComplete_append, Output.isComplete_ofText, Bool.true_and, Bool.and_eq_true, ih,
      List.forall_mem_cons]

theorem isComplete_printMembers {members : List (String × Json)} :
    (printMembers level members).isComplete = true ↔
      ∀ member ∈ members, (print (level + 1) member.2).isComplete = true := by
  induction members with
  | nil => simp [printMembers, Output.isComplete]
  | cons member members ih =>
    obtain ⟨key, j⟩ := member
    rw [printMembers, printMember, List.cons_append, Output.isComplete_cons, Output.isComplete_append,
      Output.isComplete_append, Output.isComplete_ofText, Bool.true_and, Bool.and_eq_true, ih,
      List.forall_mem_cons]

/-- An array has a text iff each of its items has. -/
theorem isComplete_print_array {items : List Json} :
    (print level (.array items)).isComplete = true ↔
      ∀ item ∈ items, (print (level + 1) item).isComplete = true := by
  cases items with
  | nil => simp [print, Output.ofString]
  | cons item items =>
    rw [print, printItem]
    simp only [List.cons_append, Output.isComplete_cons, Output.isComplete_append,
      Output.isComplete_ofText, Bool.true_and, Bool.and_true, Bool.and_eq_true, isComplete_printItems,
      List.forall_mem_cons]

/-- An object has a text iff the value of each of its members has. -/
theorem isComplete_print_object {members : List (String × Json)} :
    (print level (.object members)).isComplete = true ↔
      ∀ member ∈ members, (print (level + 1) member.2).isComplete = true := by
  cases members with
  | nil => simp [print, Output.ofString]
  | cons member members =>
    obtain ⟨key, j⟩ := member
    rw [print, printMember]
    simp only [List.cons_append, Output.isComplete_cons, Output.isComplete_append,
      Output.isComplete_ofText, Bool.true_and, Bool.and_true, Bool.and_eq_true,
      isComplete_printMembers, List.forall_mem_cons]

theorem isComplete_print_null : (print level .null).isComplete = true := by
  rw [print, Output.ofString, Output.isComplete_ofText]

theorem isComplete_print_number (n : ℕ) : (print level (.number n)).isComplete = true := by
  rw [print, Output.ofString, Output.isComplete_ofText]

theorem isComplete_print_string (text : List Char) : (print level (.string text)).isComplete = true := by
  rw [print, Output.isComplete_ofText]

end Report.Json

theorem Finding.isComplete_print (f : Finding) (level : ℕ) : (f.json.print level).isComplete = true := by
  cases f <;>
    simp [Finding.json, Json.isComplete_print_object, Json.isComplete_print_string]

theorem Location.isComplete_print (l : Location) (level : ℕ) :
    (l.json.print level).isComplete = true := by
  simp [Location.json, Json.isComplete_print_object, Json.isComplete_print_number]

theorem Path.isComplete_print_iff {p : Path} {level : ℕ} :
    (p.json.print level).isComplete = true ↔ IsText p.bytes := by
  unfold Path.json
  cases hText : Utf8.decode? p.bytes with
  | none =>
    simp only [Json.print]
    exact ⟨fun h => (by cases h), fun h => absurd h (not_isText_of_decode? hText)⟩
  | some text =>
    exact ⟨fun _ => ⟨text, Utf8.decode?_eq_some_iff.mp hText⟩, fun _ => Json.isComplete_print_string text⟩

theorem Outcome.isComplete_print_iff {o : Outcome} {level : ℕ} :
    (o.json.print level).isComplete = true ↔ IsText o.filename.bytes := by
  have hFindings : ((Json.array (o.findings.map (·.json))).print (level + 1)).isComplete = true := by
    rw [Json.isComplete_print_array]
    intro item hItem
    obtain ⟨f, _, rfl⟩ := List.mem_map.mp hItem
    exact f.isComplete_print _
  rw [Outcome.json, Json.isComplete_print_object]
  simp only [List.forall_mem_cons, List.not_mem_nil, false_implies, implies_true, and_true,
    Path.isComplete_print_iff, hFindings, Json.isComplete_print_string]
  refine and_iff_left ?_
  cases o.location with
  | none => exact Json.isComplete_print_null
  | some l => exact l.isComplete_print _

/-- A JSON report has a text iff all file names in it are text. -/
theorem Report.isComplete_jsonReport_iff {outcomes : List Outcome} :
    (jsonReport outcomes).isComplete = true ↔ ∀ o ∈ outcomes, IsText o.filename.bytes := by
  rw [jsonReport, Json.isComplete_print_array, List.forall_mem_map]
  simp only [Outcome.isComplete_print_iff]

/-! ## Reports -/

namespace Report

open JsonReader

/-- A JSON report is read as the array of the values of its outcomes. -/
theorem read?_jsonReport {outcomes : List Outcome} (h : ∀ o ∈ outcomes, IsText o.filename.bytes) :
    read? (jsonReport outcomes).text = some (.array (outcomes.map (·.json.value))) := by
  have hLexes := Json.lexes_print (.array (outcomes.map fun o : Outcome => o.json)) 0
    (isComplete_jsonReport_iff.mpr h)
  have hRead := read?_of_lexes hLexes
  rw [Json.value, Json.valuesOfItems_eq_map, List.map_map] at hRead
  exact hRead

/-- The text of a JSON report stands between the brackets of an array. -/
theorem exists_text_jsonReport {outcomes : List Outcome} (h : ∀ o ∈ outcomes, IsText o.filename.bytes) :
    ∃ inner, (jsonReport outcomes).text = '[' :: inner ++ [']'] := by
  have hComplete := isComplete_jsonReport_iff.mpr h
  cases outcomes with
  | nil =>
    refine ⟨[], ?_⟩
    simp [jsonReport, Json.print, Output.ofString]
  | cons o outcomes =>
    rw [jsonReport, List.map_cons, Json.print] at hComplete ⊢
    rw [Output.isComplete_append, Bool.and_eq_true] at hComplete
    rw [Output.text_append hComplete.1, List.cons_append, Output.text_cons, Output.text_ofText,
      List.cons_append, ← List.append_assoc]
    exact ⟨_, rfl⟩

/-- A JSON report of outcomes with file names that are text is written in full. -/
theorem run_render_json_of_isText (root : Path) {outcomes : List Outcome}
    (h : ∀ o ∈ outcomes, IsText o.filename.bytes) :
    (render .json root outcomes).run (.empty none false) =
      (.ok (), { Sink.empty none false with
        written := Utf8.encode ((jsonReport outcomes).text ++ ['\n'])
        flushed := false }) := by
  have hComplete := isComplete_jsonReport_iff.mpr h
  obtain ⟨hWritten, hOk⟩ := run_render_json root outcomes (.empty none false)
  have hBytes : Format.json.reportBytes root outcomes =
      Utf8.encode ((jsonReport outcomes).text ++ ['\n']) := by
    rw [Format.reportBytes, Format.reportText, hComplete]
    rfl
  rw [hBytes] at hWritten hOk
  refine Prod.ext (hOk.mpr ⟨hComplete, ?_⟩) (hWritten.trans ?_)
  · intro n hn
    cases hn
  · have hFeed : Utf8.encode ['\n'] ≠ [] := by decide
    simp [Sink.write, Sink.empty, hFeed]

/-- A JSON report of outcomes whose file names are text is one array with a line feed behind it. It is read
    back as the outcomes, so two reports are the same only if their outcomes are. -/
theorem read_render_json (root : Path) {outcomes : List Outcome}
    (h : ∀ o ∈ outcomes, IsText o.filename.bytes) :
    ∃ inner items,
      (render .json root outcomes).run (.empty none false) =
        (.ok (), { Sink.empty none false with
          written := Utf8.encode ('[' :: inner ++ [']', '\n'])
          flushed := false }) ∧
      read? ('[' :: inner ++ [']']) = some (.array items) ∧
      items.mapM Outcome.ofJson? = some outcomes ∧
      ∀ root' outcomes', (∀ o ∈ outcomes', IsText o.filename.bytes) →
        (render .json root' outcomes').run (.empty none false) =
          (render .json root outcomes).run (.empty none false) → outcomes' = outcomes := by
  have hItems {outcomes : List Outcome} (h : ∀ o ∈ outcomes, IsText o.filename.bytes) :
      (outcomes.map (·.json.value)).mapM Outcome.ofJson? = some outcomes :=
    mapM_map_eq_some fun o ho => Outcome.ofJson?_value (h o ho)
  obtain ⟨inner, hInner⟩ := exists_text_jsonReport h
  refine ⟨inner, outcomes.map (·.json.value), ?_, ?_, hItems h, ?_⟩
  · rw [run_render_json_of_isText root h, hInner, List.append_assoc]
    rfl
  · rw [← hInner]
    exact read?_jsonReport h
  · intro root' outcomes' h' hEq
    rw [run_render_json_of_isText root h, run_render_json_of_isText root' h'] at hEq
    have hBytes := congrArg (fun r => r.2.written) hEq
    have hText := List.append_cancel_right (Utf8.encode_injective hBytes)
    have hRead := read?_jsonReport h'
    rw [hText, read?_jsonReport h] at hRead
    have hValues := JsonValue.array.inj (Option.some.inj hRead)
    have hOutcomes := hItems h
    rw [hValues, hItems h'] at hOutcomes
    exact Option.some.inj hOutcomes

/-- Outcomes with characters that are escaped in a report, and with some that are not. -/
def awkward : List Outcome :=
  [⟨.ofText ['a', '"', '\\', '\n', '\x00', .ofNat 0x1F600], none, [], [.io "\x00\x1f"]⟩,
    ⟨.ofText [], some (.ofIndex 6), ['\t', '\r', '\n'],
      [.schema "a.\"b\"" "\\u0000", .parse "\x7f\u2028", .io "]"]⟩]

theorem read_render_json_awkward :
    (∀ o ∈ awkward, IsText o.filename.bytes) ∧
    ∃ inner items,
      (render .json ⟨[]⟩ awkward).run (.empty none false) =
        (.ok (), { Sink.empty none false with
          written := Utf8.encode ('[' :: inner ++ [']', '\n'])
          flushed := false }) ∧
      read? ('[' :: inner ++ [']']) = some (.array items) ∧
      items.mapM Outcome.ofJson? = some awkward := by
  have hText : ∀ o ∈ awkward, IsText o.filename.bytes := by
    simp only [awkward, List.forall_mem_cons, List.not_mem_nil, false_implies, implies_true, and_true]
    exact ⟨⟨_, rfl⟩, _, rfl⟩
  obtain ⟨inner, items, hRun, hRead, hOutcomes, _⟩ := read_render_json ⟨[]⟩ hText
  exact ⟨hText, inner, items, hRun, hRead, hOutcomes⟩

end Report

end SnippetAudit
