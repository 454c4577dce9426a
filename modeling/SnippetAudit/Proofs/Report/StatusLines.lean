import SnippetAudit.CommandLine
import SnippetAudit.Proofs.Check.Status
import SnippetAudit.Proofs.Path.Join
import SnippetAudit.Proofs.Schema.Quotations
import SnippetAudit.Proofs.Source.Blocks
import SnippetAudit.Proofs.Yaml.Reading

/-!
# The status lines of a text report

A line of a report tells a status when it starts with `PASS ` or `FAIL `. Each outcome has one such
line, its heading. The lines of a document are indented and tell none. But a finding stands in the
report as it is: where its text goes over several lines, all of them but the first can tell a
status as well.

Specification: the headings of the outcomes, in their order, each followed by those lines of its
findings. File names are taken to hold no line end.

Results:
* `statusLines_textReport`: the status lines of a report.
* `breaksLine_of_strayLines`: only a finding with a line feed has more status lines.
* `statusLines_of_run`: the status lines of what a check has written.
* `two_statuses_of_one_outcome`: a check whose report tells two statuses of one block.
-/

namespace SnippetAudit

open Text Report

/-! ## Specification -/

namespace Report

/-- A line that tells a failure. -/
def isFailLine (line : List Char) : Bool := "FAIL ".toList.isPrefixOf line

/-- A line that tells a status. -/
def isStatusLine (line : List Char) : Bool :=
  "PASS ".toList.isPrefixOf line || isFailLine line

/-- The lines of a text that tell a status. -/
def statusLines (text : List Char) : List (List Char) := (lines text).filter isStatusLine

/-- Those behind the first line. -/
def laterStatusLines (text : List Char) : List (List Char) := (lines text).tail.filter isStatusLine

end Report

/-- The lines of a finding that tell a status in a report. The first one stands behind an arrow. -/
def Finding.strayLines (f : Finding) : List (List Char) := laterStatusLines (f.text.toList ++ ['\n'])

/-- There is no line end in the path. -/
structure Path.IsUnbroken (p : Path) : Prop where
  feed_not_mem : 0x0A ∉ p.bytes
  return_not_mem : 0x0D ∉ p.bytes

namespace Report

/-! ## Lines -/

theorem statusLines_unlines (ls : List (List Char)) :
    statusLines (unlines ls) = ls.flatMap fun line => statusLines (line ++ ['\n']) := by
  induction ls with
  | nil => simp [statusLines, unlines]
  | cons line ls ih =>
    have hLines : lines (unlines (line :: ls)) = lines (line ++ ['\n']) ++ lines (unlines ls) := by
      rw [← lines_append, unlines, List.flatMap_cons, List.append_assoc]
      rfl
    unfold statusLines at ih ⊢
    rw [hLines, List.filter_append, List.flatMap_cons, ih]

/-- The lines of a text do not change with what its first line starts with. -/
theorem tail_lines_cons {c : Char} (hFeed : c ≠ '\n') (hReturn : c ≠ '\r') (text : List Char) :
    (lines (c :: text)).tail = (lines text).tail := by
  rw [lines_cons hFeed fun h => absurd h hReturn]
  cases lines text <;> rfl

theorem laterStatusLines_cons {c : Char} (hFeed : c ≠ '\n') (hReturn : c ≠ '\r')
    (text : List Char) : laterStatusLines (c :: text) = laterStatusLines text := by
  unfold laterStatusLines
  rw [tail_lines_cons hFeed hReturn]

/-- A first line with an initial that no status has tells none. -/
theorem statusLines_cons {c : Char} (hInitial : c ∉ ['\n', '\r', 'P', 'F']) (text : List Char) :
    statusLines (c :: text) = laterStatusLines text := by
  simp only [List.mem_cons, List.not_mem_nil, or_false, not_or] at hInitial
  obtain ⟨hFeed, hReturn, hP, hF⟩ := hInitial
  have hTail := tail_lines_cons hFeed hReturn text
  rw [lines_cons hFeed fun h => absurd h hReturn] at hTail
  unfold statusLines laterStatusLines
  rw [lines_cons hFeed fun h => absurd h hReturn, ← hTail]
  have hFirst (line : List Char) : isStatusLine (c :: line) = false := by
    simp [isStatusLine, isFailLine, List.isPrefixOf, Ne.symm hP, Ne.symm hF]
  cases lines text with
  | nil => simp [hFirst]
  | cons line others => simp [hFirst]

/-- A text without a line feed is one line. -/
theorem laterStatusLines_of_not_mem {text : List Char} (h : '\n' ∉ text) :
    laterStatusLines (text ++ ['\n']) = [] := by
  unfold laterStatusLines
  by_cases hReturn : text.getLast? = some '\r'
  · obtain ⟨line, hText⟩ := List.getLast?_eq_some_iff.mp hReturn
    have hFeed : '\n' ∉ line := fun hMem => h (by simp [hText, hMem])
    rw [hText, List.append_assoc, List.cons_append, List.nil_append, lines_line_return_append hFeed]
    simp
  · rw [lines_line_append h hReturn]
    simp

theorem statusLines_line {line : List Char} (hFeed : '\n' ∉ line) (hReturn : '\r' ∉ line) :
    statusLines (line ++ ['\n']) = [line].filter isStatusLine := by
  have hLast : line.getLast? ≠ some '\r' := fun h => hReturn (List.mem_of_getLast? h)
  unfold statusLines
  rw [lines_line_append hFeed hLast, lines_nil]

end Report

/-! ## Paths -/

namespace Path

theorem mem_joinParts_iff {b : UInt8} (hb : b ≠ separator) {parts : List (List UInt8)} :
    b ∈ joinParts parts ↔ ∃ part ∈ parts, b ∈ part := by
  fun_induction joinParts parts with
  | case1 => simp
  | case2 part => simp
  | case3 part parts hNe ih =>
    rw [List.mem_append, List.mem_cons, ih]
    simp [hb]

theorem dropComponents_suffix (n : ℕ) (parts : List (List UInt8)) :
    dropComponents n parts <:+ parts := by
  fun_induction dropComponents n parts with
  | case1 parts => exact List.suffix_rfl
  | case2 => exact List.suffix_rfl
  | case3 n part parts _ ih => exact ih.trans (List.suffix_cons part parts)
  | case4 n part parts _ ih => exact ih.trans (List.suffix_cons part parts)

theorem dropIdleEnd_isPrefix (parts : List (List UInt8)) : dropIdleEnd parts <+: parts := by
  unfold dropIdleEnd
  rw [← List.reverse_suffix, List.reverse_reverse]
  exact List.dropWhile_suffix _

/-- What is left of a path below another holds no other bytes than the path, but for separators. -/
theorem mem_of_mem_below {p base rest : Path} (h : p.below? base = some rest) {b : UInt8}
    (hb : b ≠ separator) (hMem : b ∈ rest.bytes) : b ∈ p.bytes := by
  have hBody {parts : List (List UInt8)} (hParts : parts ⊆ p.body) (h : b ∈ joinParts parts) :
      b ∈ p.cut.2 := by
    obtain ⟨part, hPart, hb'⟩ := (mem_joinParts_iff hb).mp h
    rw [← joinParts_splitParts p.cut.2, mem_joinParts_iff hb]
    exact ⟨part, hParts hPart, hb'⟩
  rw [← cut_bytes p, List.mem_append]
  unfold below? at h
  split at h
  · split at h
    · rw [← Option.some.inj h, List.mem_append] at hMem
      exact hMem.imp_right (hBody (dropIdleEnd_isPrefix _).subset)
    · rw [← Option.some.inj h] at hMem
      refine .inr (hBody (fun part hPart => ?_) hMem)
      exact (dropComponents_suffix _ _).subset
        ((List.dropWhile_suffix _).subset ((dropIdleEnd_isPrefix _).subset hPart))
  · cases h

/-- A path is shown with its own characters, with replacements, and with dots and separators. -/
theorem mem_of_mem_display {p root : Path} {c : Char} (h : c ∈ p.display root)
    (hc : c ∉ ['\uFFFD', '.', '/']) {b : UInt8} (hb : b ∈ String.utf8EncodeChar c)
    (hSeparator : b ≠ separator) : b ∈ p.bytes := by
  simp only [List.mem_cons, List.not_mem_nil, or_false, not_or] at hc
  obtain ⟨hReplaced, hDot, hSlash⟩ := hc
  unfold display at h
  split at h
  · exact Utf8.mem_of_mem_decodeLossy h hReplaced hb
  · rename_i rest hBelow
    have hRest : c ∈ rest.lossyText := by
      split at h
      · simp [hDot] at h
      · simpa [hDot, hSlash] using h
    exact mem_of_mem_below hBelow hSeparator (Utf8.mem_of_mem_decodeLossy hRest hReplaced hb)

theorem IsUnbroken.not_mem_display {p : Path} (h : p.IsUnbroken) (root : Path) :
    '\n' ∉ p.display root ∧ '\r' ∉ p.display root :=
  ⟨fun hFeed => h.feed_not_mem (mem_of_mem_display hFeed (by decide) (by decide) (by decide)),
    fun hReturn => h.return_not_mem (mem_of_mem_display hReturn (by decide) (by decide) (by decide))⟩

end Path

/-! ## Outcomes -/

namespace Outcome

variable {o : Outcome} (root : Path)

/-- A heading tells a status, which is a failure iff the outcome did not pass. -/
theorem isFailLine_heading (o : Outcome) :
    isFailLine (o.heading root) = !o.passed ∧ isStatusLine (o.heading root) = true := by
  unfold heading
  cases o.passed with
  | true => exact ⟨rfl, rfl⟩
  | false => exact ⟨rfl, rfl⟩

theorem not_mem_heading (h : o.filename.IsUnbroken) :
    '\n' ∉ o.heading root ∧ '\r' ∉ o.heading root := by
  obtain ⟨hFeed, hReturn⟩ := h.not_mem_display root
  have hStatus : '\n' ∉ (if o.passed then "PASS ".toList else "FAIL ".toList) ∧
      '\r' ∉ (if o.passed then "PASS ".toList else "FAIL ".toList) := by
    cases o.passed <;> decide
  simp only [heading, List.mem_append, not_or]
  cases o.line? with
  | none =>
    exact ⟨⟨⟨hStatus.1, hFeed⟩, List.not_mem_nil⟩, ⟨hStatus.2, hReturn⟩, List.not_mem_nil⟩
  | some line =>
    have hLine {c : Char} (hc : c.isDigit = false) (hColon : c ≠ ':') :
        c ∉ ':' :: (toString line).toList := by
      rw [List.mem_cons, not_or]
      exact ⟨hColon, not_mem_toString_nat hc line⟩
    exact ⟨⟨⟨hStatus.1, hFeed⟩, hLine (by decide) (by decide)⟩,
      ⟨hStatus.2, hReturn⟩, hLine (by decide) (by decide)⟩

/-- The status lines about one outcome: its heading, and what its findings add. -/
theorem statusLines_reportLines (h : o.filename.IsUnbroken) :
    ((o.reportLines root).flatMap fun line => statusLines (line ++ ['\n'])) =
      o.heading root :: o.findings.flatMap Finding.strayLines := by
  obtain ⟨hFeed, hReturn⟩ := not_mem_heading root h
  have hHeading : statusLines (o.heading root ++ ['\n']) = [o.heading root] := by
    rw [statusLines_line hFeed hReturn, List.filter_singleton, (isFailLine_heading root o).2]
    rfl
  have hFinding (f : Finding) :
      statusLines (("--> ".toList ++ f.text.toList) ++ ['\n']) = f.strayLines := by
    show statusLines ('-' :: '-' :: '>' :: ' ' :: (f.text.toList ++ ['\n'])) = _
    rw [statusLines_cons (by decide), laterStatusLines_cons (by decide) (by decide),
      laterStatusLines_cons (by decide) (by decide), laterStatusLines_cons (by decide) (by decide)]
    rfl
  -- what a document holds is indented, and its lines are cut at its line feeds
  have hRaw (line : List Char) (hLine : line ∈ lines o.rawText) :
      statusLines (("    ".toList ++ line) ++ ['\n']) = [] := by
    show statusLines (' ' :: ' ' :: ' ' :: ' ' :: (line ++ ['\n'])) = _
    rw [statusLines_cons (by decide), laterStatusLines_cons (by decide) (by decide),
      laterStatusLines_cons (by decide) (by decide), laterStatusLines_cons (by decide) (by decide)]
    exact laterStatusLines_of_not_mem (Block.lineFeed_not_mem_lines hLine)
  rw [reportLines, List.flatMap_cons, hHeading, List.singleton_append]
  congr 1
  cases hPassed : o.passed with
  | true =>
    have hNone : o.findings = [] := List.isEmpty_iff.mp hPassed
    rw [hNone]
    rfl
  | false =>
    rw [if_neg Bool.false_ne_true, List.flatMap_append, List.flatMap_map, List.flatMap_map]
    simp only [hFinding]
    rw [List.flatMap_eq_nil_iff.mpr hRaw, List.append_nil]

end Outcome

/-! ## Reports -/

namespace Report

variable {outcomes : List Outcome} (root : Path)

/-- The status lines of a report: the heading of each outcome, and what its findings add. -/
theorem statusLines_textReport (h : ∀ o ∈ outcomes, o.filename.IsUnbroken) :
    statusLines (textReport root outcomes) =
      outcomes.flatMap fun o => o.heading root :: o.findings.flatMap Finding.strayLines := by
  unfold textReport
  rw [statusLines_unlines, List.flatMap_assoc]
  exact List.flatMap_congr fun o ho => Outcome.statusLines_reportLines root (h o ho)

/-- There are as many failures as outcomes that did not pass, and those that findings add. -/
theorem countP_isFailLine_textReport (h : ∀ o ∈ outcomes, o.filename.IsUnbroken) :
    (statusLines (textReport root outcomes)).countP isFailLine =
      outcomes.countP (!·.passed) +
        ((outcomes.flatMap (·.findings)).flatMap Finding.strayLines).countP isFailLine := by
  rw [statusLines_textReport root h, List.flatMap_assoc]
  clear h
  induction outcomes with
  | nil => rfl
  | cons o outcomes ih =>
    simp only [List.flatMap_cons, List.countP_append, List.countP_cons, ih,
      (Outcome.isFailLine_heading root o).1]
    omega

/-- The headings are all the status lines iff no finding adds one. -/
theorem statusLines_textReport_eq_iff (h : ∀ o ∈ outcomes, o.filename.IsUnbroken) :
    statusLines (textReport root outcomes) = outcomes.map (·.heading root) ↔
      ∀ o ∈ outcomes, ∀ f ∈ o.findings, f.strayLines = [] := by
  rw [statusLines_textReport root h, flatMap_cons_eq_map_iff]
  simp only [List.flatMap_eq_nil_iff]

end Report

/-! ## What findings add -/

theorem Finding.strayLines_of_not_breaksLine {f : Finding} (h : ¬ BreaksLine f.text) :
    f.strayLines = [] := laterStatusLines_of_not_mem h

/-- What is found about a block can break a line only through what the reader says of a document that
    is not read, or through a string that a violation quotes. -/
theorem Outcome.causes_of_findings_ofBlock [Yaml.Wording] {b : Block} {f : Finding}
    (hf : f ∈ (Outcome.ofBlock b).findings) (hBreak : BreaksLine f.text) :
    (∃ fault, Yaml.Value.ofText b.rawText = .error fault ∧
      f = .parse ("invalid YAML: " ++ Yaml.Wording.document b.rawText) ∧
      BreaksLine (Yaml.Wording.document b.rawText)) ∨
    ∃ document v, Yaml.Value.ofText b.rawText = .ok document ∧
      Metadata.ofDocument document = .error v ∧ f = .schema v.path v.message ∧
      ∃ s ∈ v.quoted, BreaksLine s := by
  rw [Outcome.findings_ofBlock] at hf
  unfold Metadata.ofText at hf
  cases hRead : Yaml.Value.ofText b.rawText with
  | error fault =>
    rw [hRead] at hf
    have hParse : f = .parse ("invalid YAML: " ++ Yaml.Wording.document b.rawText) :=
      List.mem_singleton.mp hf
    rw [hParse] at hBreak
    have hMessage := (breaksLine_append.mp hBreak).resolve_left (by decide)
    exact .inl ⟨fault, rfl, hParse, (breaksLine_append.mp hMessage).resolve_left (by decide)⟩
  | ok document =>
    rw [hRead] at hf
    simp only at hf
    cases hRefused : Metadata.ofDocument document with
    | ok m =>
      rw [hRefused] at hf
      cases hf
    | error v =>
      rw [hRefused] at hf
      rw [List.mem_singleton.mp hf] at hBreak ⊢
      refine .inr ⟨document, v, rfl, hRefused, rfl, Violation.exists_quoted_of_breaksLine hRefused ?_⟩
      rcases breaksLine_append.mp hBreak with hFront | hMessage
      · have hFront := (breaksLine_append.mp hFront).resolve_right (by decide)
        exact .inl ((breaksLine_append.mp hFront).resolve_left (by decide))
      · exact .inr hMessage

/-- The findings of a verdict: what its document is refused with, or why its path cannot be looked at. -/
theorem breaksLine_of_strayLines [Yaml.Wording] {fs : FileSystem} {config : Config} {v : Visit}
    {o : Outcome} {f : Finding} (ho : o ∈ Walk.outcomes fs config v) (hf : f ∈ o.findings)
    (hStray : f.strayLines ≠ []) :
    (∃ message, f = .io message ∧ BreaksLine message) ∨
    (∃ fault, Yaml.Value.ofText o.rawText = .error fault ∧
      f = .parse ("invalid YAML: " ++ Yaml.Wording.document o.rawText) ∧
      BreaksLine (Yaml.Wording.document o.rawText)) ∨
    ∃ document v, Yaml.Value.ofText o.rawText = .ok document ∧
      Metadata.ofDocument document = .error v ∧ f = .schema v.path v.message ∧
      ∃ s ∈ v.quoted, BreaksLine s := by
  have hBreak : BreaksLine f.text :=
    Classical.byContradiction fun hNot => hStray (Finding.strayLines_of_not_breaksLine hNot)
  obtain ⟨⟨path, found⟩, _, hMem⟩ := List.mem_flatMap.mp ho
  rcases Walk.cases_of_mem_outcomesAt hMem with ⟨message, rfl⟩ | ⟨_, _, _, b, _, rfl⟩
  · have hIo : f = .io message := List.mem_singleton.mp hf
    rw [hIo] at hBreak
    exact .inl ⟨message, hIo, (breaksLine_append.mp hBreak).resolve_left (by decide)⟩
  · rw [Outcome.rawText_ofBlock]
    exact .inr (Outcome.causes_of_findings_ofBlock hf hBreak)

/-! ## Checks -/

namespace Check

variable {c : Check} {fs : FileSystem} {depth code : ℕ} {sink sink' : Sink}

/-- What a check with a text report has written tells the status of each outcome in its heading. Other
    lines tell a status only where a line feed is in a message about a path, in what the reader says of
    a document that it does not read, or in a string of a document that a violation quotes. -/
theorem statusLines_of_run [Yaml.Wording] (hText : c.format = .text)
    (hRun : c.run fs depth sink = (.ok code, sink')) :
    ∃ outcomes, c.found fs depth = .ok outcomes ∧
      sink'.written = sink.written ++ Utf8.encode (textReport c.root outcomes) ∧
      (∀ o ∈ outcomes, ∀ f ∈ o.findings, f.strayLines ≠ [] →
        (∃ message, f = .io message ∧ BreaksLine message) ∨
        (∃ fault, Yaml.Value.ofText o.rawText = .error fault ∧
          f = .parse ("invalid YAML: " ++ Yaml.Wording.document o.rawText) ∧
          BreaksLine (Yaml.Wording.document o.rawText)) ∨
        ∃ document v, Yaml.Value.ofText o.rawText = .ok document ∧
          Metadata.ofDocument document = .error v ∧ f = .schema v.path v.message ∧
          ∃ s ∈ v.quoted, BreaksLine s) ∧
      ((∀ o ∈ outcomes, o.filename.IsUnbroken) →
        statusLines (textReport c.root outcomes) =
          (outcomes.flatMap fun o => o.heading c.root :: o.findings.flatMap Finding.strayLines) ∧
        (statusLines (textReport c.root outcomes) = outcomes.map (·.heading c.root) ↔
          ∀ o ∈ outcomes, ∀ f ∈ o.findings, f.strayLines = []) ∧
        (statusLines (textReport c.root outcomes)).countP isFailLine =
          outcomes.countP (!·.passed) +
            ((outcomes.flatMap (·.findings)).flatMap Finding.strayLines).countP isFailLine) := by
  obtain ⟨outcomes, hFound, _, _, _, hWritten⟩ := exists_found_of_run hRun
  have hBytes : c.reportBytes outcomes = Utf8.encode (textReport c.root outcomes) := by
    rw [reportBytes, hText]
    rfl
  rw [hBytes] at hWritten
  refine ⟨outcomes, hFound, hWritten, ?_, ?_⟩
  · intro o ho f hf
    obtain ⟨config, v, _, _, _, hSorted⟩ := found_eq_ok_iff.mp hFound
    rw [hSorted] at ho
    exact breaksLine_of_strayLines ((Outcome.sort_perm _).mem_iff.mp ho) hf
  · intro hUnbroken
    exact ⟨statusLines_textReport c.root hUnbroken, statusLines_textReport_eq_iff c.root hUnbroken,
      countP_isFailLine_textReport c.root hUnbroken⟩

/-! ## A forged status -/

open Yaml (Document Part Value Read)

/-- A document whose rule type is a line feed and the heading of another file. -/
def forgedDocument : List Char :=
  "title: t\ndescription: d\npolicy:\n  rule:\n    type: \"\\nPASS .../b.rego:1\"\n".toList

/-- The parts of `forgedDocument`. -/
def forgedParts : List Part :=
  [⟨.mappingStart none, ⟨0, 0, 0⟩⟩,
    ⟨.scalar none "title".toList true, ⟨0, 0, 0⟩⟩, ⟨.scalar none ['t'] true, ⟨7, 0, 7⟩⟩,
    ⟨.scalar none "description".toList true, ⟨9, 1, 0⟩⟩, ⟨.scalar none ['d'] true, ⟨22, 1, 13⟩⟩,
    ⟨.scalar none "policy".toList true, ⟨24, 2, 0⟩⟩, ⟨.mappingStart none, ⟨34, 3, 2⟩⟩,
    ⟨.scalar none "rule".toList true, ⟨34, 3, 2⟩⟩, ⟨.mappingStart none, ⟨44, 4, 4⟩⟩,
    ⟨.scalar none "type".toList true, ⟨44, 4, 4⟩⟩,
    ⟨.scalar none "\nPASS .../b.rego:1".toList false, ⟨50, 4, 10⟩⟩,
    ⟨.mappingEnd, ⟨72, 5, 0⟩⟩, ⟨.mappingEnd, ⟨72, 5, 0⟩⟩, ⟨.mappingEnd, ⟨72, 5, 0⟩⟩]

/-- What `forgedDocument` stands for. -/
def forgedValue : Value :=
  .mapping [(.string "title", .string "t"), (.string "description", .string "d"),
    (.string "policy", .mapping
      [(.string "rule", .mapping [(.string "type", .string "\nPASS .../b.rego:1")])])]

theorem ofText_forgedDocument : Value.ofText forgedDocument = .ok forgedValue := by
  have hParts : Document.ofText forgedDocument = ⟨forgedParts, none⟩ := by decide +kernel
  have hNode : (Read.node forgedParts 14 (Read.content forgedParts 14 128)).run ⟨forgedParts, 0⟩ =
      .ok (forgedValue, ⟨[], 0⟩) := by
    refine Read.run_node_mapping ?_
    refine Read.run_entries_cons (by decide) (Read.run_node_scalar rfl) rfl (Read.run_node_scalar rfl) ?_
    refine Read.run_entries_cons (by decide) (Read.run_node_scalar rfl) (by simp [Value.same])
      (Read.run_node_scalar rfl) ?_
    exact Read.run_entries_cons (by decide) (Read.run_node_scalar rfl) (by simp [Value.same])
      (Read.run_node_mapping
        (Read.run_entries_cons (by decide) (Read.run_node_scalar rfl) rfl
          (Read.run_node_mapping
            (Read.run_entries_cons (by decide) (Read.run_node_scalar rfl) rfl
              (Read.run_node_scalar rfl) Read.run_entries_nil))
          Read.run_entries_nil))
      Read.run_entries_nil
  rw [Value.ofText, hParts]
  exact Read.value_of_run_node hNode

/-- A file with `forgedDocument` in a block. -/
def forgedSource : List Char :=
  ("# METADATA: library-snippet\n# title: t\n# description: d\n# policy:\n" ++
    "#   rule:\n#     type: \"\\nPASS .../b.rego:1\"\n").toList

/-- The directory `lib`. -/
def forgedRoot : Path := ⟨[0x6C, 0x69, 0x62]⟩

/-- The file `lib/a.rego`. -/
def forgedFile : Path := ⟨[0x6C, 0x69, 0x62, 0x2F, 0x61, 0x2E, 0x72, 0x65, 0x67, 0x6F]⟩

/-- The directory with that file and nothing else. -/
def forgedTree : MemoryTree :=
  .ofList [(forgedRoot, .directory ["a.rego".toList]), (forgedFile, .file forgedSource)]

def ofForged : Check := ⟨forgedRoot, .text, none⟩

/-- What is found about the block. -/
def forgedOutcome : Outcome where
  filename := forgedFile
  location := some (.ofIndex 0)
  rawText := forgedDocument
  findings := [.schema "policy.rule.type"
    "unknown rule type \"\nPASS .../b.rego:1\"; expected \"rego\""]

theorem ofSource_forgedSource :
    Outcome.ofSource .default forgedFile forgedSource = [forgedOutcome] := by
  have hBlocks : Block.ofText .default forgedFile forgedSource =
      [⟨forgedFile, .ofIndex 0, 6, forgedDocument⟩] := by
    decide +kernel
  have hRefused : Metadata.ofText forgedDocument = .error (.violation
      ⟨[.field "policy", .field "rule", .field "type"], .unknownRuleType "\nPASS .../b.rego:1"⟩) := by
    rw [Metadata.ofText, ofText_forgedDocument]
    rfl
  rw [Outcome.ofSource, hBlocks, List.map_singleton, Outcome.ofBlock, Outcome.pushValidation, hRefused]
  rfl

theorem found_ofForged : ofForged.found forgedTree.fileSystem 3 = .ok [forgedOutcome] := by
  have hVisit : Visit.ofPath? forgedTree.fileSystem 3 forgedRoot =
      some (.node forgedRoot .directory [.node forgedFile .file []]) := by
    rfl
  have hOutcomes : Walk.outcomes forgedTree.fileSystem .default
      (.node forgedRoot .directory [.node forgedFile .file []]) = [forgedOutcome] := by
    have hAccepts : Config.default.acceptsPath forgedFile = true := by decide +kernel
    have hRead : forgedTree.fileSystem.read forgedFile = .ok forgedSource := by rfl
    rw [← ofSource_forgedSource]
    simp [Walk.outcomes, Visit.nodes, Visit.nodesOfList, Walk.outcomesAt, hAccepts, hRead]
  rw [found_eq_ok_iff]
  refine ⟨.default, _, rfl, hVisit, rfl, ?_⟩
  rw [hOutcomes]
  exact (List.mergeSort_singleton _).symm

theorem run_ofForged :
    ofForged.run forgedTree.fileSystem 3 (.empty none false) =
      (.ok 1, { Sink.empty none false with
        written := Utf8.encode (textReport forgedRoot [forgedOutcome]) }) := by
  have hDelivers : ofForged.Delivers (.empty none false) [forgedOutcome] :=
    ⟨fun h => (by cases h), fun n h => (by cases h), rfl⟩
  have hCode : (Summary.ofOutcomes [forgedOutcome]).exitCode = 1 := by rfl
  rw [run_of_delivers found_ofForged hDelivers, hCode]
  rfl

theorem isUnbroken_forgedFile : forgedFile.IsUnbroken := ⟨by decide, by decide⟩

/-- The report of a check with one outcome, which did not pass, tells two statuses, and the other one is
    that of a file which is not there. -/
theorem two_statuses_of_one_outcome :
    ofForged.found forgedTree.fileSystem 3 = .ok [forgedOutcome] ∧
    ofForged.run forgedTree.fileSystem 3 (.empty none false) =
      (.ok 1, { Sink.empty none false with
        written := Utf8.encode (textReport forgedRoot [forgedOutcome]) }) ∧
    forgedFile.IsUnbroken ∧
    statusLines (textReport forgedRoot [forgedOutcome]) =
      ["FAIL .../a.rego:1".toList, "PASS .../b.rego:1\"; expected \"rego\"".toList] := by
  refine ⟨found_ofForged, run_ofForged, isUnbroken_forgedFile, ?_⟩
  rw [statusLines_textReport forgedRoot (List.forall_mem_singleton.mpr isUnbroken_forgedFile)]
  decide +kernel

theorem statusLines_of_run_forged :
    ofForged.format = .text ∧
    ofForged.run forgedTree.fileSystem 3 (.empty none false) =
      (.ok 1, { Sink.empty none false with
        written := Utf8.encode (textReport forgedRoot [forgedOutcome]) }) ∧
    forgedFile.IsUnbroken ∧
    (statusLines (textReport forgedRoot [forgedOutcome])).countP isFailLine =
      1 + (forgedOutcome.findings.flatMap Finding.strayLines).countP isFailLine := by
  obtain ⟨outcomes, hFound, _, _, hLines⟩ := statusLines_of_run rfl run_ofForged
  have hOutcomes : outcomes = [forgedOutcome] := by
    rw [found_ofForged] at hFound
    exact (Except.ok.inj hFound).symm
  subst hOutcomes
  obtain ⟨_, _, hCount⟩ := hLines (List.forall_mem_singleton.mpr isUnbroken_forgedFile)
  have hFailed : forgedOutcome.passed = false := rfl
  refine ⟨rfl, run_ofForged, isUnbroken_forgedFile, ?_⟩
  rw [List.countP_singleton, List.flatMap_singleton, hFailed] at hCount
  exact hCount

end Check

end SnippetAudit
