import SnippetAudit.CommandLine
import SnippetAudit.Proofs.Path.Join
import SnippetAudit.Proofs.Source.Blocks
import SnippetAudit.Proofs.Text.Trim
import SnippetAudit.Proofs.Tree.Visits

/-!
# Configurations that can find something

A configuration is of use when some file name is accepted and some text has a block. Checking
it says only that no setting is blank, which is less: a comment sign or a marker that starts
with a blank is looked for where a blank has been trimmed off, one that holds a line feed is
looked for within a line, and a suffix that holds a separator is looked for in a file name. A
check with such a configuration ends without an outcome for any block, whatever the tree is.

Specification: `IsWorkable` and `FindsNothing`.

Results:
* `ofText_eq_nil_iff`: a file has no block iff no line of it is a marker line.
* `findsFile_iff`, `findsBlock_iff`: the settings that can find something.
* `isWorkable_iff_exists`: a workable configuration is one that reads some file with a block.
* `validate_and_isWorkable_iff`: what is accepted, what can find something, and what happens when
  it cannot.
* `not_isWorkable_indented`: an accepted configuration that finds nothing.
-/

namespace SnippetAudit

open Text

/-! ## Files without a block -/

namespace Block

variable {sign marker line : List Char}

/-- A file has no block iff no line of it is a marker line. -/
theorem ofText_eq_nil_iff {config : Config} {filename : Path} {text : List Char} :
    ofText config filename text = [] ↔
      ∀ line ∈ lines text, ¬ IsMarkerLine config.commentPrefix.toList config.marker.toList line := by
  rw [ofText_eq_filterMap_runs, List.filterMap_eq_nil_iff]
  constructor
  · intro h line hLine hMarker
    obtain ⟨n, hn⟩ := List.mem_iff_getElem?.mp hLine
    have hComment := mem_ofLines_zero_iff (c := ⟨n, _⟩).mpr ⟨line, hn, hMarker.1, rfl⟩
    obtain ⟨run, hRun, hMem⟩ : ∃ run ∈ runs (Comment.ofText _ text), _ ∈ run := by
      rw [← List.mem_flatten, flatten_runs]
      exact hComment
    have hNot := ofRun?_eq_none_iff.mp (h run hRun) _ hMem
    rw [(isMarker_iff hComment).mpr ⟨line, hn, hMarker⟩] at hNot
    cases hNot
  · intro h run hRun
    rw [ofRun?_eq_none_iff]
    intro c hc
    rw [← Bool.not_eq_true, isMarker_iff (mem_of_mem_runs hRun hc)]
    rintro ⟨line, hLine, hMarker⟩
    exact h line (List.mem_of_getElem? hLine) hMarker

theorem IsMarkerLine.startsBare (h : IsMarkerLine sign marker line) :
    StartsBare sign ∧ StartsBare marker :=
  ⟨(startsBare_trim line).start h.1, (startsBare_trimStart _).start h.2⟩

/-- The comment sign and the marker stand within a marker line. -/
theorem IsMarkerLine.sublist (h : IsMarkerLine sign marker line) :
    sign.Sublist line ∧ marker.Sublist line := by
  refine ⟨h.1.sublist.trans (trim_sublist line), h.2.sublist.trans ?_⟩
  exact (List.dropWhile_sublist isBlank).trans ((List.drop_sublist _ _).trans (trim_sublist line))

/-- A line with a comment sign, a marker and something behind it. -/
def sampleLine (sign marker : List Char) : List Char := sign ++ (marker ++ ['x'])

theorem getLast?_sampleLine (sign marker : List Char) :
    (sampleLine sign marker).getLast? = some 'x' := by
  rw [sampleLine, ← List.append_assoc, List.getLast?_concat]

/-- The sample line is a marker line if neither part of it starts with a blank. -/
theorem isMarkerLine_sampleLine (hSign : StartsBare sign) (hMarker : StartsBare marker) :
    IsMarkerLine sign marker (sampleLine sign marker) := by
  have hText : StartsBare (marker ++ ['x']) := hMarker.append (by decide)
  have hEnd : EndsBare (sampleLine sign marker) := by
    intro c hc
    rw [getLast?_sampleLine] at hc
    cases hc
    decide
  have hTrim : trim (sampleLine sign marker) = sign ++ (marker ++ ['x']) := by
    rw [trim, sampleLine, trimStart_eq_self (hSign.append hText)]
    exact trimEnd_eq_self hEnd
  refine ⟨?_, ?_⟩
  · rw [IsComment, hTrim]
    exact List.prefix_append _ _
  · rw [commentText, hTrim, List.drop_left, trimStart_eq_self hText]
    exact List.prefix_append _ _

end Block

namespace Config

/-! ## Specification -/

/-- Some entry of a directory is a source file by its name. -/
def FindsFile (c : Config) : Prop := ∃ name, Path.IsTextName name ∧ c.acceptsName name = true

/-- Some file has a block. -/
def FindsBlock (c : Config) : Prop := ∃ filename text, Block.ofText c filename text ≠ []

/-- The configuration can be worked with: there are names and texts it finds something in. -/
structure IsWorkable (c : Config) : Prop where
  findsFile : c.FindsFile
  findsBlock : c.FindsBlock

/-- Whatever is visited, an outcome is only ever about a path that could not be looked at. -/
def FindsNothing [Yaml.Wording] (c : Config) : Prop :=
  ∀ fs depth root v, Visit.ofPath? fs depth root = some v →
    ∀ o ∈ Walk.outcomes fs c v, ∃ path message, o = .fileFailure path (.io message)

variable {c : Config}

/-! ## What can be found -/

theorem findsFile_iff : c.FindsFile ↔ '/' ∉ c.sourceSuffix.toList := by
  constructor
  · rintro ⟨name, hName, hAccepts⟩ hSeparator
    obtain ⟨stem, _, rfl⟩ := acceptsName_iff.mp hAccepts
    exact hName.separator_not_mem (List.mem_append_right _ hSeparator)
  · intro hSuffix
    refine ⟨'x' :: c.sourceSuffix.toList, ⟨by simp, by simp, by simp, ?_⟩, ?_⟩
    · rw [List.mem_cons, not_or]
      exact ⟨by decide, hSuffix⟩
    · exact acceptsName_iff.mpr ⟨['x'], by simp, rfl⟩

theorem findsBlock_iff :
    c.FindsBlock ↔ ('\n' ∉ c.commentPrefix.toList ∧ StartsBare c.commentPrefix.toList) ∧
      '\n' ∉ c.marker.toList ∧ StartsBare c.marker.toList := by
  constructor
  · rintro ⟨filename, text, hBlocks⟩
    rw [ne_eq, Block.ofText_eq_nil_iff] at hBlocks
    push Not at hBlocks
    obtain ⟨line, hLine, hMarker⟩ := hBlocks
    have hFeed := Block.lineFeed_not_mem_lines hLine
    obtain ⟨hSign, hText⟩ := hMarker.sublist
    exact ⟨⟨fun h => hFeed (hSign.mem h), hMarker.startsBare.1⟩,
      fun h => hFeed (hText.mem h), hMarker.startsBare.2⟩
  · rintro ⟨⟨hSignFeed, hSign⟩, hMarkerFeed, hMarker⟩
    have hFeed : '\n' ∉ Block.sampleLine c.commentPrefix.toList c.marker.toList := by
      simp [Block.sampleLine, hSignFeed, hMarkerFeed]
    have hReturn : (Block.sampleLine c.commentPrefix.toList c.marker.toList).getLast? ≠ some '\r' := by
      rw [Block.getLast?_sampleLine]
      decide
    refine ⟨⟨[]⟩, Block.sampleLine c.commentPrefix.toList c.marker.toList ++ ['\n'], ?_⟩
    rw [ne_eq, Block.ofText_eq_nil_iff, lines_line_append hFeed hReturn]
    intro h
    exact h _ List.mem_cons_self (Block.isMarkerLine_sampleLine hSign hMarker)

theorem findsFile_iff_acceptsPath : c.FindsFile ↔ ∃ path, c.acceptsPath path = true := by
  constructor
  · rintro ⟨name, hName, hAccepts⟩
    refine ⟨(Path.mk []).join ⟨Utf8.encode name⟩, ?_⟩
    rw [acceptsPath, Path.fileName?_join _ hName.isName, Option.any_some, Utf8.decodeLossy_encode]
    exact hAccepts
  · rintro ⟨path, hAccepts⟩
    unfold acceptsPath at hAccepts
    cases hName : path.fileName? with
    | none => rw [hName] at hAccepts; cases hAccepts
    | some name =>
      rw [hName, Option.any_some] at hAccepts
      exact ⟨_, (Path.isName_of_fileName? hName).isTextName, hAccepts⟩

/-- A workable configuration is one that reads some file with a block. -/
theorem isWorkable_iff_exists :
    c.IsWorkable ↔ ∃ path text, c.acceptsPath path = true ∧ Block.ofText c path text ≠ [] := by
  constructor
  · rintro ⟨hFile, filename, text, hBlocks⟩
    obtain ⟨path, hAccepts⟩ := findsFile_iff_acceptsPath.mp hFile
    refine ⟨path, text, hAccepts, ?_⟩
    -- whether there is a block does not depend on the name of the file
    rw [ne_eq, Block.ofText_eq_nil_iff] at hBlocks ⊢
    exact hBlocks
  · rintro ⟨path, text, hAccepts, hBlocks⟩
    exact ⟨findsFile_iff_acceptsPath.mpr ⟨path, hAccepts⟩, path, text, hBlocks⟩

/-! ## What a walk finds -/

/-- A file system in which every path is a file with the same text. -/
def everywhere (text : List Char) : FileSystem where
  stat := fun _ => .file
  list := fun _ => .ok []
  read := fun _ => .ok text

theorem not_isWorkable_iff [Yaml.Wording] : ¬ c.IsWorkable ↔ c.FindsNothing := by
  rw [isWorkable_iff_exists]
  constructor
  · intro hNot fs depth root v hVisit o ho
    obtain ⟨⟨path, found⟩, _, hMem⟩ := List.mem_flatMap.mp ho
    rcases Walk.cases_of_mem_outcomesAt hMem with ⟨message, rfl⟩ | ⟨hAccepts, text, _, b, hb, _⟩
    · exact ⟨path, message, rfl⟩
    · exact absurd ⟨path, text, hAccepts, List.ne_nil_of_mem hb⟩ hNot
  · rintro hNothing ⟨path, text, hAccepts, hBlocks⟩
    obtain ⟨b, hb⟩ := List.exists_mem_of_ne_nil _ hBlocks
    have hOutcome : Outcome.ofBlock b ∈ Walk.outcomes (everywhere text) c (.node path .file []) := by
      refine List.mem_flatMap.mpr ⟨(path, .file), List.mem_cons_self, ?_⟩
      simp only [Walk.outcomesAt, if_pos hAccepts, everywhere]
      exact Walk.mem_ofSource_iff.mpr ⟨b, hb, rfl⟩
    obtain ⟨_, _, hFailure⟩ := hNothing (everywhere text) 1 path _ rfl _ hOutcome
    have hLocation := congrArg Outcome.location hFailure
    rw [Outcome.location_ofBlock] at hLocation
    cases hLocation

/-- A configuration is accepted iff each setting holds a character that is no blank. It can be worked
    with iff the suffix holds no separator, and the comment sign and the marker hold no line feed and
    do not start with a blank. One that cannot be worked with is silent about every tree. -/
theorem validate_and_isWorkable_iff [Yaml.Wording] (c : Config) :
    (c.validate = .ok c ↔ ∀ field, ∃ char ∈ (c.get field).toList, isBlank char = false) ∧
    (c.IsWorkable ↔ '/' ∉ c.sourceSuffix.toList ∧
      ('\n' ∉ c.commentPrefix.toList ∧ StartsBare c.commentPrefix.toList) ∧
      '\n' ∉ c.marker.toList ∧ StartsBare c.marker.toList) ∧
    (¬ c.IsWorkable ↔ c.FindsNothing) := by
  refine ⟨?_, ?_, not_isWorkable_iff⟩
  · rw [validate_eq_ok_iff]
    simp [isBlankAt, isAllBlank]
  · rw [← findsFile_iff, ← findsBlock_iff]
    exact ⟨fun h => ⟨h.findsFile, h.findsBlock⟩, fun h => ⟨h.1, h.2⟩⟩

/-! ## A configuration that finds nothing -/

/-- The default settings with a comment sign behind a blank. -/
def indented : Config := Config.default.set .commentPrefix " #"

/-- An accepted configuration that finds nothing. -/
theorem not_isWorkable_indented :
    indented.validate = .ok indented ∧ ¬ indented.IsWorkable ∧ indented.FindsNothing := by
  have hNot : ¬ indented.IsWorkable := by
    intro h
    exact absurd (findsBlock_iff.mp h.findsBlock).1.2 (by decide)
  exact ⟨by decide, hNot, not_isWorkable_iff.mp hNot⟩

end Config

end SnippetAudit
