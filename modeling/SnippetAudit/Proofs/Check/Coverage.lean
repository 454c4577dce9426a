import SnippetAudit.Proofs.Check.Status
import SnippetAudit.Proofs.Tree.Resolution
import SnippetAudit.Proofs.Tree.Visits

/-!
# What a check without findings has looked at

A check of a tree on a disk that ends with status zero has found nothing wrong with what it
read. A file is read if the names on the way to it are text. A name that is no text is looked
for under the name that it is listed with, so the file behind it is not read; and when the
check ends with status zero, that other name is there as well.

Results:
* `run_cases`: the status of a check is that of the outcomes of its visits.
* `mem_nodes_of_reaches`: everything is visited that is reached by names that are text.
* `read_iff_of_run_ok_zero`: which files are read, and what is known about those that are and
  those that are not.
-/

namespace SnippetAudit

open Text

/-- What a file system says is what is on the disk, or that it failed to look. -/
structure FileSystem.AnswersFrom (fs : FileSystem) (d : Disk) : Prop where
  stat : ∀ path, fs.stat path = d.stat path ∨ ∃ message, fs.stat path = .failure message
  list : ∀ path, fs.list path = d.list path ∨ ∃ message, fs.list path = .error message
  read : ∀ path, fs.read path = d.read path ∨ ∃ message, fs.read path = .error message

theorem Disk.answersFrom_fileSystem (d : Disk) : d.fileSystem.AnswersFrom d where
  stat := fun _ => .inl rfl
  list := fun _ => .inl rfl
  read := fun _ => .inl rfl

/-- A name is text if it is the encoding of one. -/
def IsText (name : List UInt8) : Prop := ∃ text, name = Utf8.encode text

theorem not_isText_of_decode? {name : List UInt8} (h : Utf8.decode? name = none) : ¬ IsText name := by
  rintro ⟨text, hName⟩
  rw [Utf8.decode?_eq_some_iff.mpr hName] at h
  cases h

namespace Check

/-! ## Status zero -/

/-- A check that ends with a status has a configuration and a visit tree without a crash, and the
    status is that of the outcomes of the visits. -/
theorem run_cases [Yaml.Wording] {c : Check} {fs : FileSystem} {depth code : ℕ} {sink : Report.Sink}
    (h : (c.run fs depth sink).1 = .ok code) :
    ∃ config v, loadConfig fs c.configFile = .ok config ∧ Visit.ofPath? fs depth c.root = some v ∧
      Walk.crash? fs config v = none ∧
      code = (Report.Summary.ofOutcomes (Outcome.sort (Walk.outcomes fs config v))).exitCode := by
  obtain ⟨outcomes, hFound, _, hCode, _⟩ := exists_found_of_run (Prod.ext h rfl)
  obtain ⟨config, v, hConfig, hVisit, hCrash, rfl⟩ := found_eq_ok_iff.mp hFound
  exact ⟨config, v, hConfig, hVisit, hCrash, hCode⟩

theorem passed_of_exitCode_eq_zero {outcomes : List Outcome}
    (h : (Report.Summary.ofOutcomes outcomes).exitCode = 0) : ∀ o ∈ outcomes, o.passed = true := by
  have hErrors : (Report.Summary.ofOutcomes outcomes).errors = 0 := by
    unfold Report.Summary.exitCode at h
    omega
  have hFindings : outcomes.flatMap (·.findings) = [] := List.length_eq_zero_iff.mp hErrors
  intro o ho
  rw [Outcome.passed, List.isEmpty_iff]
  exact List.flatMap_eq_nil_iff.mp hFindings o ho

end Check

/-! ## Visits without a failure -/

/-- A visit tree whose outcomes all passed. -/
structure Visit.IsClean [Yaml.Wording] (fs : FileSystem) (config : Config) (depth : ℕ) (root : Path)
    (v : Visit) : Prop where
  ofPath : Visit.ofPath? fs depth root = some v
  crash : Walk.crash? fs config v = none
  passed : ∀ o ∈ Walk.outcomes fs config v, o.passed = true

namespace Visit.IsClean

variable {fs : FileSystem} {d : Disk} {config : Config} {depth : ℕ} {root path : Path} {v : Visit}

theorem passed_at [Yaml.Wording] (h : IsClean fs config depth root v) {found : Discovery}
    (hMem : (path, found) ∈ v.nodes) :
    ∀ o ∈ Walk.outcomesAt fs config path found, o.passed = true := by
  intro o ho
  exact h.passed o (List.mem_flatMap.mpr ⟨_, hMem, ho⟩)

/-- Every path that is visited stands for something. -/
theorem stat_ne_failure [Yaml.Wording] (h : IsClean fs config depth root v)
    (hMem : (path, discover fs path) ∈ v.nodes) (message : String) :
    fs.stat path ≠ .failure message := by
  intro hStat
  have hPassed := h.passed_at hMem
  rw [discover, hStat] at hPassed
  cases hPassed _ List.mem_cons_self

/-- Every directory that is visited lists its names. -/
theorem list_ne_error [Yaml.Wording] (h : IsClean fs config depth root v)
    (hMem : (path, discover fs path) ∈ v.nodes) (hStat : fs.stat path = .directory)
    (message : String) : fs.list path ≠ .error message := by
  intro hList
  have hPassed := h.passed_at hMem
  rw [discover, hStat] at hPassed
  simp only [hList] at hPassed
  cases hPassed _ List.mem_cons_self

/-- Every file that is accepted is text, and every block of it passes. -/
theorem read_of_file [Yaml.Wording] (h : IsClean fs config depth root v)
    (hMem : (path, discover fs path) ∈ v.nodes) (hStat : fs.stat path = .file)
    (hName : config.acceptsPath path = true) :
    ∃ text, fs.read path = .ok text ∧
      ∀ b ∈ Block.ofText config path text, ∃ m, Metadata.ofText b.rawText = .ok m := by
  have hPassed := h.passed_at hMem
  rw [discover, hStat, Walk.outcomesAt, if_pos hName] at hPassed
  cases hRead : fs.read path with
  | crash message =>
    have hPath : path ∈ v.paths := List.mem_map.mpr ⟨_, hMem, rfl⟩
    have hNot := (Walk.crash?_eq_none_iff h.ofPath).mp h.crash path hPath message
    exact absurd (.inr (.inr ⟨hStat, hName, hRead⟩)) hNot
  | error message =>
    rw [hRead] at hPassed
    cases hPassed _ List.mem_cons_self
  | ok text =>
    rw [hRead] at hPassed
    refine ⟨text, rfl, ?_⟩
    intro b hb
    exact Outcome.passed_ofBlock_iff.mp (hPassed _ (Walk.mem_ofSource_iff.mpr ⟨b, hb, rfl⟩))

/-! ## Visits of a disk -/

theorem resolve_of_mem_nodes [Yaml.Wording] (h : IsClean fs config depth root v)
    (hAnswers : fs.AnswersFrom d) (hMem : (path, discover fs path) ∈ v.nodes) :
    fs.stat path = d.stat path ∧ ∃ r, d.resolve path = .ok r := by
  rcases hAnswers.stat path with hStat | ⟨message, hStat⟩
  · refine ⟨hStat, ?_⟩
    cases hResolve : d.resolve path with
    | ok r => exact ⟨r, rfl⟩
    | error fault =>
      rw [Disk.stat, hResolve] at hStat
      exact absurd hStat (h.stat_ne_failure hMem _)
  · exact absurd hStat (h.stat_ne_failure hMem message)

/-- A directory that is visited lists each of its entries under what its name is read as. -/
theorem mem_entryNames [Yaml.Wording] (h : IsClean fs config depth root v) (hAnswers : fs.AnswersFrom d)
    (hMem : (path, discover fs path) ∈ v.nodes) {directory : List (List UInt8)}
    (hResolve : d.resolve path = .ok (directory, .directory)) {name : List UInt8}
    (hName : name ∈ d.namesIn directory) : Utf8.decodeLossy name ∈ entryNames fs path := by
  have hStat : fs.stat path = .directory := by
    rw [(h.resolve_of_mem_nodes hAnswers hMem).1, Disk.stat, hResolve]
  have hList : fs.list path =
      .ok (((d.namesIn directory).map Utf8.decodeLossy).mergeSort Disk.nameBefore) := by
    rcases hAnswers.list path with hList | ⟨message, hList⟩
    · rw [hList, Disk.list, hResolve]
    · exact absurd hList (h.list_ne_error hMem hStat message)
  rw [entryNames, hStat, hList]
  exact List.mem_mergeSort.mpr (List.mem_map.mpr ⟨name, hName, rfl⟩)

/-- Only a directory lists names, and these are what the names of its entries are read as. -/
theorem exists_of_mem_entryNames [Yaml.Wording] (h : IsClean fs config depth root v)
    (hAnswers : fs.AnswersFrom d)
    (hMem : (path, discover fs path) ∈ v.nodes) {r : List (List UInt8) × Disk.Entry}
    (hResolve : d.resolve path = .ok r) {text : List Char} (hText : text ∈ entryNames fs path) :
    ∃ directory name, r = (directory, .directory) ∧ name ∈ d.namesIn directory ∧
      text = Utf8.decodeLossy name := by
  unfold entryNames at hText
  split at hText
  · rename_i names hStat hList
    have hDirectory : d.stat path = .directory := by
      rw [← (h.resolve_of_mem_nodes hAnswers hMem).1, hStat]
    obtain ⟨directory, entry⟩ := r
    have hEntry : entry = .directory := by
      rw [Disk.stat, hResolve] at hDirectory
      cases entry <;> first | rfl | cases hDirectory
    subst hEntry
    have hNames : names = ((d.namesIn directory).map Utf8.decodeLossy).mergeSort Disk.nameBefore := by
      rcases hAnswers.list path with hSame | ⟨message, hError⟩
      · rw [hSame, Disk.list, hResolve] at hList
        exact (Answer.ok.inj hList).symm
      · rw [hError] at hList
        cases hList
    rw [hNames, List.mem_mergeSort] at hText
    obtain ⟨name, hName, hRead⟩ := List.mem_map.mp hText
    exact ⟨directory, name, rfl, hName, hRead.symm⟩
  · cases hText

/-- The entry of a directory that is visited is visited under what its name is read as, and
    there is something under that name. -/
theorem join_mem_nodes_of_mem_namesIn [Yaml.Wording] (h : IsClean fs config depth root v)
    (hAnswers : fs.AnswersFrom d) (hMem : (path, discover fs path) ∈ v.nodes)
    {directory : List (List UInt8)} (hResolve : d.resolve path = .ok (directory, .directory))
    {name : List UInt8} (hName : name ∈ d.namesIn directory) (hIsName : Path.IsName name) :
    let child := path.join (.ofText (Utf8.decodeLossy name))
    (child, discover fs child) ∈ v.nodes ∧
      ∃ r, d.resolve child = .ok r ∧ d.Leads directory [Utf8.encode (Utf8.decodeLossy name)] r := by
  intro child
  have hChild : (child, discover fs child) ∈ v.nodes :=
    join_mem_nodes h.ofPath hMem (h.mem_entryNames hAnswers hMem hResolve hName)
  obtain ⟨_, r, hResolve'⟩ := h.resolve_of_mem_nodes hAnswers hChild
  obtain ⟨hNil, hLeads⟩ := Disk.leads_of_resolve hResolve
  have hChildLeads := (Disk.leads_of_resolve hResolve').2
  exact ⟨hChild, r, hResolve', hLeads.join hIsName.isTextName.isName hNil hChildLeads⟩

/-- Everything is visited that is reached by names that are text. -/
theorem mem_nodes_of_reaches [Yaml.Wording] (h : IsClean fs config depth root v)
    (hAnswers : fs.AnswersFrom d)
    (hDisk : d.HasNames) {way : List (List UInt8)} {r : List (List UInt8) × Disk.Entry}
    (hReaches : d.Reaches root way r) (hText : ∀ name ∈ way, IsText name) :
    (root.joinAll way, discover fs (root.joinAll way)) ∈ v.nodes ∧
      d.resolve (root.joinAll way) = .ok r := by
  induction hReaches with
  | root hLeads =>
    have hMem := root_mem_nodes h.ofPath
    obtain ⟨_, r', hResolve⟩ := h.resolve_of_mem_nodes hAnswers hMem
    rw [hLeads.unique (Disk.leads_of_resolve hResolve).2]
    exact ⟨hMem, hResolve⟩
  | @entry way directory name r hReaches hName hLeads ih =>
    obtain ⟨hMem, hResolve⟩ := ih fun n hn => hText n (List.mem_append_left _ hn)
    obtain ⟨text, rfl⟩ := hText name (List.mem_append_right _ (List.mem_singleton_self _))
    obtain ⟨hChild, r', hResolve', hLeads'⟩ := h.join_mem_nodes_of_mem_namesIn hAnswers hMem hResolve
      hName (Disk.isName_of_mem_namesIn hDisk hName)
    rw [Utf8.decodeLossy_encode] at hChild hResolve' hLeads'
    rw [Path.joinAll_concat, hLeads.unique hLeads']
    exact ⟨hChild, hResolve'⟩

/-- Everything that is visited is reached by names that are text. -/
theorem exists_reaches_of_mem_nodes [Yaml.Wording] (h : IsClean fs config depth root v)
    (hAnswers : fs.AnswersFrom d) (hDisk : d.HasNames) {found : Discovery}
    (hMem : (path, found) ∈ v.nodes) :
    found = discover fs path ∧ ∃ way r, (∀ name ∈ way, IsText name) ∧ path = root.joinAll way ∧
      d.resolve path = .ok r ∧ d.Reaches root way r := by
  have hRootMem := root_mem_nodes h.ofPath
  obtain ⟨_, r, hResolve⟩ := h.resolve_of_mem_nodes hAnswers hRootMem
  refine nodes_induction (P := fun q => ∃ way r, (∀ name ∈ way, IsText name) ∧
    q = root.joinAll way ∧ d.resolve q = .ok r ∧ d.Reaches root way r) h.ofPath
    ⟨[], r, by simp, rfl, hResolve, .root (Disk.leads_of_resolve hResolve).2⟩ ?_ hMem
  rintro q text hq ⟨way, r, hText, rfl, hResolve, hReaches⟩ hListed
  obtain ⟨directory, name, rfl, hName, rfl⟩ := h.exists_of_mem_entryNames hAnswers hq hResolve hListed
  have hIsName := Disk.isName_of_mem_namesIn hDisk hName
  obtain ⟨_, r', hResolve', hLeads⟩ :=
    h.join_mem_nodes_of_mem_namesIn hAnswers hq hResolve hName hIsName
  have hListedName := Disk.mem_namesIn_of_leads hIsName.isTextName.isName hLeads
  refine ⟨way ++ [Utf8.encode (Utf8.decodeLossy name)], r', ?_, ?_, hResolve',
    .entry hReaches hListedName hLeads⟩
  · intro n hn
    rcases List.mem_append.mp hn with hn | hn
    · exact hText n hn
    · exact ⟨_, List.mem_singleton.mp hn⟩
  · rw [Path.joinAll_concat]
    rfl

end Visit.IsClean

namespace Config

/-- The path ends in a name that carries the source suffix behind something else. -/
def NamesSource (config : Config) (path : Path) : Prop :=
  ∃ stem, stem ≠ [] ∧ path.fileName? = some (stem ++ Utf8.encode config.sourceSuffix.toList)

/-- Below a root it is the name of the entry that carries the suffix. -/
theorem namesSource_joinAll_concat_iff {config : Config} {root : Path} {way : List (List UInt8)}
    {name : List UInt8} (h : Path.IsName name) :
    config.NamesSource (root.joinAll (way ++ [name])) ↔
      ∃ stem, stem ≠ [] ∧ name = stem ++ Utf8.encode config.sourceSuffix.toList := by
  unfold NamesSource
  rw [Path.joinAll_concat, Path.fileName?_join _ h]
  simp only [Option.some.injEq]

theorem acceptsPath_of_namesSource {config : Config} {path : Path} (h : config.NamesSource path) :
    config.acceptsPath path = true := by
  obtain ⟨stem, hStem, hName⟩ := h
  rw [acceptsPath, hName, Option.any_some, acceptsName_iff, Utf8.decodeLossy_append_encode]
  exact ⟨Utf8.decodeLossy stem, Utf8.decodeLossy_ne_nil hStem, rfl⟩

end Config

theorem Walk.mem_readCalls_iff {config : Config} {v : Visit} {path : Path} :
    path ∈ Walk.readCalls config v ↔
      (path, Discovery.file) ∈ v.nodes ∧ config.acceptsPath path = true := by
  unfold Walk.readCalls
  rw [List.mem_filterMap]
  constructor
  · rintro ⟨⟨p, found⟩, hMem, hRead⟩
    simp only at hRead
    split at hRead
    · rename_i hFile
      cases hRead
      exact ⟨hFile.1 ▸ hMem, hFile.2⟩
    · cases hRead
  · rintro ⟨hMem, hName⟩
    exact ⟨(path, .file), hMem, by simp [hName]⟩

/-- What is read of a file is its text. -/
theorem decode?_of_read {fs : FileSystem} {d : Disk} (hAnswers : fs.AnswersFrom d) {path : Path}
    {names : List (List UInt8)} {bytes : List UInt8} {text : List Char}
    (hResolve : d.resolve path = .ok (names, .file bytes)) (hRead : fs.read path = .ok text) :
    Utf8.decode? bytes = some text := by
  rcases hAnswers.read path with hSame | ⟨message, hError⟩
  · rw [hSame, Disk.read, hResolve] at hRead
    simp only at hRead
    split at hRead
    · rename_i content hContent
      rw [hContent, Answer.ok.inj hRead]
    · cases hRead
  · rw [hError] at hRead
    cases hRead

namespace Check

/-- Which files a check with status zero has read. A file is read at all iff it is reached by
    names that are text and is accepted under the last one. Under the names by which it is
    reached it is read iff they are text, and then its blocks all pass; where a name is no text,
    what that name is read as is the name of another entry. -/
theorem read_iff_of_run_ok_zero [Yaml.Wording] {d : Disk} (hDisk : d.HasNames) {fs : FileSystem}
    (hAnswers : fs.AnswersFrom d) {c : Check} {depth : ℕ} {sink : Report.Sink}
    (hRun : (c.run fs depth sink).1 = .ok 0) :
    ∃ config v, loadConfig fs c.configFile = .ok config ∧ Visit.ofPath? fs depth c.root = some v ∧
      (∀ names bytes,
        (∃ path ∈ Walk.readCalls config v, d.resolve path = .ok (names, .file bytes)) ↔
          ∃ way, d.Reaches c.root way (names, .file bytes) ∧
            config.acceptsPath (c.root.joinAll way) = true ∧ ∀ name ∈ way, IsText name) ∧
      ∀ way names bytes, d.Reaches c.root way (names, .file bytes) →
        config.NamesSource (c.root.joinAll way) →
        (c.root.joinAll way ∈ Walk.readCalls config v ↔ ∀ name ∈ way, IsText name) ∧
        ((∀ name ∈ way, IsText name) → ∃ text, Utf8.decode? bytes = some text ∧
          ∀ b ∈ Block.ofText config (c.root.joinAll way) text,
            ∃ m, Metadata.ofText b.rawText = .ok m) ∧
        ((¬ ∀ name ∈ way, IsText name) → ∃ front name back directory,
          way = front ++ name :: back ∧ ¬ IsText name ∧
          d.Reaches c.root front (directory, .directory) ∧ name ∈ d.namesIn directory ∧
          Utf8.encode (Utf8.decodeLossy name) ∈ d.namesIn directory) := by
  obtain ⟨config, v, hConfig, hVisit, hCrash, hCode⟩ := run_cases hRun
  have hClean : Visit.IsClean fs config depth c.root v := by
    refine ⟨hVisit, hCrash, ?_⟩
    intro o ho
    exact passed_of_exitCode_eq_zero hCode.symm o ((Outcome.sort_perm _).mem_iff.mpr ho)
  -- a file reached by names that are text is read under these names
  have hRead {way names bytes} (hReaches : d.Reaches c.root way (names, .file bytes))
      (hText : ∀ name ∈ way, IsText name)
      (hName : config.acceptsPath (c.root.joinAll way) = true) :
      c.root.joinAll way ∈ Walk.readCalls config v ∧
        d.resolve (c.root.joinAll way) = .ok (names, .file bytes) ∧
        fs.stat (c.root.joinAll way) = .file := by
    obtain ⟨hMem, hResolve⟩ := hClean.mem_nodes_of_reaches hAnswers hDisk hReaches hText
    have hStat : fs.stat (c.root.joinAll way) = .file := by
      rw [(hClean.resolve_of_mem_nodes hAnswers hMem).1, Disk.stat, hResolve]
    rw [Visit.discover, hStat] at hMem
    exact ⟨Walk.mem_readCalls_iff.mpr ⟨hMem, hName⟩, hResolve, hStat⟩
  refine ⟨config, v, hConfig, hVisit, ?_, ?_⟩
  · intro names bytes
    constructor
    · rintro ⟨path, hCall, hResolve⟩
      obtain ⟨hMem, hName⟩ := Walk.mem_readCalls_iff.mp hCall
      obtain ⟨_, way, r, hText, rfl, hResolve', hReaches⟩ :=
        hClean.exists_reaches_of_mem_nodes hAnswers hDisk hMem
      cases hResolve.symm.trans hResolve'
      exact ⟨way, hReaches, hName, hText⟩
    · rintro ⟨way, hReaches, hName, hText⟩
      obtain ⟨hCall, hResolve, _⟩ := hRead hReaches hText hName
      exact ⟨_, hCall, hResolve⟩
  · intro way names bytes hReaches hSource
    have hName := Config.acceptsPath_of_namesSource hSource
    refine ⟨⟨?_, fun hText => (hRead hReaches hText hName).1⟩, ?_, ?_⟩
    · intro hCall
      obtain ⟨hMem, _⟩ := Walk.mem_readCalls_iff.mp hCall
      obtain ⟨_, way', r, hText, hPath, _, hReaches'⟩ :=
        hClean.exists_reaches_of_mem_nodes hAnswers hDisk hMem
      -- the names that are joined to the root can be told from the path
      have hWay : way = way' := Path.joinAll_inj c.root (Disk.isName_of_mem_way hDisk hReaches)
        (Disk.isName_of_mem_way hDisk hReaches') (by rw [hPath])
      rw [hWay]
      exact hText
    · intro hText
      obtain ⟨_, hResolve, hStat⟩ := hRead hReaches hText hName
      obtain ⟨hMem, _⟩ := hClean.mem_nodes_of_reaches hAnswers hDisk hReaches hText
      obtain ⟨text, hContent, hBlocks⟩ := hClean.read_of_file hMem hStat hName
      exact ⟨text, decode?_of_read hAnswers hResolve hContent, hBlocks⟩
    · intro hNot
      obtain ⟨front, name, back, rfl, hFront, hName⟩ := exists_first_of_not_forall hNot
      obtain ⟨directory, hDirectory, hEntry⟩ := hReaches.split
      obtain ⟨hMem, hResolve⟩ := hClean.mem_nodes_of_reaches hAnswers hDisk hDirectory hFront
      have hIsName := Disk.isName_of_mem_namesIn hDisk hEntry
      obtain ⟨_, _, _, hLeads⟩ :=
        hClean.join_mem_nodes_of_mem_namesIn hAnswers hMem hResolve hEntry hIsName
      exact ⟨front, name, back, directory, rfl, hName, hDirectory, hEntry,
        Disk.mem_namesIn_of_leads hIsName.isTextName.isName hLeads⟩

/-! ## A file that is not read -/

/-- The name `lib`. -/
def libName : List UInt8 := [0x6C, 0x69, 0x62]

/-- A name with the source suffix that is no text. -/
def brokenName : List UInt8 := [0xFF, 0x2E, 0x72, 0x65, 0x67, 0x6F]

/-- What `brokenName` is read as. -/
def replacedName : List UInt8 := [0xEF, 0xBF, 0xBD, 0x2E, 0x72, 0x65, 0x67, 0x6F]

/-- A directory with both names. The file whose name is no text is no text either. -/
def twins : Disk where
  entries := [([libName], .directory), ([libName, brokenName], .file [0xFF]),
    ([libName, replacedName], .file [])]
  workingDirectory := []

def ofTwins : Check := ⟨⟨libName⟩, .text, none⟩

/-- The visits of `twins`: the name that is text is visited twice. -/
def visitOfTwins : Visit :=
  .node ⟨libName⟩ .directory
    [.node ((Path.mk libName).join ⟨replacedName⟩) .file [],
      .node ((Path.mk libName).join ⟨replacedName⟩) .file []]

theorem list_twins :
    twins.list ⟨libName⟩ = .ok (List.replicate 2 ['\uFFFD', '.', 'r', 'e', 'g', 'o']) := by
  have hResolve : twins.resolve ⟨libName⟩ = .ok ([libName], .directory) := by rfl
  have hNames : (twins.namesIn [libName]).map Utf8.decodeLossy =
      List.replicate 2 ['\uFFFD', '.', 'r', 'e', 'g', 'o'] := by
    decide +kernel
  rw [Disk.list, hResolve]
  simp only
  rw [hNames, List.mergeSort_of_pairwise (by decide +kernel)]

theorem ofPath?_twins : Visit.ofPath? twins.fileSystem 3 ⟨libName⟩ = some visitOfTwins := by
  have hStat : twins.fileSystem.stat ⟨libName⟩ = .directory := by rfl
  have hList : twins.fileSystem.list ⟨libName⟩ = _ := list_twins
  rw [Visit.ofPath?, hStat, hList]
  rfl

theorem run_twins : (ofTwins.run twins.fileSystem 3 (.empty none false)).1 = .ok 0 := by
  have hCrash : Walk.crash? twins.fileSystem .default visitOfTwins = none := by decide +kernel
  have hNone : Walk.outcomes twins.fileSystem .default visitOfTwins = [] := by decide +kernel
  have hEnding : Walk.ending twins.fileSystem .default visitOfTwins = .completed [] := by
    rw [Walk.ending, hCrash, hNone]
  have hConfig : loadConfig twins.fileSystem ofTwins.configFile = .ok .default := by rfl
  have hOutcomes : (Except.ok Config.default >>= ofTwins.outcomes twins.fileSystem 3) = .ok [] := by
    change ofTwins.outcomes twins.fileSystem 3 .default = .ok []
    rw [outcomes, show ofTwins.root = ⟨libName⟩ from rfl, ofPath?_twins]
    simp only [hEnding, Outcome.sort, List.mergeSort_nil]
  rw [run, hConfig, hOutcomes]
  rfl

theorem reaches_twins :
    twins.Reaches ⟨libName⟩ [brokenName] ([libName, brokenName], .file [0xFF]) := by
  have hRoot : twins.resolve ⟨libName⟩ = .ok ([libName], .directory) := by rfl
  have hEntry : twins.resolveFrom 1 [libName] [brokenName] =
      .ok ([libName, brokenName], .file [0xFF]) := by rfl
  exact .entry (.root (Disk.leads_of_resolve hRoot).2) (by decide) (Disk.leads_of_resolveFrom hEntry)

/-- A check of `twins` ends with status zero, and has not read the file whose name is no text. -/
theorem not_mem_readCalls_twins :
    (ofTwins.run twins.fileSystem 3 (.empty none false)).1 = .ok 0 ∧
    twins.Reaches ofTwins.root [brokenName] ([libName, brokenName], .file [0xFF]) ∧
    ∃ config v, loadConfig twins.fileSystem ofTwins.configFile = .ok config ∧
      Visit.ofPath? twins.fileSystem 3 ofTwins.root = some v ∧
      config.NamesSource (ofTwins.root.joinAll [brokenName]) ∧
      ofTwins.root.joinAll [brokenName] ∉ Walk.readCalls config v := by
  refine ⟨run_twins, reaches_twins, ?_⟩
  obtain ⟨config, v, hConfig, hVisit, _, hWays⟩ :=
    read_iff_of_run_ok_zero (by decide : twins.HasNames) twins.answersFrom_fileSystem run_twins
  have hDefault : config = .default := (Except.ok.inj hConfig).symm
  have hSource : config.NamesSource (ofTwins.root.joinAll ([] ++ [brokenName])) := by
    rw [hDefault, Config.namesSource_joinAll_concat_iff (by decide)]
    exact ⟨[0xFF], by simp, by decide⟩
  refine ⟨config, v, hConfig, hVisit, hSource, ?_⟩
  intro hCall
  have hText := (hWays _ _ _ reaches_twins hSource).1.mp hCall
  exact not_isText_of_decode? (by decide) (hText brokenName List.mem_cons_self)

end Check

end SnippetAudit
