import SnippetAudit.CommandLine
import SnippetAudit.Proofs.Path.Display
import SnippetAudit.Proofs.Report.Writing
import SnippetAudit.Proofs.Tree.Tasks

/-!
# Checks of a tree that is moved

The root of a check is in the path of every entry that it visits, in the order of the outcomes and
in the text of the report. In none of these does it tell: the paths below two roots go along with
each other name by name, they are ordered by these names, and the names are what is shown. So the
same tree under another root has the same text report, whichever way the roots are written.

The root itself is the one path that names no entry. A file there is read or not by its own name,
so roots that are files are left out.

Results:
* `Path.Corresponds`, `FileSystem.Mirrors`: the same place below two roots, and the same tree there.
* `Visit.forall₂_nodes`, `Walk.forall₂_outcomes`: visits of mirrored trees go along with each other.
* `Check.report_eq_of_mirrors`: the law for walks and for whole checks.
-/

namespace SnippetAudit

open Text Report

/-! ## Places -/

namespace Path

/-- The same names lead from the one root to the one place and from the other root to the other. -/
def Corresponds (root root' p p' : Path) : Prop :=
  ∃ texts : List (List Char), (∀ text ∈ texts, IsTextName text) ∧
    p = root.joinAll (texts.map Utf8.encode) ∧ p' = root'.joinAll (texts.map Utf8.encode)

variable {root root' p p' q q' : Path}

theorem Corresponds.roots (root root' : Path) : Corresponds root root' root root' :=
  ⟨[], by simp, rfl, rfl⟩

/-- Entries of one name go along with each other. -/
theorem Corresponds.join (h : Corresponds root root' p p') {text : List Char}
    (hText : IsTextName text) :
    Corresponds root root' (p.join (.ofText text)) (p'.join (.ofText text)) := by
  obtain ⟨texts, hTexts, rfl, rfl⟩ := h
  refine ⟨texts ++ [text], ?_, ?_, ?_⟩
  · exact List.forall_mem_append.mpr ⟨hTexts, List.forall_mem_singleton.mpr hText⟩
  · rw [List.map_append, List.map_singleton, joinAll_concat]
    rfl
  · rw [List.map_append, List.map_singleton, joinAll_concat]
    rfl

theorem Corresponds.display_eq (h : Corresponds root root' p p') :
    p.display root = p'.display root' := by
  obtain ⟨texts, hTexts, rfl, rfl⟩ := h
  rw [display_joinAll root hTexts, display_joinAll root' hTexts]

/-- Below the roots the file names are the same. -/
theorem Corresponds.cases (h : Corresponds root root' p p') :
    (p = root ∧ p' = root') ∨ p.fileName? = p'.fileName? := by
  obtain ⟨texts, hTexts, rfl, rfl⟩ := h
  rcases List.eq_nil_or_concat texts with rfl | ⟨front, text, rfl⟩
  · exact .inl ⟨rfl, rfl⟩
  · rw [List.concat_eq_append] at hTexts ⊢
    have hName := (hTexts text (by simp)).isName
    rw [List.map_append, List.map_singleton, joinAll_concat, joinAll_concat, fileName?_join _ hName,
      fileName?_join _ hName]
    exact .inr rfl

/-- What two lists have in common in front has no say in their order. -/
theorem compareLex_append_left (front a b : List Component) :
    List.compareLex Component.compare (front ++ a) (front ++ b) =
      List.compareLex Component.compare a b := by
  induction front with
  | nil => rfl
  | cons c front ih =>
    have hSame : Component.compare c c = .eq := Std.ReflCmp.compare_self
    rw [List.cons_append, List.cons_append, List.compareLex_cons_cons, hSame, ih]
    rfl

/-- The roots have no say in the order of what lies below them. -/
theorem Corresponds.compare_eq (hp : Corresponds root root' p p') (hq : Corresponds root root' q q') :
    p.compare q = p'.compare q' := by
  obtain ⟨texts, hTexts, rfl, rfl⟩ := hp
  obtain ⟨others, hOthers, rfl, rfl⟩ := hq
  have hBelow (base : Path) :
      (base.joinAll (texts.map Utf8.encode)).compare (base.joinAll (others.map Utf8.encode)) =
        List.compareLex Component.compare ((texts.map Utf8.encode).map .name)
          ((others.map Utf8.encode).map .name) := by
    rw [Path.compare, components_joinAll base (isName_of_mem_map hTexts),
      components_joinAll base (isName_of_mem_map hOthers), compareLex_append_left]
  rw [hBelow root, hBelow root']

end Path

/-! ## Trees -/

/-- The file systems give the same answers about the same places below two roots. -/
structure FileSystem.Mirrors (fs : FileSystem) (root : Path) (fs' : FileSystem) (root' : Path) :
    Prop where
  stat : ∀ path path', Path.Corresponds root root' path path' → fs.stat path = fs'.stat path'
  list : ∀ path path', Path.Corresponds root root' path path' → fs.list path = fs'.list path'
  read : ∀ path path', Path.Corresponds root root' path path' → fs.read path = fs'.read path'

variable {fs fs' : FileSystem} {config : Config} {root root' : Path}

namespace Visit

variable {path path' : Path}

theorem discover_eq (hMirrors : fs.Mirrors root fs' root')
    (h : Path.Corresponds root root' path path') : discover fs path = discover fs' path' := by
  rw [discover, discover, hMirrors.stat path path' h, hMirrors.list path path' h]

theorem entryNames_eq (hMirrors : fs.Mirrors root fs' root')
    (h : Path.Corresponds root root' path path') : entryNames fs path = entryNames fs' path' := by
  rw [entryNames, entryNames, hMirrors.stat path path' h, hMirrors.list path path' h]

/-- The visits of one place go along with each other, node by node. -/
theorem forall₂_nodes (hNames : fs.ListsNames) (hMirrors : fs.Mirrors root fs' root')
    {depth depth' : ℕ} {v v' : Visit} (h : ofPath? fs depth path = some v)
    (h' : ofPath? fs' depth' path' = some v') (hPath : Path.Corresponds root root' path path') :
    List.Forall₂ (fun node node' =>
      Path.Corresponds root root' node.1 node'.1 ∧ node.2 = node'.2) v.nodes v'.nodes := by
  induction depth generalizing depth' path path' v v' with
  | zero => cases h
  | succ depth ih =>
    cases depth' with
    | zero => cases h'
    | succ depth' =>
      obtain ⟨entries, rfl, hEntries⟩ := ofPath?_succ_eq_some_iff.mp h
      obtain ⟨entries', rfl, hEntries'⟩ := ofPath?_succ_eq_some_iff.mp h'
      rw [← entryNames_eq hMirrors hPath] at hEntries'
      rw [nodes_node, nodes_node]
      refine .cons ⟨hPath, discover_eq hMirrors hPath⟩ ?_
      apply List.rel_flatMap (forall₂_of_common hEntries hEntries')
      rintro entry entry' ⟨name, hName, hVisit, hVisit'⟩
      exact ih hVisit hVisit' (hPath.join (isTextName_of_mem_entryNames hNames hName))

/-- Below roots that are no files the visits of one file have one file name. -/
theorem forall₂_nodes_of_root (hNames : fs.ListsNames) (hMirrors : fs.Mirrors root fs' root')
    (hRoot : fs.stat root ≠ .file) {depth depth' : ℕ} {v v' : Visit}
    (h : ofPath? fs depth root = some v) (h' : ofPath? fs' depth' root' = some v') :
    List.Forall₂ (fun node node' => Path.Corresponds root root' node.1 node'.1 ∧ node.2 = node'.2 ∧
      (node.2 = .file → node.1.fileName? = node'.1.fileName?)) v.nodes v'.nodes := by
  apply forall₂_imp_of_mem (forall₂_nodes hNames hMirrors h h' (.roots root root'))
  rintro ⟨path, found⟩ node' hMem _ ⟨hPath, hFound⟩
  refine ⟨hPath, hFound, ?_⟩
  intro hFile
  refine hPath.cases.resolve_left ?_
  rintro ⟨hHere, _⟩
  obtain rfl : path = root := hHere
  have hDiscover := found_of_mem_nodes h hMem
  rw [show found = .file from hFile] at hDiscover
  apply hRoot
  unfold discover at hDiscover
  split at hDiscover <;> try cases hDiscover
  · assumption
  · split at hDiscover <;> cases hDiscover

end Visit

/-! ## Outcomes -/

/-- The outcomes differ in nothing but where their files are, and these go along with each other. -/
def Outcome.Corresponds (root root' : Path) (o o' : Outcome) : Prop :=
  Path.Corresponds root root' o.filename o'.filename ∧ o' = { o with filename := o'.filename }

namespace Outcome

variable {o o' p p' : Outcome}

theorem Corresponds.compare_eq (ho : Corresponds root root' o o') (hp : Corresponds root root' p p') :
    o.compare p = o'.compare p' := by
  rw [compare, compare, ho.1.compare_eq hp.1, ho.2, hp.2]

theorem Corresponds.reportLines_eq (h : Corresponds root root' o o') :
    o.reportLines root = o'.reportLines root' := by
  obtain ⟨hPath, hSame⟩ := h
  have hHeading : o.heading root = o'.heading root' := by
    unfold heading
    rw [hPath.display_eq, hSame]
    rfl
  rw [reportLines, reportLines, hHeading, hSame]
  rfl

end Outcome

/-! ## Texts -/

/-- Where a file is has no say in what its blocks are. -/
theorem Block.ofText_filename (config : Config) (path path' : Path) (text : List Char) :
    ofText config path' text =
      (ofText config path text).map fun b => { b with filename := path' } := by
  rw [ofText_eq_filterMap_runs, ofText_eq_filterMap_runs, List.map_filterMap]
  congr 1
  funext run
  unfold ofRun?
  split <;> rfl

namespace Outcome

/-- Where a block is has no say in what is found about it. -/
theorem ofBlock_filename [Yaml.Wording] (b : Block) (path : Path) :
    ofBlock { b with filename := path } = { ofBlock b with filename := path } := by
  unfold ofBlock pushValidation
  cases Metadata.ofText b.rawText <;> rfl

/-- The outcomes of a text go along with those of the text elsewhere. -/
theorem forall₂_ofSource [Yaml.Wording] {path path' : Path} (h : Path.Corresponds root root' path path')
    (text : List Char) :
    List.Forall₂ (Corresponds root root') (ofSource config path text)
      (ofSource config path' text) := by
  unfold ofSource
  rw [Block.ofText_filename config path path', List.map_map, List.forall₂_map_left_iff,
    List.forall₂_map_right_iff, List.forall₂_same]
  intro b hb
  have hMoved := ofBlock_filename b path'
  rw [Function.comp_apply, hMoved]
  refine ⟨?_, rfl⟩
  rw [filename_ofBlock, Block.filename_of_mem_ofText hb]
  exact h

end Outcome

namespace Walk

theorem acceptsPath_eq {path path' : Path} (h : path.fileName? = path'.fileName?) :
    config.acceptsPath path = config.acceptsPath path' := by
  rw [Config.acceptsPath, Config.acceptsPath, h]

/-- What is found at one place goes along with what is found at the other. -/
theorem forall₂_outcomesAt [Yaml.Wording] (hMirrors : fs.Mirrors root fs' root') {path path' : Path}
    {found : Discovery} (h : Path.Corresponds root root' path path')
    (hName : found = .file → path.fileName? = path'.fileName?) :
    List.Forall₂ (Outcome.Corresponds root root') (outcomesAt fs config path found)
      (outcomesAt fs' config path' found) := by
  have hFailure (message : String) : List.Forall₂ (Outcome.Corresponds root root')
      [.fileFailure path (.io message)] [.fileFailure path' (.io message)] :=
    .cons ⟨h, rfl⟩ .nil
  cases found with
  | unstatable message => exact hFailure message
  | unlistable message => exact hFailure message
  | file =>
    rw [outcomesAt, outcomesAt, ← acceptsPath_eq (hName rfl), ← hMirrors.read path path' h]
    cases config.acceptsPath path with
    | false => exact .nil
    | true =>
      cases fs.read path with
      | crash message => exact .nil
      | error message => exact hFailure message
      | ok text => exact Outcome.forall₂_ofSource h text
  | crash message => exact .nil
  | listingCrash message => exact .nil
  | other => exact .nil
  | directory => exact .nil

/-- The outcomes of mirrored trees go along with each other, unless their roots are files. -/
theorem forall₂_outcomes [Yaml.Wording] (hNames : fs.ListsNames) (hMirrors : fs.Mirrors root fs' root')
    (hRoot : fs.stat root ≠ .file) {depth depth' : ℕ} {v v' : Visit}
    (h : Visit.ofPath? fs depth root = some v) (h' : Visit.ofPath? fs' depth' root' = some v') :
    List.Forall₂ (Outcome.Corresponds root root') (outcomes fs config v)
      (outcomes fs' config v') := by
  unfold outcomes
  rw [List.flatMap_def, List.flatMap_def]
  apply List.rel_flatten
  rw [List.forall₂_map_left_iff, List.forall₂_map_right_iff]
  apply (Visit.forall₂_nodes_of_root hNames hMirrors hRoot h h').imp
  rintro ⟨path, found⟩ ⟨path', found'⟩ ⟨hPath, hFound, hName⟩
  obtain rfl : found = found' := hFound
  exact forall₂_outcomesAt hMirrors hPath hName

/-- What crashes at one place crashes at the other. -/
theorem crashAt?_eq (hMirrors : fs.Mirrors root fs' root') {path path' : Path} {found : Discovery}
    (h : Path.Corresponds root root' path path')
    (hName : found = .file → path.fileName? = path'.fileName?) :
    crashAt? fs config path found = crashAt? fs' config path' found := by
  cases found with
  | file => rw [crashAt?, crashAt?, ← acceptsPath_eq (hName rfl), ← hMirrors.read path path' h]
  | _ => rfl

/-- Visits of mirrored trees crash alike, unless their roots are files. -/
theorem crash?_eq (hNames : fs.ListsNames) (hMirrors : fs.Mirrors root fs' root')
    (hRoot : fs.stat root ≠ .file) {depth depth' : ℕ} {v v' : Visit}
    (h : Visit.ofPath? fs depth root = some v) (h' : Visit.ofPath? fs' depth' root' = some v') :
    crash? fs config v = crash? fs' config v' := by
  have hNodes := Visit.forall₂_nodes_of_root hNames hMirrors hRoot h h'
  unfold crash?
  generalize v.nodes = nodes at hNodes
  generalize v'.nodes = nodes' at hNodes
  induction hNodes with
  | nil => rfl
  | @cons node node' _ _ hNode _ ih =>
    obtain ⟨path, found⟩ := node
    obtain ⟨path', found'⟩ := node'
    obtain ⟨hPath, hFound, hName⟩ := hNode
    obtain rfl : found = found' := hFound
    have hHere : crashAt? fs config path found = crashAt? fs' config path' found :=
      crashAt?_eq hMirrors hPath hName
    simp only [List.findSome?_cons, ih, hHere]

end Walk

/-! ## Reports -/

variable {l l' : List Outcome}

theorem Outcome.forall₂_sort (h : List.Forall₂ (Corresponds root root') l l') :
    List.Forall₂ (Corresponds root root') (sort l) (sort l') := by
  apply forall₂_mergeSort h
  intro a _ b _ a' b' ha hb
  rw [precedes, precedes, ha.compare_eq hb]

/-- Outcomes that go along with each other have one text report. -/
theorem Report.textReport_eq_of_forall₂ (h : List.Forall₂ (Outcome.Corresponds root root') l l') :
    textReport root l = textReport root' l' := by
  unfold textReport
  congr 1
  induction h with
  | nil => rfl
  | cons hOutcome _ ih => rw [List.flatMap_cons, List.flatMap_cons, hOutcome.reportLines_eq, ih]

theorem Report.Summary.exitCode_eq_of_forall₂
    (h : List.Forall₂ (Outcome.Corresponds root root') l l') :
    (ofOutcomes l).exitCode = (ofOutcomes l').exitCode := by
  have hFindings : l.flatMap (·.findings) = l'.flatMap (·.findings) := by
    induction h with
    | nil => rfl
    | cons hOutcome _ ih => rw [List.flatMap_cons, List.flatMap_cons, hOutcome.2, ih]
  rw [exitCode, exitCode, ofOutcomes, ofOutcomes, hFindings]

namespace Check

/-- What a walk without a crash found is sorted. -/
theorem outcomes_eq [Yaml.Wording] (c : Check) (config : Config) {depth : ℕ} {v : Visit}
    (hVisit : Visit.ofPath? fs depth c.root = some v) :
    c.outcomes fs depth config =
      match Walk.crash? fs config v with
      | some message => .error (.crashed message)
      | none => .ok (Outcome.sort (Walk.outcomes fs config v)) := by
  rw [outcomes, hVisit]
  simp only [Walk.ending]
  cases Walk.crash? fs config v <;> rfl

/-- The same tree under another root has the same text report and the same exit status, in whatever
    order its visits go on, settle and are joined. So a check of the one and a check of the other
    with the same settings come to the same result and write the same bytes. -/
theorem report_eq_of_mirrors [Yaml.Wording] (hNames : fs.ListsNames) (hNames' : fs'.ListsNames)
    (hMirrors : fs.Mirrors root fs' root') (hRoot : fs.stat root ≠ .file) {depth depth' : ℕ}
    {v v' : Visit} (hVisit : Visit.ofPath? fs depth root = some v)
    (hVisit' : Visit.ofPath? fs' depth' root' = some v') :
    (∀ config, Walk.crash? fs config v = none →
      (∃ calls l, Task.Run fs config (.waiting root) calls (.settled l)) ∧
      (∃ calls l, Task.Run fs' config (.waiting root') calls (.settled l)) ∧
      ∀ calls calls' l l', Task.Run fs config (.waiting root) calls (.settled l) →
        Task.Run fs' config (.waiting root') calls' (.settled l') →
        textReport root (Outcome.sort l) = textReport root' (Outcome.sort l') ∧
          (Summary.ofOutcomes (Outcome.sort l)).exitCode =
            (Summary.ofOutcomes (Outcome.sort l')).exitCode) ∧
    ∀ configFile configFile', loadConfig fs configFile = loadConfig fs' configFile' →
      ∀ sink, run ⟨root, .text, configFile⟩ fs depth sink =
        run ⟨root', .text, configFile'⟩ fs' depth' sink := by
  have hSorted (config : Config) : List.Forall₂ (Outcome.Corresponds root root')
      (Outcome.sort (Walk.outcomes fs config v)) (Outcome.sort (Walk.outcomes fs' config v')) :=
    Outcome.forall₂_sort (Walk.forall₂_outcomes hNames hMirrors hRoot hVisit hVisit')
  have hCrashes (config : Config) : Walk.crash? fs config v = Walk.crash? fs' config v' :=
    Walk.crash?_eq hNames hMirrors hRoot hVisit hVisit'
  constructor
  · intro config hCrash
    have hCrash' : Walk.crash? fs' config v' = none := (hCrashes config).symm.trans hCrash
    refine ⟨⟨_, _, (Task.run_outcomes hVisit hCrash).choose_spec⟩,
      ⟨_, _, (Task.run_outcomes hVisit' hCrash').choose_spec⟩, ?_⟩
    intro calls calls' l l' hRun hRun'
    rw [hRun.sort_eq hNames hVisit hCrash, hRun'.sort_eq hNames' hVisit' hCrash']
    exact ⟨textReport_eq_of_forall₂ (hSorted config), Summary.exitCode_eq_of_forall₂ (hSorted config)⟩
  · intro configFile configFile' hConfig sink
    unfold run
    rw [hConfig]
    cases loadConfig fs' configFile' with
    | error fatal => rfl
    | ok config =>
      have hOutcomes := outcomes_eq ⟨root, .text, configFile⟩ config hVisit
      have hOutcomes' := outcomes_eq ⟨root', .text, configFile'⟩ config hVisit'
      rw [hCrashes config] at hOutcomes
      simp only [bind, Except.bind, hOutcomes, hOutcomes']
      cases Walk.crash? fs' config v' with
      | some message => rfl
      | none =>
        simp only [render, renderText_eq, textReport_eq_of_forall₂ (hSorted config),
          Summary.exitCode_eq_of_forall₂ (hSorted config)]

end Check

/-! ## A tree under two roots -/

/-- The nodes of a tree, given by the names that lead to them, under a root. -/
def MemoryTree.planted (root : Path) (nodes : List (List (List Char) × MemoryNode)) : MemoryTree :=
  nodes.map fun (texts, node) => ((root.joinAll (texts.map Utf8.encode)).components, node)

namespace MemoryTree

variable {nodes : List (List (List Char) × MemoryNode)}

/-- A node is found below the root by the names that lead to it. -/
theorem node?_planted (h : ∀ node ∈ nodes, ∀ text ∈ node.1, Path.IsTextName text) (root : Path)
    {texts : List (List Char)} (hTexts : ∀ text ∈ texts, Path.IsTextName text) :
    (planted root nodes).node? (root.joinAll (texts.map Utf8.encode)) = nodes.lookup texts := by
  unfold node? planted
  induction nodes with
  | nil => rfl
  | cons node nodes ih =>
    obtain ⟨hHere, hRest⟩ := List.forall_mem_cons.mp h
    rw [List.map_cons, List.lookup_cons, List.lookup_cons, ih hRest]
    have hSame : ((root.joinAll (texts.map Utf8.encode)).components ==
        (root.joinAll (node.1.map Utf8.encode)).components) = (texts == node.1) := by
      rw [Bool.eq_iff_iff, beq_iff_eq, beq_iff_eq]
      constructor
      · intro hComponents
        have hNames := Path.joinAll_inj root (Path.isName_of_mem_map hTexts)
          (Path.isName_of_mem_map hHere) hComponents
        exact (List.map_inj_right fun _ _ hSame => Utf8.encode_injective hSame).mp hNames
      · rintro rfl
        rfl
    rw [hSame]

/-- The same nodes under two roots are mirrored. -/
theorem mirrors_planted (h : ∀ node ∈ nodes, ∀ text ∈ node.1, Path.IsTextName text)
    (root root' : Path) :
    (planted root nodes).fileSystem.Mirrors root (planted root' nodes).fileSystem root' := by
  have hNode {path path' : Path} (hPath : Path.Corresponds root root' path path') :
      (planted root nodes).node? path = (planted root' nodes).node? path' := by
    obtain ⟨texts, hTexts, rfl, rfl⟩ := hPath
    rw [node?_planted h root hTexts, node?_planted h root' hTexts]
  exact ⟨fun _ _ hPath => congrArg kindOf (hNode hPath),
    fun _ _ hPath => congrArg namesOf (hNode hPath),
    fun _ _ hPath => congrArg textOf (hNode hPath)⟩

end MemoryTree

namespace Check

/-- A directory with a source file and a directory that lists nothing. -/
def shelf : List (List (List Char) × MemoryNode) :=
  [([], .directory ["b.rego".toList, "sub".toList]),
    (["b.rego".toList], .file "# METADATA: library-snippet".toList),
    (["sub".toList], .unlistable "denied")]

/-- `shelf` in the working directory. -/
def shelfHere : MemoryTree := .planted (.ofString ".") shelf

/-- `shelf` far away, by a path that is written in a roundabout way. -/
def shelfThere : MemoryTree := .planted (.ofString "/srv//a/../lib/") shelf

/-- The visits of `shelf` under a root. -/
def visitOfShelf (root : Path) : Visit :=
  .node root .directory
    [.node (root.join (.ofString "b.rego")) .file [],
      .node (root.join (.ofString "sub")) (.unlistable "denied") []]

/-- The checks of `shelf` under both roots come to the same result and write the same bytes. -/
theorem report_eq_of_mirrors_shelf :
    run ⟨.ofString ".", .text, none⟩ shelfHere.fileSystem 2 (.empty none false) =
      run ⟨.ofString "/srv//a/../lib/", .text, none⟩ shelfThere.fileSystem 3 (.empty none false) :=
  have hVisit : Visit.ofPath? shelfHere.fileSystem 2 (.ofString ".") =
      some (visitOfShelf (.ofString ".")) := by rfl
  have hVisit' : Visit.ofPath? shelfThere.fileSystem 3 (.ofString "/srv//a/../lib/") =
      some (visitOfShelf (.ofString "/srv//a/../lib/")) := by rfl
  (report_eq_of_mirrors (MemoryTree.listsNames (by decide)) (MemoryTree.listsNames (by decide))
    (MemoryTree.mirrors_planted (by decide) _ _) (by decide) hVisit hVisit').2 none none rfl _

end Check

end SnippetAudit
