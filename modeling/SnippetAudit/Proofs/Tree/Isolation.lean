import SnippetAudit.CommandLine
import SnippetAudit.Proofs.Tree.Schedules

/-!
# Isolation of failures

What lies under a path has no say in what a walk finds elsewhere. Two file systems that give the
same answers everywhere but under one path have the same visits but below it, and so the same
outcomes but under it. If nothing can be told of a path that is visited, its visits leave one
failure each, none below them, and all else stays as it was.

Results:
* `isBelow_join_iff`: the entries of a directory lie below what the directory lies under.
* `paths_filter_eq`: the visits that do not lie below a path are not changed under it.
* `filter_perm_of_agreesOutside`: the law for two walks, and its instance of one denied path.
-/

namespace SnippetAudit

/-! ## What lies under a path -/

namespace Path

/-- The path is the other or lies below it, by their components. -/
def IsUnder (p base : Path) : Prop := base.components <+: p.components

instance (p base : Path) : Decidable (p.IsUnder base) :=
  inferInstanceAs (Decidable (_ <+: _))

/-- The path lies below the other and is another place. -/
def IsBelow (p base : Path) : Prop := p.IsUnder base ∧ p.components ≠ base.components

instance (p base : Path) : Decidable (p.IsBelow base) := inferInstanceAs (Decidable (_ ∧ _))

/-- The entries of a directory lie below what the directory lies under, and below nothing else. -/
theorem isBelow_join_iff {p base : Path} {name : List Char} (h : IsTextName name) :
    (p.join (.ofText name)).IsBelow base ↔ p.IsUnder base := by
  have hComponents : (p.join (.ofText name)).components =
      p.components ++ [.name (Text.Utf8.encode name)] := components_join p h.isName
  unfold IsBelow IsUnder
  rw [hComponents, List.prefix_concat_iff]
  constructor
  · rintro ⟨hSame | hUnder, hNe⟩
    · exact absurd hSame.symm hNe
    · exact hUnder
  · intro hUnder
    refine ⟨.inr hUnder, ?_⟩
    intro hSame
    have hLength := hUnder.length_le
    rw [← hSame, List.length_append, List.length_singleton] at hLength
    omega

theorem isUnder_of_components_eq {p base : Path} (h : p.components = base.components) :
    p.IsUnder base := by
  unfold IsUnder
  exact ⟨[], by rw [List.append_nil, h]⟩

theorem components_eq_of_isUnder {p base : Path} (h : p.IsUnder base) (hBelow : ¬ p.IsBelow base) :
    p.components = base.components :=
  not_not.mp fun hNe => hBelow ⟨h, hNe⟩

end Path

/-! ## Agreement -/

namespace FileSystem

/-- The file systems give the same answers about every path that does not lie under `base`. -/
structure AgreesOutside (fs fs' : FileSystem) (base : Path) : Prop where
  stat : ∀ path, ¬ path.IsUnder base → fs.stat path = fs'.stat path
  list : ∀ path, ¬ path.IsUnder base → fs.list path = fs'.list path
  read : ∀ path, ¬ path.IsUnder base → fs.read path = fs'.read path

/-- The file system, but for one place of which nothing can be told. -/
def denying (fs : FileSystem) (base : Path) (message : String) : FileSystem :=
  { fs with
    stat := fun path =>
      if path.components = base.components then .failure message else fs.stat path }

theorem stat_denying_of_eq (fs : FileSystem) {base path : Path} (message : String)
    (h : path.components = base.components) :
    (fs.denying base message).stat path = .failure message :=
  if_pos h

theorem stat_denying_of_ne (fs : FileSystem) {base path : Path} (message : String)
    (h : path.components ≠ base.components) : (fs.denying base message).stat path = fs.stat path :=
  if_neg h

theorem agreesOutside_denying (fs : FileSystem) (base : Path) (message : String) :
    fs.AgreesOutside (fs.denying base message) base where
  stat := by
    intro path hPath
    exact (stat_denying_of_ne fs message fun h => hPath (Path.isUnder_of_components_eq h)).symm
  list := fun _ _ => rfl
  read := fun _ _ => rfl

variable {fs fs' : FileSystem} {base path : Path}

theorem AgreesOutside.entryNames_eq (h : fs.AgreesOutside fs' base) (hPath : ¬ path.IsUnder base) :
    Visit.entryNames fs path = Visit.entryNames fs' path := by
  rw [Visit.entryNames, Visit.entryNames, h.stat path hPath, h.list path hPath]

theorem AgreesOutside.outcomesAt_eq [Yaml.Wording] (h : fs.AgreesOutside fs' base) (config : Config)
    (hPath : ¬ path.IsUnder base) :
    Walk.outcomesAt fs config path (Visit.discover fs path) =
      Walk.outcomesAt fs' config path (Visit.discover fs' path) := by
  unfold Visit.discover Walk.outcomesAt
  rw [h.stat path hPath, h.list path hPath, h.read path hPath]

end FileSystem

/-- A node in memory is seen only under its path. -/
theorem MemoryTree.agreesOutside_insert (nodes : MemoryTree) (base : Path) (node : MemoryNode) :
    nodes.fileSystem.AgreesOutside (nodes.insert base node).fileSystem base := by
  have hNode (path : Path) (hPath : ¬ path.IsUnder base) :
      (nodes.insert base node).node? path = nodes.node? path :=
    MemoryTree.node?_insert_of_ne nodes node fun h => hPath (Path.isUnder_of_components_eq h)
  exact ⟨fun path hPath => congrArg MemoryTree.kindOf (hNode path hPath).symm,
    fun path hPath => congrArg MemoryTree.namesOf (hNode path hPath).symm,
    fun path hPath => congrArg MemoryTree.textOf (hNode path hPath).symm⟩

/-! ## Visits -/

namespace Visit

variable {fs fs' : FileSystem} {base root : Path}

theorem mem_paths_iff {fs : FileSystem} {depth : ℕ} {root path : Path} {v : Visit}
    (h : ofPath? fs depth root = some v) : path ∈ v.paths ↔ (path, discover fs path) ∈ v.nodes := by
  constructor
  · intro hPath
    obtain ⟨⟨q, found⟩, hMem, rfl⟩ := List.mem_map.mp hPath
    have hFound := found_of_mem_nodes h hMem
    exact hFound ▸ hMem
  · intro hMem
    exact List.mem_map.mpr ⟨_, hMem, rfl⟩

/-- All that is visited from below a path lies below it. -/
theorem isBelow_of_mem_paths (hNames : fs.ListsNames) {depth : ℕ} {v : Visit}
    (h : ofPath? fs depth root = some v) (hRoot : root.IsBelow base) {path : Path}
    (hPath : path ∈ v.paths) : path.IsBelow base := by
  refine (nodes_induction (P := fun q => q.IsBelow base) h hRoot ?_ ((mem_paths_iff h).mp hPath)).2
  intro q text _ hBelow hText
  exact (Path.isBelow_join_iff (isTextName_of_mem_entryNames hNames hText)).mpr hBelow.1

/-- The visits that do not lie below a path are not changed by what lies under it. -/
theorem paths_filter_eq (hNames : fs.ListsNames) (hNames' : fs'.ListsNames)
    (hAgree : fs.AgreesOutside fs' base) {depth depth' : ℕ} {v v' : Visit}
    (h : ofPath? fs depth root = some v) (h' : ofPath? fs' depth' root = some v') :
    (v.paths.filter fun path => ¬ path.IsBelow base) =
      v'.paths.filter fun path => ¬ path.IsBelow base := by
  induction depth generalizing depth' root v v' with
  | zero => cases h
  | succ depth ih =>
    cases depth' with
    | zero => cases h'
    | succ depth' =>
      obtain ⟨entries, rfl, hEntries⟩ := ofPath?_succ_eq_some_iff.mp h
      obtain ⟨entries', rfl, hEntries'⟩ := ofPath?_succ_eq_some_iff.mp h'
      rw [paths_node, paths_node, List.filter_cons, List.filter_cons, List.filter_flatMap,
        List.filter_flatMap]
      by_cases hRoot : root.IsUnder base
      · -- both roots lie under the path, so nothing but them does not lie below it
        have hNone {fs : FileSystem} (hNames : fs.ListsNames) {depth : ℕ} {entries : List Visit}
            (hEntries : List.Forall₂ (fun name entry =>
              ofPath? fs depth (root.join (.ofText name)) = some entry)
                (entryNames fs root) entries) :
            (entries.flatMap fun entry =>
              entry.paths.filter fun path => ¬ path.IsBelow base) = [] := by
          rw [List.flatMap_eq_nil_iff]
          intro entry hEntry
          obtain ⟨name, hName, hVisit⟩ := exists_mem_of_forall₂ hEntries hEntry
          have hText := isTextName_of_mem_entryNames hNames hName
          have hBelow := (Path.isBelow_join_iff hText).mpr hRoot
          rw [List.filter_eq_nil_iff]
          intro path hPath
          simpa using isBelow_of_mem_paths hNames hVisit hBelow hPath
        rw [hNone hNames hEntries, hNone hNames' hEntries']
      · rw [← hAgree.entryNames_eq hRoot] at hEntries'
        have hBoth : List.Forall₂ (fun entry entry' =>
            (entry.paths.filter fun path => ¬ path.IsBelow base) =
              entry'.paths.filter fun path => ¬ path.IsBelow base) entries entries' := by
          apply (forall₂_of_common hEntries hEntries').imp
          rintro entry entry' ⟨name, _, hVisit, hVisit'⟩
          exact ih hVisit hVisit'
        have hMap := List.forall₂_eq_eq_eq ▸ List.forall₂_map_left_iff.mpr
          (List.forall₂_map_right_iff.mpr hBoth)
        rw [List.flatMap_def, List.flatMap_def, hMap]

/-- Two paths that are visited from one root are the same if they are the same place. -/
theorem eq_of_mem_paths (hNames : fs.ListsNames) (hNames' : fs'.ListsNames) {depth depth' : ℕ}
    {v v' : Visit} (h : ofPath? fs depth root = some v) (h' : ofPath? fs' depth' root = some v')
    {p q : Path} (hp : p ∈ v.paths) (hq : q ∈ v'.paths) (hSame : p.components = q.components) :
    p = q := by
  obtain ⟨_, texts, hAll, rfl⟩ := mem_nodes hNames h ((mem_paths_iff h).mp hp)
  obtain ⟨_, texts', hAll', rfl⟩ := mem_nodes hNames' h' ((mem_paths_iff h').mp hq)
  rw [Path.joinAll_inj root (Path.isName_of_mem_map hAll) (Path.isName_of_mem_map hAll') hSame]

/-- Below a path that is denied nothing is visited. -/
theorem not_isBelow_of_denying (hNames : fs.ListsNames) {message : String} {depth depth' : ℕ}
    {v w : Visit} (h : ofPath? fs depth root = some v)
    (hDenied : ofPath? (fs.denying base message) depth' root = some w) (hBase : base ∈ v.paths)
    {path : Path} (hPath : path ∈ w.paths) : ¬ path.IsBelow base := by
  refine (nodes_induction (P := fun q => ¬ q.IsBelow base) hDenied ?_ ?_
    ((mem_paths_iff hDenied).mp hPath)).2
  · rintro ⟨hUnder, hNe⟩
    obtain ⟨_, texts, hAll, rfl⟩ := mem_nodes hNames h ((mem_paths_iff h).mp hBase)
    -- the denied path is the root with names joined to it
    unfold Path.IsUnder at hUnder
    rw [Path.components_joinAll root (Path.isName_of_mem_map hAll)] at hUnder hNe
    have hLength := hUnder.length_le
    rw [List.length_append] at hLength
    have hNil : (texts.map Text.Utf8.encode).map Path.Component.name = [] :=
      List.length_eq_zero_iff.mp (by omega)
    rw [hNil, List.append_nil] at hNe
    exact hNe rfl
  · intro q text _ hBelow hText
    have hText' : text ∈ entryNames fs q ∧ q.components ≠ base.components := by
      by_cases hSame : q.components = base.components
      · rw [entryNames, FileSystem.stat_denying_of_eq fs message hSame] at hText
        cases hText
      · rw [entryNames, FileSystem.stat_denying_of_ne fs message hSame] at hText
        exact ⟨hText, hSame⟩
    rw [Path.isBelow_join_iff (isTextName_of_mem_entryNames hNames hText'.1)]
    intro hUnder
    exact hText'.2 (Path.components_eq_of_isUnder hUnder hBelow)

end Visit

namespace Walk

variable {fs fs' : FileSystem} {config : Config} {base root : Path}

/-! ## Crashes -/

/-- Where nothing can be told of a path nothing crashes at it, and elsewhere what crashed before. -/
theorem not_crashesAt_denying (base : Path) (message : String) {path : Path}
    (h : ∀ m, ¬ CrashesAt fs config path m) (m : String) :
    ¬ CrashesAt (fs.denying base message) config path m := by
  unfold CrashesAt
  by_cases hPath : path.components = base.components
  · rw [FileSystem.stat_denying_of_eq fs message hPath]
    simp
  · rw [FileSystem.stat_denying_of_ne fs message hPath]
    exact h m

/-- Where one path is denied the visit tree is still finite and crashes nowhere. -/
theorem exists_visit_denying (base : Path) (message : String) {depth : ℕ} {v : Visit}
    (h : Visit.ofPath? fs depth root = some v) (hCrash : crash? fs config v = none) :
    ∃ w, Visit.ofPath? (fs.denying base message) depth root = some w ∧
      crash? (fs.denying base message) config w = none := by
  induction depth generalizing root v with
  | zero => cases h
  | succ depth ih =>
    obtain ⟨_, entries, hDepth, rfl, hNot, hEntries⟩ := crashFree_cases h hCrash
    cases hDepth
    have hHere : crashAt? (fs.denying base message) config root
        (Visit.discover (fs.denying base message) root) = none := by
      refine Option.eq_none_iff_forall_ne_some.mpr fun m hAt => ?_
      exact not_crashesAt_denying base message hNot m (crashAt?_discover_eq_some_iff.mp hAt)
    simp only [Visit.ofPath?_succ_eq_some_iff]
    by_cases hRoot : root.components = base.components
    · have hDenied := FileSystem.stat_denying_of_eq fs message hRoot
      refine ⟨_, ⟨[], rfl, ?_⟩, crash?_node_eq_none_iff.mpr ⟨hHere, by simp⟩⟩
      rw [Visit.entryNames, hDenied]
      exact .nil
    · have hKept := FileSystem.stat_denying_of_ne fs message hRoot
      have hNames : Visit.entryNames (fs.denying base message) root = Visit.entryNames fs root := by
        rw [Visit.entryNames, Visit.entryNames, hKept]
        rfl
      have hWs : ∀ name ∈ Visit.entryNames fs root, ∃ w,
          Visit.ofPath? (fs.denying base message) depth (root.join (.ofText name)) = some w ∧
            crash? (fs.denying base message) config w = none := by
        intro name hName
        obtain ⟨entry, _, hVisit, hBelow⟩ := exists_mem_right_of_forall₂ hEntries hName
        exact ih hVisit hBelow
      obtain ⟨ws, hWs⟩ := exists_forall₂ hWs
      refine ⟨_, ⟨ws, rfl, ?_⟩, crash?_node_eq_none_iff.mpr ⟨hHere, ?_⟩⟩
      · rw [hNames]
        exact hWs.imp fun _ _ hw => hw.1
      · intro w hw
        obtain ⟨_, _, _, hBelow⟩ := exists_mem_of_forall₂ hWs hw
        exact hBelow

/-! ## Outcomes -/

/-- The outcomes whose files pass a test are those of the paths that pass it. -/
theorem outcomes_filter_filename [Yaml.Wording] {depth : ℕ} {v : Visit}
    (h : Visit.ofPath? fs depth root = some v) (p : Path → Bool) :
    (outcomes fs config v).filter (fun o => p o.filename) =
      (v.paths.filter p).flatMap fun path => outcomesAt fs config path (Visit.discover fs path) := by
  rw [outcomes_eq_flatMap_paths config h]
  apply filter_flatMap_of_forall
  intro path _ o ho
  rw [filename_of_mem_outcomesAt ho]

/-- The outcomes that do not lie under a path are not changed by what lies under it. -/
theorem outcomes_filter_eq [Yaml.Wording] (hNames : fs.ListsNames) (hNames' : fs'.ListsNames)
    (hAgree : fs.AgreesOutside fs' base) {depth depth' : ℕ} {v v' : Visit}
    (h : Visit.ofPath? fs depth root = some v) (h' : Visit.ofPath? fs' depth' root = some v') :
    ((outcomes fs config v).filter fun o => ¬ o.filename.IsUnder base) =
      (outcomes fs' config v').filter fun o => ¬ o.filename.IsUnder base := by
  have hPaths : (v.paths.filter fun path => ¬ path.IsUnder base) =
      v'.paths.filter fun path => ¬ path.IsUnder base := by
    have hBelow := Visit.paths_filter_eq hNames hNames' hAgree h h'
    have hUnder := congrArg (List.filter fun path => ¬ path.IsUnder base) hBelow
    rw [List.filter_filter, List.filter_filter] at hUnder
    have hDrop (l : List Path) :
        (l.filter fun path => decide (¬ path.IsUnder base) && decide (¬ path.IsBelow base)) =
          l.filter fun path => ¬ path.IsUnder base := by
      apply List.filter_congr
      intro path _
      by_cases hPath : path.IsUnder base
      · simp [hPath]
      · have hNot : ¬ path.IsBelow base := fun hBelow => hPath hBelow.1
        simp [hPath, hNot]
    rw [hDrop, hDrop] at hUnder
    exact hUnder
  rw [outcomes_filter_filename h fun path => ¬ path.IsUnder base,
    outcomes_filter_filename h' fun path => ¬ path.IsUnder base, hPaths]
  apply List.flatMap_congr
  intro path hPath
  have hNot : ¬ path.IsUnder base := by simpa using (List.mem_filter.mp hPath).2
  exact hAgree.outcomesAt_eq config hNot

/-- The outcomes under a path that is denied: one failure for each of its visits. -/
theorem outcomes_filter_denying [Yaml.Wording] (hNames : fs.ListsNames) {message : String}
    {depth depth' : ℕ} {v w : Visit} (h : Visit.ofPath? fs depth root = some v)
    (hDenied : Visit.ofPath? (fs.denying base message) depth' root = some w)
    (hBase : base ∈ v.paths) :
    ((outcomes (fs.denying base message) config w).filter fun o => o.filename.IsUnder base) =
      List.replicate (v.paths.count base) (.fileFailure base (.io message)) := by
  have hNames' : (fs.denying base message).ListsNames := hNames
  have hAgree := FileSystem.agreesOutside_denying fs base message
  have hUnder : (w.paths.filter fun path => path.IsUnder base) = w.paths.filter (· = base) := by
    apply List.filter_congr
    intro path hPath
    rw [decide_eq_decide]
    constructor
    · intro hUnder
      have hNot := Visit.not_isBelow_of_denying hNames h hDenied hBase hPath
      exact Visit.eq_of_mem_paths hNames' hNames hDenied h hPath hBase
        (Path.components_eq_of_isUnder hUnder hNot)
    · rintro rfl
      exact List.prefix_rfl
  have hCount : w.paths.count base = v.paths.count base := by
    have hNot : ¬ base.IsBelow base := fun hBelow => hBelow.2 rfl
    have hPaths := Visit.paths_filter_eq hNames hNames' hAgree h hDenied
    rw [← List.count_filter (p := fun path => ¬ path.IsBelow base) (by simpa using hNot), ← hPaths,
      List.count_filter (by simpa using hNot)]
  have hStat : (fs.denying base message).stat base = .failure message :=
    FileSystem.stat_denying_of_eq fs message rfl
  rw [outcomes_filter_filename hDenied fun path => path.IsUnder base, hUnder, List.filter_eq, hCount,
    List.flatMap_replicate, Visit.discover, hStat]
  exact List.flatten_replicate_singleton

end Walk

namespace Task

/-- Two walks from one root over file systems that agree outside a path, whatever their orders, have
    the same outcomes outside it. In particular, a walk over a file system in which one visited path is
    denied is as finite as before; it has one failure for each visit of that path, no other
    outcome under it, and outside it the outcomes that there were. -/
theorem filter_perm_of_agreesOutside [Yaml.Wording] {fs fs' : FileSystem} {config : Config}
    {base root : Path} (hNames : fs.ListsNames) (hNames' : fs'.ListsNames)
    (hAgree : fs.AgreesOutside fs' base) {depth depth' : ℕ} {v v' : Visit}
    (hVisit : Visit.ofPath? fs depth root = some v)
    (hCrash : Walk.crash? fs config v = none) (hVisit' : Visit.ofPath? fs' depth' root = some v')
    (hCrash' : Walk.crash? fs' config v' = none) :
    (∀ calls l calls' l', Run fs config (.waiting root) calls (.settled l) →
      Run fs' config (.waiting root) calls' (.settled l') →
      (l.filter fun o => ¬ o.filename.IsUnder base).Perm
        (l'.filter fun o => ¬ o.filename.IsUnder base)) ∧
    ∀ path ∈ v.paths, ∀ message, ∃ w,
      Visit.ofPath? (fs.denying path message) depth root = some w ∧
      Walk.crash? (fs.denying path message) config w = none ∧
      ∀ calls l calls' l', Run fs config (.waiting root) calls (.settled l) →
        Run (fs.denying path message) config (.waiting root) calls' (.settled l') →
        (l'.filter fun o => o.filename.IsUnder path) =
          List.replicate (v.paths.count path) (.fileFailure path (.io message)) ∧
        (l'.filter fun o => ¬ o.filename.IsUnder path).Perm
          (l.filter fun o => ¬ o.filename.IsUnder path) := by
  constructor
  · intro calls l calls' l' hRun hRun'
    have hPerm := (hRun.outcomes_perm hVisit hCrash).filter fun o => ¬ o.filename.IsUnder base
    have hPerm' := (hRun'.outcomes_perm hVisit' hCrash').filter fun o => ¬ o.filename.IsUnder base
    rw [Walk.outcomes_filter_eq hNames hNames' hAgree hVisit hVisit'] at hPerm
    exact hPerm.trans hPerm'.symm
  · intro path hPath message
    obtain ⟨w, hDenied, hSafe⟩ := Walk.exists_visit_denying path message hVisit hCrash
    refine ⟨w, hDenied, hSafe, ?_⟩
    intro calls l calls' l' hRun hRun'
    have hDeniedNames : (fs.denying path message).ListsNames := hNames
    have hPerm' := hRun'.outcomes_perm hDenied hSafe
    constructor
    · have hUnder := hPerm'.filter fun o => o.filename.IsUnder path
      rw [Walk.outcomes_filter_denying hNames hVisit hDenied hPath] at hUnder
      exact List.perm_replicate.mp hUnder
    · have hOutside := hPerm'.filter fun o => ¬ o.filename.IsUnder path
      rw [← Walk.outcomes_filter_eq hNames hDeniedNames
        (FileSystem.agreesOutside_denying fs path message) hVisit hDenied] at hOutside
      exact hOutside.trans ((hRun.outcomes_perm hVisit hCrash).filter _).symm

/-- A tree with a directory in which one file cannot be looked at, and another such file. -/
def branched : MemoryTree :=
  .ofList [(.ofString "r", .directory [['a'], ['b'], ['a']]), (.ofString "r/a", .directory [['x']]),
    (.ofString "r/a/x", .unstatable "denied"), (.ofString "r/b", .unstatable "gone")]

/-- The tree, but for a directory that does not list its names. -/
def closedBranch : MemoryTree := branched.insert (.ofString "r/a") (.unlistable "closed")

/-- The visit of `branched`. -/
def branchedVisit : Visit :=
  .node (.ofString "r") .directory
    [.node (.ofString "r/a") .directory [.node (.ofString "r/a/x") (.unstatable "denied") []],
      .node (.ofString "r/b") (.unstatable "gone") [],
      .node (.ofString "r/a") .directory [.node (.ofString "r/a/x") (.unstatable "denied") []]]

/-- Walks over `branched`, over `closedBranch` and over `branched` with one path denied. -/
theorem filter_perm_of_agreesOutside_branched :
    (∀ calls l calls' l',
      Run branched.fileSystem .default (.waiting (.ofString "r")) calls (.settled l) →
      Run closedBranch.fileSystem .default (.waiting (.ofString "r")) calls' (.settled l') →
      (l.filter fun o => ¬ o.filename.IsUnder (.ofString "r/a")).Perm
        (l'.filter fun o => ¬ o.filename.IsUnder (.ofString "r/a"))) ∧
    ∀ path ∈ branchedVisit.paths, ∀ message, ∃ w,
      Visit.ofPath? (branched.fileSystem.denying path message) 3 (.ofString "r") = some w ∧
      Walk.crash? (branched.fileSystem.denying path message) .default w = none ∧
      ∀ calls l calls' l',
        Run branched.fileSystem .default (.waiting (.ofString "r")) calls (.settled l) →
        Run (branched.fileSystem.denying path message) .default (.waiting (.ofString "r")) calls'
          (.settled l') →
        (l'.filter fun o => o.filename.IsUnder path) =
          List.replicate (branchedVisit.paths.count path) (.fileFailure path (.io message)) ∧
        (l'.filter fun o => ¬ o.filename.IsUnder path).Perm
          (l.filter fun o => ¬ o.filename.IsUnder path) :=
  have hVisit : Visit.ofPath? branched.fileSystem 3 (.ofString "r") = some branchedVisit := by rfl
  have hClosed : Visit.ofPath? closedBranch.fileSystem 2 (.ofString "r") =
      some (.node (.ofString "r") .directory
        [.node (.ofString "r/a") (.unlistable "closed") [],
          .node (.ofString "r/b") (.unstatable "gone") [],
          .node (.ofString "r/a") (.unlistable "closed") []]) := by rfl
  filter_perm_of_agreesOutside (MemoryTree.listsNames (by decide))
    (MemoryTree.listsNames (by decide))
    (MemoryTree.agreesOutside_insert branched (.ofString "r/a") _) hVisit rfl hClosed rfl

end Task

end SnippetAudit
