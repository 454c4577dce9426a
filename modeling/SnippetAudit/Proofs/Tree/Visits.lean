import SnippetAudit.Proofs.Lists
import SnippetAudit.Proofs.Outcome.Order
import SnippetAudit.Proofs.Path.Join
import SnippetAudit.Proofs.Source.Blocks
import SnippetAudit.Tree.Memory
import SnippetAudit.Tree.Walk

/-!
# What a visit finds

A visit tree is determined by its root: at every path it holds what the file system says of
that path, and the path is the root with names joined to it. So two nodes of a visit at the
same place are the same, and so are the outcomes there.

Results:
* `ofPath?_succ_eq_some_iff`: a visit tree and the trees of the entries.
* `nodes_induction`, `mem_nodes`: what is found at a node, and where nodes are.
* `crash?_eq_none_iff`: a visit crashes nowhere iff no question about one of its paths does.
* `eq_of_mem_outcomes`: outcomes of a walk that are tied in a report are the same.
-/

namespace SnippetAudit

open Text

/-- Every name in a listing can be the name of an entry. -/
def FileSystem.ListsNames (fs : FileSystem) : Prop :=
  ∀ path names, fs.list path = .ok names → ∀ name ∈ names, Path.IsTextName name

/-- The names in a node. -/
def MemoryNode.names : MemoryNode → List (List Char)
  | .directory names => names
  | _ => []

/-- What is listed in memory are the names in a node with the components of the path. -/
theorem MemoryTree.mem_of_list_eq_ok {nodes : MemoryTree} {path : Path} {names : List (List Char)}
    (h : nodes.fileSystem.list path = .ok names) : (path.components, .directory names) ∈ nodes := by
  have hNode : nodes.node? path = some (.directory names) := by
    change namesOf (nodes.node? path) = .ok names at h
    unfold namesOf at h
    split at h
    · rename_i hNode
      rw [hNode, Answer.ok.inj h]
    all_goals cases h
  obtain ⟨front, rest, rfl, _⟩ := List.lookup_eq_some_iff.mp hNode
  exact List.mem_append_right front List.mem_cons_self

/-- Nodes in memory list names if each of their directories does. -/
theorem MemoryTree.listsNames {nodes : MemoryTree}
    (h : ∀ node ∈ nodes, ∀ name ∈ node.2.names, Path.IsTextName name) :
    nodes.fileSystem.ListsNames := by
  intro path names hList
  exact h (path.components, .directory names) (mem_of_list_eq_ok hList)

namespace Visit

/-! ## One path -/

/-- What is found at a path. -/
def discover (fs : FileSystem) (path : Path) : Discovery :=
  match fs.stat path with
  | .crash message => .crash message
  | .failure message => .unstatable message
  | .other => .other
  | .file => .file
  | .directory =>
    match fs.list path with
    | .crash message => .listingCrash message
    | .error message => .unlistable message
    | .ok _ => .directory

/-- The names of the entries that are visited behind a path. -/
def entryNames (fs : FileSystem) (path : Path) : List (List Char) :=
  match fs.stat path, fs.list path with
  | .directory, .ok names => names
  | _, _ => []

/-- Only a directory has entries. -/
theorem entryNames_of_discover {fs : FileSystem} {path : Path} {found : Discovery}
    (h : discover fs path = found) (hLeaf : found ≠ .directory) : entryNames fs path = [] := by
  unfold discover at h
  unfold entryNames
  cases hStat : fs.stat path with
  | directory =>
    cases hList : fs.list path with
    | ok names =>
      rw [hStat, hList] at h
      exact absurd h.symm hLeaf
    | _ => rfl
  | _ => rfl

/-- A visit tree holds what is found at its path, and the trees of the entries. -/
theorem ofPath?_succ_eq_some_iff {fs : FileSystem} {depth : ℕ} {path : Path} {v : Visit} :
    ofPath? fs (depth + 1) path = some v ↔
      ∃ entries, v = .node path (discover fs path) entries ∧
        List.Forall₂ (fun name entry => ofPath? fs depth (path.join (.ofText name)) = some entry)
          (entryNames fs path) entries := by
  rw [ofPath?, discover, entryNames]
  cases fs.stat path with
  | directory =>
    cases fs.list path with
    | crash message => simp [List.forall₂_nil_left_iff, eq_comm]
    | error message => simp [List.forall₂_nil_left_iff, eq_comm]
    | ok names =>
      simp only [Option.map_eq_some_iff, mapM_eq_some_iff Iff.rfl]
      constructor
      · rintro ⟨entries, hEntries, rfl⟩
        exact ⟨entries, rfl, hEntries⟩
      · rintro ⟨entries, rfl, hEntries⟩
        exact ⟨entries, hEntries, rfl⟩
  | _ => simp [List.forall₂_nil_left_iff, eq_comm]

theorem isTextName_of_mem_entryNames {fs : FileSystem} (hNames : fs.ListsNames) {path : Path}
    {name : List Char} (h : name ∈ entryNames fs path) : Path.IsTextName name := by
  unfold entryNames at h
  split at h
  · rename_i names hKind hList
    exact hNames path names hList name h
  · cases h

/-! ## Nodes -/

theorem nodes_node (path : Path) (found : Discovery) (entries : List Visit) :
    (node path found entries).nodes = (path, found) :: entries.flatMap nodes := by
  rw [nodes, nodesOfList_eq_flatMap]

/-- What a visit holds at its nodes, its own first and those of the entries after it. -/
theorem flatMap_nodes_node {α : Type} (f : Path × Discovery → List α) (path : Path)
    (found : Discovery) (entries : List Visit) :
    (node path found entries).nodes.flatMap f =
      f (path, found) ++ entries.flatMap fun entry => entry.nodes.flatMap f := by
  rw [nodes_node, List.flatMap_cons, List.flatMap_assoc]

/-- The paths of the nodes. -/
def paths (v : Visit) : List Path := v.nodes.map (·.1)

theorem paths_node (path : Path) (found : Discovery) (entries : List Visit) :
    (node path found entries).paths = path :: entries.flatMap paths := by
  rw [paths, nodes_node, List.map_cons, List.map_flatMap]
  rfl

theorem root_mem_nodes {fs : FileSystem} {depth : ℕ} {root : Path} {v : Visit}
    (h : ofPath? fs depth root = some v) : (root, discover fs root) ∈ v.nodes := by
  cases depth with
  | zero => cases h
  | succ depth =>
    obtain ⟨entries, rfl, _⟩ := ofPath?_succ_eq_some_iff.mp h
    rw [nodes_node]
    exact List.mem_cons_self

/-- With a node the entries that are listed there are nodes. -/
theorem join_mem_nodes {fs : FileSystem} {depth : ℕ} {root path : Path} {v : Visit}
    {found : Discovery} (h : ofPath? fs depth root = some v) (hMem : (path, found) ∈ v.nodes)
    {text : List Char} (hText : text ∈ entryNames fs path) :
    (path.join (.ofText text), discover fs (path.join (.ofText text))) ∈ v.nodes := by
  induction depth generalizing root v with
  | zero => cases h
  | succ depth ih =>
    obtain ⟨entries, rfl, hEntries⟩ := ofPath?_succ_eq_some_iff.mp h
    rw [nodes_node] at hMem ⊢
    apply List.mem_cons_of_mem
    rcases List.mem_cons.mp hMem with hRoot | hBelow
    · cases hRoot
      obtain ⟨entry, hEntry, hVisit⟩ := exists_mem_right_of_forall₂ hEntries hText
      exact List.mem_flatMap.mpr ⟨entry, hEntry, root_mem_nodes hVisit⟩
    · obtain ⟨entry, hEntry, hMem⟩ := List.mem_flatMap.mp hBelow
      obtain ⟨_, _, hVisit⟩ := exists_mem_of_forall₂ hEntries hEntry
      exact List.mem_flatMap.mpr ⟨entry, hEntry, ih hVisit hMem⟩

/-- A node holds what is found at its path; and what holds of the root and passes to the entries
    that are listed holds of every node. -/
theorem nodes_induction {fs : FileSystem} {depth : ℕ} {root : Path} {v : Visit}
    (h : ofPath? fs depth root = some v) {P : Path → Prop} (hRoot : P root)
    (hJoin : ∀ path text, (path, discover fs path) ∈ v.nodes → P path → text ∈ entryNames fs path →
      P (path.join (.ofText text)))
    {path : Path} {found : Discovery} (hMem : (path, found) ∈ v.nodes) :
    found = discover fs path ∧ P path := by
  induction depth generalizing root v with
  | zero => cases h
  | succ depth ih =>
    have hHere := root_mem_nodes h
    obtain ⟨entries, rfl, hEntries⟩ := ofPath?_succ_eq_some_iff.mp h
    rw [nodes_node] at hMem hJoin hHere
    rcases List.mem_cons.mp hMem with hRootNode | hBelow
    · cases hRootNode
      exact ⟨rfl, hRoot⟩
    · obtain ⟨entry, hEntry, hMem⟩ := List.mem_flatMap.mp hBelow
      obtain ⟨text, hText, hVisit⟩ := exists_mem_of_forall₂ hEntries hEntry
      refine ih hVisit (hJoin root text hHere hRoot hText) ?_ hMem
      intro q t hq
      exact hJoin q t (List.mem_cons_of_mem _ (List.mem_flatMap.mpr ⟨entry, hEntry, hq⟩))

/-- A node holds what is found at its path. -/
theorem found_of_mem_nodes {fs : FileSystem} {depth : ℕ} {root path : Path} {v : Visit}
    {found : Discovery} (h : ofPath? fs depth root = some v) (hMem : (path, found) ∈ v.nodes) :
    found = discover fs path :=
  (nodes_induction (P := fun _ => True) h trivial (fun _ _ _ _ _ => trivial) hMem).1

/-- The path of a node is the root with listed names joined to it. -/
theorem mem_nodes {fs : FileSystem} (hNames : fs.ListsNames) {depth : ℕ} {root path : Path}
    {v : Visit} {found : Discovery} (h : ofPath? fs depth root = some v)
    (hMem : (path, found) ∈ v.nodes) :
    found = discover fs path ∧
      ∃ texts : List (List Char), (∀ text ∈ texts, Path.IsTextName text) ∧
        path = root.joinAll (texts.map Utf8.encode) := by
  refine nodes_induction (P := fun q => ∃ texts : List (List Char),
    (∀ text ∈ texts, Path.IsTextName text) ∧ q = root.joinAll (texts.map Utf8.encode))
    h ⟨[], by simp, rfl⟩ ?_ hMem
  rintro q text _ ⟨texts, hAll, rfl⟩ hText
  refine ⟨texts ++ [text], ?_, ?_⟩
  · intro t ht
    rcases List.mem_append.mp ht with ht | ht
    · exact hAll t ht
    · rw [List.mem_singleton.mp ht]
      exact isTextName_of_mem_entryNames hNames hText
  · rw [List.map_append, List.map_singleton, Path.joinAll_concat]
    rfl

end Visit

namespace Walk

/-! ## Crashes -/

/-- A question that a visit asks about a path crashes with this message. -/
def CrashesAt (fs : FileSystem) (config : Config) (path : Path) (message : String) : Prop :=
  fs.stat path = .crash message ∨
  (fs.stat path = .directory ∧ fs.list path = .crash message) ∨
  (fs.stat path = .file ∧ config.acceptsPath path = true ∧ fs.read path = .crash message)

theorem crashAt?_discover_eq_some_iff {fs : FileSystem} {config : Config} {path : Path}
    {message : String} :
    crashAt? fs config path (Visit.discover fs path) = some message ↔
      CrashesAt fs config path message := by
  unfold Visit.discover CrashesAt
  cases fs.stat path with
  | directory => cases fs.list path <;> simp [crashAt?]
  | file =>
    cases hName : config.acceptsPath path <;> cases hRead : fs.read path <;>
      simp [crashAt?, hName, hRead]
  | _ => simp [crashAt?]

/-- A visit crashes nowhere iff it does not crash at its own path nor below an entry. -/
theorem crash?_node_eq_none_iff {fs : FileSystem} {config : Config} {path : Path}
    {found : Discovery} {entries : List Visit} :
    crash? fs config (.node path found entries) = none ↔
      crashAt? fs config path found = none ∧ ∀ entry ∈ entries, crash? fs config entry = none := by
  unfold crash?
  simp only [Visit.nodes_node, List.findSome?_eq_none_iff, List.forall_mem_cons, List.mem_flatMap]
  apply and_congr_right'
  constructor
  · intro h entry hEntry x hx
    exact h x ⟨entry, hEntry, hx⟩
  · rintro h x ⟨entry, hEntry, hx⟩
    exact h entry hEntry x hx

/-- A visit that crashes nowhere does not crash at its path, and neither do the visits of the entries. -/
theorem crashFree_cases {fs : FileSystem} {config : Config} {depth : ℕ} {path : Path} {v : Visit}
    (h : Visit.ofPath? fs depth path = some v) (hCrash : crash? fs config v = none) :
    ∃ below entries, depth = below + 1 ∧ v = .node path (Visit.discover fs path) entries ∧
      (∀ message, ¬ CrashesAt fs config path message) ∧
      List.Forall₂ (fun name entry =>
        Visit.ofPath? fs below (path.join (.ofText name)) = some entry ∧
          crash? fs config entry = none) (Visit.entryNames fs path) entries := by
  cases depth with
  | zero => cases h
  | succ depth =>
    obtain ⟨entries, rfl, hEntries⟩ := Visit.ofPath?_succ_eq_some_iff.mp h
    obtain ⟨hHere, hBelow⟩ := crash?_node_eq_none_iff.mp hCrash
    refine ⟨depth, entries, rfl, rfl, ?_, ?_⟩
    · intro message hAt
      rw [crashAt?_discover_eq_some_iff.mpr hAt] at hHere
      cases hHere
    · apply forall₂_imp_of_mem hEntries
      intro name entry _ hEntry hVisit
      exact ⟨hVisit, hBelow entry hEntry⟩

/-- A visit crashes nowhere iff no question about one of its paths does. -/
theorem crash?_eq_none_iff {fs : FileSystem} {config : Config} {depth : ℕ} {root : Path} {v : Visit}
    (h : Visit.ofPath? fs depth root = some v) :
    crash? fs config v = none ↔ ∀ path ∈ v.paths, ∀ message, ¬ CrashesAt fs config path message := by
  unfold crash? Visit.paths
  rw [List.findSome?_eq_none_iff]
  simp only [List.mem_map, ← crashAt?_discover_eq_some_iff]
  constructor
  · rintro hNone _ ⟨⟨path, found⟩, hNode, rfl⟩ message hAt
    have hHere := hNone _ hNode
    rw [Visit.found_of_mem_nodes h hNode, hAt] at hHere
    cases hHere
  · rintro hNone ⟨path, found⟩ hNode
    rw [Visit.found_of_mem_nodes h hNode]
    exact Option.eq_none_iff_forall_ne_some.mpr (hNone path ⟨_, hNode, rfl⟩)

/-! ## Outcomes of a visit -/

theorem outcomes_node [Yaml.Wording] (fs : FileSystem) (config : Config) (path : Path)
    (found : Discovery) (entries : List Visit) :
    outcomes fs config (.node path found entries) =
      outcomesAt fs config path found ++ entries.flatMap (outcomes fs config) := by
  exact Visit.flatMap_nodes_node _ path found entries

/-- The outcomes of a visit are those of what is found at its paths. -/
theorem outcomes_eq_flatMap_paths [Yaml.Wording] {fs : FileSystem} (config : Config) {depth : ℕ}
    {root : Path} {v : Visit} (h : Visit.ofPath? fs depth root = some v) :
    outcomes fs config v =
      v.paths.flatMap fun path => outcomesAt fs config path (Visit.discover fs path) := by
  unfold outcomes Visit.paths
  rw [List.flatMap_map, List.flatMap_def, List.flatMap_def]
  congr 1
  apply List.map_congr_left
  rintro ⟨path, found⟩ hMem
  have hFound := Visit.found_of_mem_nodes h hMem
  rw [hFound]

theorem mem_ofSource_iff [Yaml.Wording] {config : Config} {path : Path} {text : List Char}
    {o : Outcome} :
    o ∈ Outcome.ofSource config path text ↔
      ∃ b ∈ Block.ofText config path text, Outcome.ofBlock b = o := by
  unfold Outcome.ofSource
  exact List.mem_map

/-- An outcome at a path is about a failure to look at it, or about a block of its text. -/
theorem cases_of_mem_outcomesAt [Yaml.Wording] {fs : FileSystem} {config : Config} {path : Path}
    {found : Discovery} {o : Outcome} (h : o ∈ outcomesAt fs config path found) :
    (∃ message, o = .fileFailure path (.io message)) ∨
      config.acceptsPath path = true ∧ ∃ text, fs.read path = .ok text ∧
        ∃ b ∈ Block.ofText config path text, o = .ofBlock b := by
  unfold outcomesAt at h
  split at h
  · exact .inl ⟨_, List.mem_singleton.mp h⟩
  · exact .inl ⟨_, List.mem_singleton.mp h⟩
  · split at h
    · rename_i hAccepts
      split at h
      · rename_i text hRead
        obtain ⟨b, hb, rfl⟩ := mem_ofSource_iff.mp h
        exact .inr ⟨hAccepts, text, hRead, b, hb, rfl⟩
      · exact .inl ⟨_, List.mem_singleton.mp h⟩
      · cases h
    · cases h
  all_goals cases h

/-- Every outcome is filed under the path where it was found. -/
theorem filename_of_mem_outcomesAt [Yaml.Wording] {fs : FileSystem} {config : Config} {path : Path}
    {found : Discovery} {o : Outcome} (h : o ∈ outcomesAt fs config path found) :
    o.filename = path := by
  rcases cases_of_mem_outcomesAt h with ⟨message, rfl⟩ | ⟨_, _, _, b, hb, rfl⟩
  · rfl
  · rw [Outcome.filename_ofBlock, Block.filename_of_mem_ofText hb]

/-- No two outcomes of one source file have the same line. -/
theorem eq_of_mem_ofSource [Yaml.Wording] {config : Config} {path : Path} {text : List Char}
    {a b : Outcome} (ha : a ∈ Outcome.ofSource config path text)
    (hb : b ∈ Outcome.ofSource config path text) (h : a.location = b.location) : a = b := by
  obtain ⟨x, hx, rfl⟩ := mem_ofSource_iff.mp ha
  obtain ⟨y, hy, rfl⟩ := mem_ofSource_iff.mp hb
  rw [Outcome.location_ofBlock, Outcome.location_ofBlock, Option.some.injEq] at h
  have hLines := List.pairwise_iff_getElem.mp (Block.pairwise_line_ofText config path text)
  obtain ⟨i, hi, rfl⟩ := List.getElem_of_mem hx
  obtain ⟨j, hj, rfl⟩ := List.getElem_of_mem hy
  rcases Nat.lt_trichotomy i j with hlt | rfl | hlt
  · have := hLines i j hi hj hlt
    rw [h] at this
    omega
  · rfl
  · have := hLines j i hj hi hlt
    rw [h] at this
    omega

/-- What is found at one path has one outcome for each location. -/
theorem eq_of_mem_outcomesAt [Yaml.Wording] {fs : FileSystem} {config : Config} {path : Path}
    {found : Discovery} {a b : Outcome} (ha : a ∈ outcomesAt fs config path found)
    (hb : b ∈ outcomesAt fs config path found) (h : a.location = b.location) : a = b := by
  unfold outcomesAt at ha hb
  split at ha
  · rw [List.mem_singleton.mp ha, List.mem_singleton.mp hb]
  · rw [List.mem_singleton.mp ha, List.mem_singleton.mp hb]
  · split at ha
    · rename_i hAccepts
      rw [if_pos hAccepts] at hb
      cases hRead : fs.read path with
      | ok text =>
        rw [hRead] at ha hb
        exact eq_of_mem_ofSource ha hb h
      | error message =>
        rw [hRead] at ha hb
        rw [List.mem_singleton.mp ha, List.mem_singleton.mp hb]
      | crash message =>
        rw [hRead] at ha
        cases ha
    · cases ha
  all_goals cases ha

/-- Outcomes of a walk that are tied in a report are the same. -/
theorem eq_of_mem_outcomes [Yaml.Wording] {fs : FileSystem} (hNames : fs.ListsNames) {config : Config}
    {depth : ℕ} {root : Path} {v : Visit} (hVisit : Visit.ofPath? fs depth root = some v) {a b : Outcome}
    (ha : a ∈ outcomes fs config v) (hb : b ∈ outcomes fs config v) (h : a.compare b = .eq) :
    a = b := by
  obtain ⟨⟨p, found⟩, hp, ha⟩ := List.mem_flatMap.mp ha
  obtain ⟨⟨q, found'⟩, hq, hb⟩ := List.mem_flatMap.mp hb
  obtain ⟨rfl, texts, hAll, hPath⟩ := Visit.mem_nodes hNames hVisit hp
  obtain ⟨rfl, texts', hAll', hPath'⟩ := Visit.mem_nodes hNames hVisit hq
  obtain ⟨hComponents, hLocation⟩ := Outcome.compare_eq_eq_iff.mp h
  rw [filename_of_mem_outcomesAt ha, filename_of_mem_outcomesAt hb, hPath, hPath'] at hComponents
  -- the same components are the same names, so both outcomes are found at one path
  have hSame : p = q := by
    rw [hPath, hPath', Path.joinAll_inj root (Path.isName_of_mem_map hAll)
      (Path.isName_of_mem_map hAll') hComponents]
  subst hSame
  exact eq_of_mem_outcomesAt ha hb hLocation

end Walk

end SnippetAudit
