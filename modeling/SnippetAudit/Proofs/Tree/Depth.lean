import Mathlib.Algebra.BigOperators.Ring.List
import Mathlib.Algebra.Ring.Nat
import Mathlib.Data.List.MinMax
import Mathlib.Order.Nat
import SnippetAudit.CommandLine
import SnippetAudit.Proofs.Tree.Schedules

/-!
# How deep a walk goes

A walk keeps no record of where it has been, so it ends only if the file system makes it. In memory
it does, as long as each listed name leads down: the path of an entry has then more components than
that of its directory, and no path with more components than every node has a node. What a name
looks like otherwise makes no difference; it may go up again, have several components or lead to
nothing. A listed `.`, on the other hand, leads to the same node for ever.

Results:
* `length_components_join_lt`: a name that leads down makes a path longer.
* `exists_ofPath?_of_measure`: a visit tree is no deeper than a measure that goes down at every entry.
* `Step.asks`, `Run.asks`: a walk asks no more than it may, whatever crashes.
* `exists_visit_of_leadsDown`: how deep a walk in memory goes, and that every order of it ends.
* `ofPath?_eq_none_of_not_leadsDown`: a directory that lists `.` is visited without end.
-/

namespace SnippetAudit

/-! ## Specification -/

/-- The path is relative and has a component other than `.`. -/
def Path.LeadsDown (p : Path) : Prop := p.isAbsolute = false ∧ ∃ c ∈ p.components, c ≠ .here

instance (p : Path) : Decidable p.LeadsDown := inferInstanceAs (Decidable (_ ∧ _))

/-- Every name in a listing leads down. -/
def FileSystem.LeadsDown (fs : FileSystem) : Prop :=
  ∀ path names, fs.list path = .ok names → ∀ name ∈ names, (Path.ofText name).LeadsDown

/-- The most components that a node has. -/
def MemoryTree.mostComponents (nodes : MemoryTree) : ℕ :=
  (nodes.map fun node => node.1.length).foldr max 0

mutual

/-- How many levels of entries lie below a path. -/
def Visit.height : Visit → ℕ
  | .node _ _ entries => heightOfList entries

/-- How many levels entries and what lies below them take up. -/
def Visit.heightOfList : List Visit → ℕ
  | [] => 0
  | v :: visits => max (v.height + 1) (heightOfList visits)

end

/-- How much a task and those below it ask at most, whatever crashes. -/
inductive Task.Asks (fs : FileSystem) : Task → ℕ → Prop
  | waiting {path depth v} (h : Visit.ofPath? fs depth path = some v) :
    Asks fs (.waiting path) (2 * v.nodes.length)
  | listing {path depth v} (hKind : fs.stat path = .directory)
    (h : Visit.ofPath? fs depth path = some v) : Asks fs (.listing path) (2 * v.nodes.length - 1)
  | reading {path} : Asks fs (.reading path) 1
  | joining {children bounds outcomes} (h : List.Forall₂ (Asks fs) children bounds) :
    Asks fs (.joining children outcomes) bounds.sum
  | settled {outcomes} : Asks fs (.settled outcomes) 0
  | crashed {message} : Asks fs (.crashed message) 0

/-! ## Paths that grow -/

/-- A name that leads down makes a path longer. -/
theorem Path.length_components_join_lt (p : Path) {name : Path} (h : name.LeadsDown) :
    p.components.length < (p.join name).components.length := by
  obtain ⟨hRelative, c, hc, hNe⟩ := h
  rw [components_join_of_relative p hRelative]
  split
  · rename_i hNil
    have hNone : p.components = [] := by
      rw [show p = ⟨[]⟩ by rw [← hNil]]
      rfl
    rw [hNone]
    exact List.length_pos_of_mem hc
  · have hKept : c ∈ name.components.filter (· ≠ .here) :=
      List.mem_filter.mpr ⟨hc, decide_eq_true hNe⟩
    have hPos := List.length_pos_of_mem hKept
    rw [List.length_append]
    omega

theorem MemoryTree.length_le_mostComponents {nodes : MemoryTree}
    {node : List Path.Component × MemoryNode} (h : node ∈ nodes) :
    node.1.length ≤ nodes.mostComponents := by
  exact List.le_max_of_le (List.mem_map_of_mem h) (Nat.le_refl _)

/-- Nodes in memory lead down if the names in each of them do. -/
theorem MemoryTree.leadsDown {nodes : MemoryTree}
    (h : ∀ node ∈ nodes, ∀ name ∈ node.2.names, (Path.ofText name).LeadsDown) :
    nodes.fileSystem.LeadsDown := by
  intro path names hList
  exact h (path.components, .directory names) (mem_of_list_eq_ok hList)

namespace Visit

variable {fs : FileSystem}

/-! ## Visits with a depth -/

/-- Only a listed name is that of an entry. -/
theorem list_eq_ok_of_mem_entryNames {path : Path} {name : List Char}
    (h : name ∈ entryNames fs path) : ∃ names, fs.list path = .ok names ∧ name ∈ names := by
  unfold entryNames at h
  split at h
  · rename_i names _ hList
    exact ⟨names, hList, h⟩
  · cases h

/-- A visit tree is no deeper than a measure that goes down at every entry. -/
theorem exists_ofPath?_of_measure {m : Path → ℕ}
    (hDrop : ∀ path, ∀ name ∈ entryNames fs path, m (path.join (.ofText name)) < m path)
    {depth : ℕ} {path : Path} (h : m path < depth) : ∃ v, ofPath? fs depth path = some v := by
  induction depth generalizing path with
  | zero => cases h
  | succ depth ih =>
    have hEntry : ∀ name ∈ entryNames fs path,
        ∃ entry, ofPath? fs depth (path.join (.ofText name)) = some entry := by
      intro name hName
      have := hDrop path name hName
      exact ih (by omega)
    obtain ⟨entries, hEntries⟩ := exists_forall₂ hEntry
    exact ⟨_, ofPath?_succ_eq_some_iff.mpr ⟨entries, rfl, hEntries⟩⟩

/-- A visit that has come to its end is the same if it may go further. -/
theorem ofPath?_mono {depth depth' : ℕ} {path : Path} {v : Visit}
    (h : ofPath? fs depth path = some v) (hLe : depth ≤ depth') :
    ofPath? fs depth' path = some v := by
  induction depth generalizing path v depth' with
  | zero => cases h
  | succ depth ih =>
    obtain ⟨entries, rfl, hEntries⟩ := ofPath?_succ_eq_some_iff.mp h
    obtain ⟨below, rfl⟩ : ∃ below, depth' = below + 1 := ⟨depth' - 1, by omega⟩
    refine ofPath?_succ_eq_some_iff.mpr ⟨entries, rfl, hEntries.imp ?_⟩
    intro name entry hVisit
    exact ih hVisit (by omega)

theorem heightOfList_le_iff {entries : List Visit} {depth : ℕ} :
    heightOfList entries ≤ depth ↔ ∀ entry ∈ entries, entry.height < depth := by
  induction entries with
  | nil => simp [heightOfList]
  | cons entry entries ih =>
    rw [heightOfList, Nat.max_le, ih, List.forall_mem_cons, Nat.succ_le_iff]

/-- No entry lies as deep as a visit may go. -/
theorem height_lt_of_ofPath? {depth : ℕ} {path : Path} {v : Visit}
    (h : ofPath? fs depth path = some v) : v.height < depth := by
  induction depth generalizing path v with
  | zero => cases h
  | succ depth ih =>
    obtain ⟨entries, rfl, hEntries⟩ := ofPath?_succ_eq_some_iff.mp h
    rw [height, Nat.lt_succ_iff, heightOfList_le_iff]
    intro entry hEntry
    obtain ⟨_, _, hVisit⟩ := exists_mem_of_forall₂ hEntries hEntry
    exact ih hVisit

end Visit

namespace Task

variable {fs : FileSystem} {config : Config}

/-! ## Questions -/

/-- A visit may ask two questions of its own, and those of the entries. -/
theorem asks_cases {depth : ℕ} {path : Path} {v : Visit} (h : Visit.ofPath? fs depth path = some v) :
    ∃ bounds : List ℕ, 2 * v.nodes.length = 2 + bounds.sum ∧
      List.Forall₂ (Asks fs)
        ((Visit.entryNames fs path).map fun name => .waiting (path.join (.ofText name))) bounds := by
  cases depth with
  | zero => cases h
  | succ depth =>
    obtain ⟨entries, rfl, hEntries⟩ := Visit.ofPath?_succ_eq_some_iff.mp h
    refine ⟨entries.map fun entry => 2 * entry.nodes.length, ?_, ?_⟩
    · rw [Visit.nodes_node, List.length_cons, List.length_flatMap, List.sum_map_mul_left]
      omega
    · rw [List.forall₂_map_left_iff, List.forall₂_map_right_iff]
      exact hEntries.imp fun name entry hVisit => .waiting hVisit

/-- A step takes what it asks from what a task may ask. -/
theorem Step.asks [Yaml.Wording] {t t' : Task} {calls : List Call} (h : Step fs config t calls t')
    {n : ℕ} (hAsks : Asks fs t n) : ∃ n', Asks fs t' n' ∧ calls.length + n' ≤ n := by
  induction h generalizing n with
  | crash h =>
    cases hAsks with
    | waiting hVisit =>
      obtain ⟨bounds, hSum, _⟩ := asks_cases hVisit
      exact ⟨0, .crashed, by rw [hSum, List.length_singleton]; omega⟩
  | unstatable h | other h | refused h hName =>
    cases hAsks with
    | waiting hVisit =>
      obtain ⟨bounds, hSum, _⟩ := asks_cases hVisit
      exact ⟨0, .settled, by rw [hSum, List.length_singleton]; omega⟩
  | accepted h hName =>
    cases hAsks with
    | waiting hVisit =>
      obtain ⟨bounds, hSum, _⟩ := asks_cases hVisit
      exact ⟨1, .reading, by rw [hSum, List.length_singleton]; omega⟩
  | directory h =>
    cases hAsks with
    | waiting hVisit =>
      obtain ⟨bounds, hSum, _⟩ := asks_cases hVisit
      exact ⟨_, .listing h hVisit, by rw [hSum, List.length_singleton]; omega⟩
  | listingCrash h =>
    cases hAsks with
    | listing hKind hVisit =>
      obtain ⟨bounds, hSum, _⟩ := asks_cases hVisit
      exact ⟨0, .crashed, by rw [hSum, List.length_singleton]; omega⟩
  | unlistable h =>
    cases hAsks with
    | listing hKind hVisit =>
      obtain ⟨bounds, hSum, _⟩ := asks_cases hVisit
      exact ⟨0, .settled, by rw [hSum, List.length_singleton]; omega⟩
  | spawn h =>
    cases hAsks with
    | listing hKind hVisit =>
      obtain ⟨bounds, hSum, hBounds⟩ := asks_cases hVisit
      rw [Visit.entryNames, hKind, h] at hBounds
      exact ⟨_, .joining hBounds, by rw [hSum, List.length_singleton]; omega⟩
  | readingCrash h =>
    cases hAsks with
    | reading => exact ⟨0, .crashed, Nat.le_refl _⟩
  | unreadable h | checked h =>
    cases hAsks with
    | reading => exact ⟨0, .settled, Nat.le_refl _⟩
  | child h ih =>
    cases hAsks with
    | joining hBounds =>
      obtain ⟨bounds₁, n, bounds₂, hPre, hChild, hPost, rfl⟩ :=
        forall₂_append_cons_left_iff.mp hBounds
      obtain ⟨n', hChild', hLe⟩ := ih hChild
      have hBounds' := forall₂_append_cons_left_iff.mpr
        ⟨bounds₁, n', bounds₂, hPre, hChild', hPost, rfl⟩
      refine ⟨_, .joining hBounds', ?_⟩
      rw [List.sum_append, List.sum_append, List.sum_cons, List.sum_cons]
      omega
  | join =>
    cases hAsks with
    | joining hBounds =>
      obtain ⟨bounds₁, n, bounds₂, hPre, _, hPost, rfl⟩ := forall₂_append_cons_left_iff.mp hBounds
      refine ⟨_, .joining (List.rel_append hPre hPost), ?_⟩
      rw [List.sum_append, List.sum_append, List.sum_cons, List.length_nil]
      omega
  | resume =>
    cases hAsks with
    | joining => exact ⟨0, .crashed, Nat.zero_le _⟩
  | settle =>
    cases hAsks with
    | joining => exact ⟨0, .settled, Nat.zero_le _⟩

/-- A run asks no more than its task may. -/
theorem Run.asks [Yaml.Wording] {t t' : Task} {calls : List Call} (h : Run fs config t calls t') {n : ℕ}
    (hAsks : Asks fs t n) : calls.length ≤ n := by
  induction h generalizing n with
  | refl => exact Nat.zero_le n
  | step hStep _ ih =>
    obtain ⟨n', hAsks', hLe⟩ := hStep.asks hAsks
    have hRest := ih hAsks'
    rw [List.length_append]
    omega

/-- The steps of a walk whose visit tree ends come to an end, also where a visit crashes. -/
theorem acc_step_of_ofPath? [Yaml.Wording] {depth : ℕ} {root : Path} {v : Visit}
    (h : Visit.ofPath? fs depth root = some v) :
    Acc (fun t' t => ∃ calls, Step fs config t calls t') (.waiting root) := by
  have hAsks : Asks fs (.waiting root) (2 * v.nodes.length) := .waiting h
  exact acc_step_of_bound (fun t t' calls n hStep hAsks => hStep.asks hAsks) hAsks

end Task

namespace MemoryTree

variable {nodes : MemoryTree}

/-! ## Walks in memory -/

/-- How many components the longest node has more than a path, and one. -/
def levelsBelow (nodes : MemoryTree) (path : Path) : ℕ :=
  nodes.mostComponents + 1 - path.components.length

/-- How many nodes have as many components as a path or more. -/
def countFrom (nodes : MemoryTree) (path : Path) : ℕ :=
  nodes.countP fun node => path.components.length ≤ node.1.length

/-- An entry lies under a node with the components of its directory, and its path is longer. -/
theorem cases_of_mem_entryNames (hDown : nodes.fileSystem.LeadsDown) {path : Path} {name : List Char}
    (h : name ∈ Visit.entryNames nodes.fileSystem path) :
    (∃ node ∈ nodes, node.1 = path.components) ∧
      path.components.length < (path.join (.ofText name)).components.length := by
  obtain ⟨names, hList, hName⟩ := Visit.list_eq_ok_of_mem_entryNames h
  exact ⟨⟨_, mem_of_list_eq_ok hList, rfl⟩,
    path.length_components_join_lt (hDown path names hList name hName)⟩

/-- An entry has fewer levels below it than its directory. -/
theorem levelsBelow_lt (hDown : nodes.fileSystem.LeadsDown) (path : Path) (name : List Char)
    (h : name ∈ Visit.entryNames nodes.fileSystem path) :
    nodes.levelsBelow (path.join (.ofText name)) < nodes.levelsBelow path := by
  obtain ⟨⟨node, hNode, hSame⟩, hLonger⟩ := cases_of_mem_entryNames hDown h
  have hLe := length_le_mostComponents hNode
  rw [hSame] at hLe
  unfold levelsBelow
  omega

/-- A directory is not counted from its entries. -/
theorem countFrom_lt (hDown : nodes.fileSystem.LeadsDown) (path : Path) (name : List Char)
    (h : name ∈ Visit.entryNames nodes.fileSystem path) :
    nodes.countFrom (path.join (.ofText name)) < nodes.countFrom path := by
  obtain ⟨⟨node, hNode, hSame⟩, hLonger⟩ := cases_of_mem_entryNames hDown h
  obtain ⟨front, back, rfl⟩ := List.append_of_mem hNode
  have hMono (part : MemoryTree) :
      part.countFrom (path.join (.ofText name)) ≤ part.countFrom path := by
    apply List.countP_mono_left
    intro node _ hLe
    rw [decide_eq_true_iff] at hLe ⊢
    omega
  have hFront := hMono front
  have hBack := hMono back
  unfold countFrom at hFront hBack ⊢
  rw [List.countP_append, List.countP_append, List.countP_cons_of_neg (by simpa [hSame] using hLonger),
    List.countP_cons_of_pos (by simp [hSame])]
  omega

/-- In memory a walk ends if every listed name leads down, from any root and whatever else the names
    are: its visit tree has at most one level more than the largest node has components, less the
    components of the root; it is found at the depth to which a check goes, so that no check ends
    for want of depth; and every order of its steps comes to an end, with the root settled or crashed,
    after at most two questions for each node of the visit tree. -/
theorem exists_visit_of_leadsDown [Yaml.Wording] (hDown : nodes.fileSystem.LeadsDown) (root : Path) :
    ∃ v, Visit.ofPath? nodes.fileSystem nodes.depth root = some v ∧
      v.height ≤ nodes.mostComponents + 1 - root.components.length ∧
      (∀ c : Check, c.root = root → ∀ config,
        c.outcomes nodes.fileSystem nodes.depth config ≠ .error .endless) ∧
      ∀ config,
        Acc (fun t' t => ∃ calls, Task.Step nodes.fileSystem config t calls t') (.waiting root) ∧
        ∀ calls t, Task.Run nodes.fileSystem config (.waiting root) calls t →
          calls.length ≤ 2 * v.nodes.length ∧
          ((∃ l, t = .settled l) ∨ (∃ message, t = .crashed message) ∨
            ∃ calls' t', Task.Step nodes.fileSystem config t calls' t') := by
  obtain ⟨v, hVisit⟩ := Visit.exists_ofPath?_of_measure (levelsBelow_lt hDown)
    (Nat.lt_succ_self (nodes.levelsBelow root))
  have hCount : nodes.countFrom root < nodes.depth := by
    have hLe : nodes.countFrom root ≤ nodes.length := List.countP_le_length
    unfold depth
    omega
  obtain ⟨w, hDepth⟩ := Visit.exists_ofPath?_of_measure (countFrom_lt hDown) hCount
  -- both trees are the one that is found when the walk may go as far as either
  have hSame : v = w := by
    have hFar := Visit.ofPath?_mono hVisit (Nat.le_max_left _ nodes.depth)
    rw [Visit.ofPath?_mono hDepth (Nat.le_max_right _ _)] at hFar
    exact (Option.some.inj hFar).symm
  subst hSame
  refine ⟨v, hDepth, Nat.le_of_lt_succ (Visit.height_lt_of_ofPath? hVisit), ?_, ?_⟩
  · rintro c rfl config hEndless
    unfold Check.outcomes at hEndless
    rw [hDepth] at hEndless
    dsimp only at hEndless
    split at hEndless <;> cases hEndless
  · intro config
    refine ⟨Task.acc_step_of_ofPath? hDepth, ?_⟩
    intro calls t hRun
    exact ⟨hRun.asks (.waiting hDepth), Task.exists_step_or_over nodes.fileSystem config t⟩

/-- A top whose entries go on only by names that go up. One of them is listed twice, and is passed on the
    way to another. -/
def winding : MemoryTree :=
  .ofList [(.ofString "", .directory [['a', '/', '.', '.'], ['a'], ['a']]),
    (.ofString "a", .directory [['.', '.']]), (.ofString "a/..", .directory [['.', '.', '/', 'x']])]

/-- The visit of `a/..` in `winding`. -/
def windingBelow : Visit :=
  .node (.ofString "a/..") .directory
    [.node (.ofString "a/../../x") (.unstatable MemoryTree.missing) []]

/-- The visit of `winding` from its top. -/
def windingVisit : Visit :=
  .node (.ofString "") .directory
    [windingBelow, .node (.ofString "a") .directory [windingBelow],
      .node (.ofString "a") .directory [windingBelow]]

/-- The walk over `winding` is one level deeper than its longest path, and ends in every order. -/
theorem exists_visit_of_leadsDown_winding :
    winding.mostComponents = 2 ∧ windingVisit.height = 3 ∧
    windingVisit.height ≤ winding.mostComponents + 1 - (Path.ofString "").components.length ∧
    Acc (fun t' t => ∃ calls, Task.Step winding.fileSystem .default t calls t')
      (.waiting (.ofString "")) ∧
    ∀ calls t, Task.Run winding.fileSystem .default (.waiting (.ofString "")) calls t →
      calls.length ≤ 18 ∧
      ((∃ l, t = .settled l) ∨ (∃ message, t = .crashed message) ∨
        ∃ calls' t', Task.Step winding.fileSystem .default t calls' t') := by
  have hDown : winding.fileSystem.LeadsDown := leadsDown (by decide)
  have hVisit : Visit.ofPath? winding.fileSystem winding.depth (.ofString "") =
      some windingVisit := by rfl
  obtain ⟨v, hEnds, hHeight, _, hOrders⟩ := exists_visit_of_leadsDown hDown (.ofString "")
  rw [hVisit] at hEnds
  obtain rfl := Option.some.inj hEnds
  exact ⟨by decide, by decide, hHeight, hOrders .default⟩

/-! ## Walks without an end -/

/-- A directory that lists a relative name which does not lead down is visited without end, as the name
    leads back to its node. -/
theorem ofPath?_eq_none_of_not_leadsDown {path : Path} {names : List (List Char)} {name : List Char}
    (hNode : nodes.node? path = some (.directory names)) (hName : name ∈ names)
    (hRelative : (Path.ofText name).isAbsolute = false) (hIdle : ¬ (Path.ofText name).LeadsDown)
    (hWritten : path.bytes ≠ []) (depth : ℕ) :
    Visit.ofPath? nodes.fileSystem depth path = none := by
  have hNone : (Path.ofText name).components.filter (· ≠ .here) = [] := by
    rw [List.filter_eq_nil_iff]
    intro c hc hNe
    exact hIdle ⟨hRelative, c, hc, of_decide_eq_true hNe⟩
  induction depth generalizing path with
  | zero => rfl
  | succ depth ih =>
    have hSame : (path.join (.ofText name)).components = path.components := by
      rw [Path.components_join_of_relative path hRelative, if_neg hWritten, hNone, List.append_nil]
    have hWritten' : (path.join (.ofText name)).bytes ≠ [] := by
      rw [Path.join, hRelative, if_neg Bool.false_ne_true]
      split <;> simp [hWritten]
    have hBelow : Visit.ofPath? nodes.fileSystem depth (path.join (.ofText name)) = none := by
      refine ih ?_ hWritten'
      rw [node?, hSame]
      exact hNode
    have hStat : nodes.fileSystem.stat path = .directory := congrArg kindOf hNode
    have hList : nodes.fileSystem.list path = .ok names := congrArg namesOf hNode
    rw [Option.eq_none_iff_forall_ne_some]
    intro v hVisit
    obtain ⟨entries, rfl, hEntries⟩ := Visit.ofPath?_succ_eq_some_iff.mp hVisit
    rw [Visit.entryNames, hStat, hList] at hEntries
    obtain ⟨entry, _, hEntry⟩ := exists_mem_right_of_forall₂ hEntries hName
    rw [hBelow] at hEntry
    cases hEntry

end MemoryTree

end SnippetAudit
