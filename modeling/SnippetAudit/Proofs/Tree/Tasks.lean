import SnippetAudit.CommandLine
import SnippetAudit.Proofs.Tree.Visits

/-!
# Tasks

A walk in small steps. Each visit is a task; a directory starts a task for every name that it
lists and then joins them one at a time, whichever of them has settled. Any task may take the
next step, so a run stands for one order in which visits go on, settle and are joined.

Results:
* `Step.owes`: a step changes nothing about the outcomes that a task will have, but for their
  arrangement.
* `run_outcomes`: there is a run to the outcomes of the visit tree.
* `sort_eq_of_run`: in a report every run has the same outcomes in the same order.
-/

namespace SnippetAudit

/-- A question to the file system. -/
inductive Call where
  | stat (path : Path)
  | list (path : Path)
  | read (path : Path)
  deriving DecidableEq, Repr

/-- The visit of a path under way. -/
inductive Task where
  /-- Nothing has been asked about the path. -/
  | waiting (path : Path)
  /-- The path is a directory. -/
  | listing (path : Path)
  /-- The path is a file to be read. -/
  | reading (path : Path)
  /-- The entries have their tasks, and those that are joined have these outcomes. -/
  | joining (children : List Task) (outcomes : List Outcome)
  | settled (outcomes : List Outcome)
  | crashed (message : String)

namespace Task

/-- One step of a task or of one below it, with what is asked in it. -/
inductive Step [Yaml.Wording] (fs : FileSystem) (config : Config) : Task → List Call → Task → Prop
  | crash {path message} (h : fs.stat path = .crash message) :
    Step fs config (.waiting path) [.stat path] (.crashed message)
  | unstatable {path message} (h : fs.stat path = .failure message) :
    Step fs config (.waiting path) [.stat path] (.settled [.fileFailure path (.io message)])
  | other {path} (h : fs.stat path = .other) :
    Step fs config (.waiting path) [.stat path] (.settled [])
  | refused {path} (h : fs.stat path = .file) (hName : config.acceptsPath path = false) :
    Step fs config (.waiting path) [.stat path] (.settled [])
  | accepted {path} (h : fs.stat path = .file) (hName : config.acceptsPath path = true) :
    Step fs config (.waiting path) [.stat path] (.reading path)
  | directory {path} (h : fs.stat path = .directory) :
    Step fs config (.waiting path) [.stat path] (.listing path)
  | listingCrash {path message} (h : fs.list path = .crash message) :
    Step fs config (.listing path) [.list path] (.crashed message)
  | unlistable {path message} (h : fs.list path = .error message) :
    Step fs config (.listing path) [.list path] (.settled [.fileFailure path (.io message)])
  | spawn {path names} (h : fs.list path = .ok names) :
    Step fs config (.listing path) [.list path]
      (.joining (names.map fun name => .waiting (path.join (.ofText name))) [])
  | readingCrash {path message} (h : fs.read path = .crash message) :
    Step fs config (.reading path) [.read path] (.crashed message)
  | unreadable {path message} (h : fs.read path = .error message) :
    Step fs config (.reading path) [.read path] (.settled [.fileFailure path (.io message)])
  | checked {path text} (h : fs.read path = .ok text) :
    Step fs config (.reading path) [.read path] (.settled (Outcome.ofSource config path text))
  | child {pre post t t' calls outcomes} (h : Step fs config t calls t') :
    Step fs config (.joining (pre ++ t :: post) outcomes) calls
      (.joining (pre ++ t' :: post) outcomes)
  | join {pre post outcomes joined} :
    Step fs config (.joining (pre ++ .settled joined :: post) outcomes) []
      (.joining (pre ++ post) (outcomes ++ joined))
  | resume {pre post outcomes message} :
    Step fs config (.joining (pre ++ .crashed message :: post) outcomes) [] (.crashed message)
  | settle {outcomes} : Step fs config (.joining [] outcomes) [] (.settled outcomes)

/-- Steps one after another, with all that is asked in them. -/
inductive Run [Yaml.Wording] (fs : FileSystem) (config : Config) : Task → List Call → Task → Prop
  | refl {t} : Run fs config t [] t
  | step {t t' t'' calls calls'} (h : Step fs config t calls t') (hRun : Run fs config t' calls' t'') :
    Run fs config t (calls ++ calls') t''

/-- The outcomes that a task has or will have, when each child is joined in its place. No visit below
    it crashes. -/
inductive Owes [Yaml.Wording] (fs : FileSystem) (config : Config) : Task → List Outcome → Prop
  | waiting {path depth v} (h : Visit.ofPath? fs depth path = some v)
    (hCrash : Walk.crash? fs config v = none) :
    Owes fs config (.waiting path) (Walk.outcomes fs config v)
  | listing {path depth v} (hKind : fs.stat path = .directory)
    (h : Visit.ofPath? fs depth path = some v) (hCrash : Walk.crash? fs config v = none) :
    Owes fs config (.listing path) (Walk.outcomes fs config v)
  | reading {path} (hName : config.acceptsPath path = true)
    (hRead : ∀ message, fs.read path ≠ .crash message) :
    Owes fs config (.reading path) (Walk.outcomesAt fs config path .file)
  | joining {children lists outcomes} (h : List.Forall₂ (Owes fs config) children lists) :
    Owes fs config (.joining children outcomes) (outcomes ++ lists.flatten)
  | settled {outcomes} : Owes fs config (.settled outcomes) outcomes

section

variable [Yaml.Wording] {fs : FileSystem} {config : Config}

/-! ## Steps -/

/-- A visit without a crash has the outcomes at its path and those of the entries. -/
theorem visit_cases {depth : ℕ} {path : Path} {v : Visit}
    (h : Visit.ofPath? fs depth path = some v) (hCrash : Walk.crash? fs config v = none) :
    ∃ lists, Walk.outcomes fs config v =
        Walk.outcomesAt fs config path (Visit.discover fs path) ++ lists.flatten ∧
      (∀ message, ¬ Walk.CrashesAt fs config path message) ∧
      List.Forall₂ (Owes fs config)
        ((Visit.entryNames fs path).map fun name => .waiting (path.join (.ofText name))) lists := by
  obtain ⟨_, entries, rfl, rfl, hNot, hEntries⟩ := Walk.crashFree_cases h hCrash
  refine ⟨entries.map (Walk.outcomes fs config), ?_, hNot, ?_⟩
  · rw [Walk.outcomes_node, List.flatMap_def]
  · rw [List.forall₂_map_left_iff, List.forall₂_map_right_iff]
    apply hEntries.imp
    rintro name entry ⟨hVisit, hBelow⟩
    exact .waiting hVisit hBelow

/-- A visit of what is no directory has the outcomes at its path. -/
theorem outcomes_of_leaf {depth : ℕ} {path : Path} {v : Visit} {found : Discovery}
    (h : Visit.ofPath? fs depth path = some v) (hCrash : Walk.crash? fs config v = none)
    (hFound : Visit.discover fs path = found) (hLeaf : found ≠ .directory) :
    Walk.outcomes fs config v = Walk.outcomesAt fs config path found := by
  obtain ⟨lists, hOutcomes, _, hLists⟩ := visit_cases h hCrash
  rw [Visit.entryNames_of_discover hFound hLeaf, List.map_nil, List.forall₂_nil_left_iff] at hLists
  rw [hOutcomes, hFound, hLists, List.flatten_nil, List.append_nil]

/-- A step changes nothing about the outcomes that a task will have, but for their
    arrangement. -/
theorem Step.owes {t t' : Task} {calls : List Call} (h : Step fs config t calls t')
    {l : List Outcome} (hOwes : Owes fs config t l) : ∃ l', Owes fs config t' l' ∧ l'.Perm l := by
  induction h generalizing l with
  | crash h =>
    cases hOwes with
    | waiting hVisit hCrash =>
      obtain ⟨_, _, hNot, _⟩ := visit_cases hVisit hCrash
      exact absurd (.inl h) (hNot _)
  | @unstatable path message h =>
    cases hOwes with
    | waiting hVisit hCrash =>
      have hFound : Visit.discover fs path = .unstatable message := by rw [Visit.discover, h]
      rw [outcomes_of_leaf hVisit hCrash hFound (by simp)]
      exact ⟨_, .settled, .rfl⟩
  | @other path h =>
    cases hOwes with
    | waiting hVisit hCrash =>
      have hFound : Visit.discover fs path = .other := by rw [Visit.discover, h]
      rw [outcomes_of_leaf hVisit hCrash hFound (by simp)]
      exact ⟨_, .settled, .rfl⟩
  | @refused path h hName =>
    cases hOwes with
    | waiting hVisit hCrash =>
      have hFound : Visit.discover fs path = .file := by rw [Visit.discover, h]
      rw [outcomes_of_leaf hVisit hCrash hFound (by simp), Walk.outcomesAt_of_refused fs hName]
      exact ⟨_, .settled, .rfl⟩
  | @accepted path h hName =>
    cases hOwes with
    | waiting hVisit hCrash =>
      have hFound : Visit.discover fs path = .file := by rw [Visit.discover, h]
      obtain ⟨_, _, hNot, _⟩ := visit_cases hVisit hCrash
      rw [outcomes_of_leaf hVisit hCrash hFound (by simp)]
      exact ⟨_, .reading hName fun _ hRead => hNot _ (.inr (.inr ⟨h, hName, hRead⟩)), .rfl⟩
  | directory h =>
    cases hOwes with
    | waiting hVisit hCrash => exact ⟨_, .listing h hVisit hCrash, .rfl⟩
  | listingCrash h =>
    cases hOwes with
    | listing hKind hVisit hCrash =>
      obtain ⟨_, _, hNot, _⟩ := visit_cases hVisit hCrash
      exact absurd (.inr (.inl ⟨hKind, h⟩)) (hNot _)
  | @unlistable path message h =>
    cases hOwes with
    | listing hKind hVisit hCrash =>
      have hFound : Visit.discover fs path = .unlistable message := by
        rw [Visit.discover, hKind]
        simp only [h]
      rw [outcomes_of_leaf hVisit hCrash hFound (by simp)]
      exact ⟨_, .settled, .rfl⟩
  | spawn h =>
    cases hOwes with
    | listing hKind hVisit hCrash =>
      obtain ⟨lists, hOutcomes, _, hLists⟩ := visit_cases hVisit hCrash
      rw [Visit.entryNames, hKind, h] at hLists
      refine ⟨_, .joining hLists, ?_⟩
      rw [hOutcomes, Visit.discover, hKind]
      simp only [h]
      exact .rfl
  | readingCrash h =>
    cases hOwes with
    | reading _ hRead => exact absurd h (hRead _)
  | unreadable h =>
    cases hOwes with
    | reading hName =>
      refine ⟨_, .settled, ?_⟩
      rw [Walk.outcomesAt, if_pos hName, h]
  | checked h =>
    cases hOwes with
    | reading hName =>
      refine ⟨_, .settled, ?_⟩
      rw [Walk.outcomesAt, if_pos hName, h]
  | child h ih =>
    cases hOwes with
    | joining hLists =>
      obtain ⟨lists₁, list, lists₂, hPre, hChild, hPost, rfl⟩ :=
        forall₂_append_cons_left_iff.mp hLists
      obtain ⟨list', hChild', hPerm⟩ := ih hChild
      have hLists' := forall₂_append_cons_left_iff.mpr
        ⟨lists₁, list', lists₂, hPre, hChild', hPost, rfl⟩
      refine ⟨_, .joining hLists', ?_⟩
      rw [List.flatten_append, List.flatten_append, List.flatten_cons, List.flatten_cons]
      exact ((hPerm.append_right _).append_left _).append_left _
  | join =>
    cases hOwes with
    | joining hLists =>
      obtain ⟨lists₁, list, lists₂, hPre, hChild, hPost, rfl⟩ :=
        forall₂_append_cons_left_iff.mp hLists
      cases hChild
      refine ⟨_, .joining (List.rel_append hPre hPost), ?_⟩
      rw [List.flatten_append, List.flatten_append, List.flatten_cons, List.append_assoc]
      exact (List.perm_append_comm_assoc _ _ _).append_left _
  | resume =>
    cases hOwes with
    | joining hLists =>
      -- a crashed child owes nothing
      obtain ⟨_, _, _, _, hChild, _, _⟩ := forall₂_append_cons_left_iff.mp hLists
      cases hChild
  | settle =>
    cases hOwes with
    | joining hLists =>
      cases hLists
      refine ⟨_, .settled, ?_⟩
      rw [List.flatten_nil, List.append_nil]

/-- A run changes nothing about the outcomes that a task will have, but for their
    arrangement. -/
theorem Run.owes {t t' : Task} {calls : List Call} (h : Run fs config t calls t')
    {l : List Outcome} (hOwes : Owes fs config t l) : ∃ l', Owes fs config t' l' ∧ l'.Perm l := by
  induction h generalizing l with
  | refl => exact ⟨l, hOwes, .rfl⟩
  | step hStep _ ih =>
    obtain ⟨l₁, hOwes₁, hPerm₁⟩ := hStep.owes hOwes
    obtain ⟨l₂, hOwes₂, hPerm₂⟩ := ih hOwes₁
    exact ⟨l₂, hOwes₂, hPerm₂.trans hPerm₁⟩

/-- The outcomes that a run of a walk settles with are those of the visit tree, in some
    arrangement. -/
theorem Run.outcomes_perm {depth : ℕ} {path : Path} {v : Visit} {calls : List Call}
    {l : List Outcome} (h : Run fs config (.waiting path) calls (.settled l))
    (hVisit : Visit.ofPath? fs depth path = some v) (hCrash : Walk.crash? fs config v = none) :
    l.Perm (Walk.outcomes fs config v) := by
  obtain ⟨l', hOwes, hPerm⟩ := h.owes (.waiting hVisit hCrash)
  cases hOwes
  exact hPerm

/-- The outcomes that a run of a walk settles with are sorted as those of the visit tree are. -/
theorem Run.sort_eq (hNames : fs.ListsNames) {depth : ℕ} {root : Path} {v : Visit}
    {calls : List Call} {l : List Outcome} (h : Run fs config (.waiting root) calls (.settled l))
    (hVisit : Visit.ofPath? fs depth root = some v) (hCrash : Walk.crash? fs config v = none) :
    Outcome.sort l = Outcome.sort (Walk.outcomes fs config v) := by
  have hPerm := h.outcomes_perm hVisit hCrash
  apply Outcome.sort_eq_of_perm hPerm
  intro a ha b hb hTied
  exact Walk.eq_of_mem_outcomes hNames hVisit (hPerm.mem_iff.mp ha) (hPerm.mem_iff.mp hb) hTied

/-! ## Runs -/

theorem Run.single {t t' : Task} {calls : List Call} (h : Step fs config t calls t') :
    Run fs config t calls t' := by
  have hRun := Run.step h .refl
  rw [List.append_nil] at hRun
  exact hRun

theorem Run.trans {t t' t'' : Task} {calls calls' : List Call} (h : Run fs config t calls t')
    (h' : Run fs config t' calls' t'') : Run fs config t (calls ++ calls') t'' := by
  induction h with
  | refl => exact h'
  | step hStep _ ih =>
    rw [List.append_assoc]
    exact .step hStep (ih h')

/-- A child runs as it would by itself. -/
theorem Run.child (pre post : List Task) (outcomes : List Outcome) {t t' : Task}
    {calls : List Call} (h : Run fs config t calls t') :
    Run fs config (.joining (pre ++ t :: post) outcomes) calls
      (.joining (pre ++ t' :: post) outcomes) := by
  induction h with
  | refl => exact .refl
  | step hStep _ ih => exact .step (.child hStep) ih

/-- Children that can settle can be joined in their order. -/
theorem exists_run_joining {children : List Task} {lists : List (List Outcome)}
    (h : List.Forall₂ (fun t l => ∃ calls, Run fs config t calls (.settled l)) children lists)
    (outcomes : List Outcome) :
    ∃ calls, Run fs config (.joining children outcomes) calls
      (.settled (outcomes ++ lists.flatten)) := by
  induction h generalizing outcomes with
  | nil =>
    rw [List.flatten_nil, List.append_nil]
    exact ⟨_, .single .settle⟩
  | @cons t l children lists hChild _ ih =>
    obtain ⟨calls, hRun⟩ := hChild
    obtain ⟨calls', hRest⟩ := ih (outcomes ++ l)
    have hChildRun := hRun.child [] children outcomes
    have hJoin : Step fs config (.joining ([] ++ .settled l :: children) outcomes) []
        (.joining ([] ++ children) (outcomes ++ l)) := .join
    rw [List.flatten_cons, ← List.append_assoc]
    exact ⟨_, hChildRun.trans (.step hJoin hRest)⟩

/-- There is a run to the outcomes of the visit tree. -/
theorem run_outcomes {depth : ℕ} {path : Path} {v : Visit}
    (h : Visit.ofPath? fs depth path = some v) (hCrash : Walk.crash? fs config v = none) :
    ∃ calls, Run fs config (.waiting path) calls (.settled (Walk.outcomes fs config v)) := by
  induction depth generalizing path v with
  | zero => cases h
  | succ depth ih =>
    cases hStat : fs.stat path with
    | crash message =>
      obtain ⟨_, _, hNot, _⟩ := visit_cases h hCrash
      exact absurd (.inl hStat) (hNot message)
    | failure message =>
      have hFound : Visit.discover fs path = .unstatable message := by rw [Visit.discover, hStat]
      rw [outcomes_of_leaf h hCrash hFound (by simp)]
      exact ⟨_, .single (.unstatable hStat)⟩
    | other =>
      have hFound : Visit.discover fs path = .other := by rw [Visit.discover, hStat]
      rw [outcomes_of_leaf h hCrash hFound (by simp)]
      exact ⟨_, .single (.other hStat)⟩
    | file =>
      have hFound : Visit.discover fs path = .file := by rw [Visit.discover, hStat]
      rw [outcomes_of_leaf h hCrash hFound (by simp), Walk.outcomesAt]
      cases hName : config.acceptsPath path with
      | false => exact ⟨_, .single (.refused hStat hName)⟩
      | true =>
        cases hRead : fs.read path with
        | crash message =>
          obtain ⟨_, _, hNot, _⟩ := visit_cases h hCrash
          exact absurd (.inr (.inr ⟨hStat, hName, hRead⟩)) (hNot message)
        | error message => exact ⟨_, .step (.accepted hStat hName) (.single (.unreadable hRead))⟩
        | ok text => exact ⟨_, .step (.accepted hStat hName) (.single (.checked hRead))⟩
    | directory =>
      cases hList : fs.list path with
      | crash message =>
        obtain ⟨_, _, hNot, _⟩ := visit_cases h hCrash
        exact absurd (.inr (.inl ⟨hStat, hList⟩)) (hNot message)
      | error message =>
        have hFound : Visit.discover fs path = .unlistable message := by
          rw [Visit.discover, hStat]
          simp only [hList]
        rw [outcomes_of_leaf h hCrash hFound (by simp)]
        exact ⟨_, .step (.directory hStat) (.single (.unlistable hList))⟩
      | ok names =>
        obtain ⟨entries, rfl, hEntries⟩ := Visit.ofPath?_succ_eq_some_iff.mp h
        obtain ⟨_, hBelow⟩ := Walk.crash?_node_eq_none_iff.mp hCrash
        rw [Visit.entryNames, hStat, hList] at hEntries
        have hChildren : List.Forall₂ (fun t l => ∃ calls, Run fs config t calls (.settled l))
            (names.map fun name => .waiting (path.join (.ofText name)))
            (entries.map (Walk.outcomes fs config)) := by
          rw [List.forall₂_map_left_iff, List.forall₂_map_right_iff]
          apply forall₂_imp_of_mem hEntries
          intro name entry _ hEntry hVisit
          exact ih hVisit (hBelow entry hEntry)
        obtain ⟨calls, hJoins⟩ := exists_run_joining hChildren []
        rw [Walk.outcomes_node, Visit.discover, hStat, List.flatMap_def]
        simp only [hList]
        exact ⟨_, .step (.directory hStat) (.step (.spawn hList) hJoins)⟩

/-- In a report every run of a walk that crashes nowhere has the same outcomes in the same order,
    whichever visits go on, settle and are joined first; and there is such a run. -/
theorem sort_eq_of_run (hNames : fs.ListsNames) {depth : ℕ} {root : Path} {v : Visit}
    (hVisit : Visit.ofPath? fs depth root = some v) (hCrash : Walk.crash? fs config v = none) :
    (∃ calls, Run fs config (.waiting root) calls (.settled (Walk.outcomes fs config v))) ∧
    ∀ calls l, Run fs config (.waiting root) calls (.settled l) →
      Outcome.sort l = Outcome.sort (Walk.outcomes fs config v) := by
  refine ⟨run_outcomes hVisit hCrash, ?_⟩
  intro calls l hRun
  obtain ⟨l', hOwes, hPerm⟩ := hRun.owes (.waiting hVisit hCrash)
  cases hOwes
  apply Outcome.sort_eq_of_perm hPerm
  intro a ha b hb hTied
  exact Walk.eq_of_mem_outcomes hNames hVisit (hPerm.mem_iff.mp ha) (hPerm.mem_iff.mp hb) hTied

end

/-- A directory that lists one name twice, and neither of its entries can be looked at. -/
def twiceListed : MemoryTree :=
  .ofList [(.ofString "r", .directory [['b'], ['a'], ['a']]), (.ofString "r/a", .unstatable "denied")]

theorem listsNames_twiceListed : twiceListed.fileSystem.ListsNames :=
  MemoryTree.listsNames (by decide)

/-- All runs over `twiceListed` are sorted alike. -/
theorem sort_eq_of_run_twiceListed :
    (∃ calls, Run twiceListed.fileSystem .default (.waiting (.ofString "r")) calls
      (.settled (Walk.outcomes twiceListed.fileSystem .default
        (.node (.ofString "r") .directory
          [.node (.ofString "r/b") (.unstatable MemoryTree.missing) [],
            .node (.ofString "r/a") (.unstatable "denied") [],
            .node (.ofString "r/a") (.unstatable "denied") []])))) ∧
    ∀ calls l, Run twiceListed.fileSystem .default (.waiting (.ofString "r")) calls (.settled l) →
      Outcome.sort l = Outcome.sort (Walk.outcomes twiceListed.fileSystem .default
        (.node (.ofString "r") .directory
          [.node (.ofString "r/b") (.unstatable MemoryTree.missing) [],
            .node (.ofString "r/a") (.unstatable "denied") [],
            .node (.ofString "r/a") (.unstatable "denied") []])) :=
  have hVisit : Visit.ofPath? twiceListed.fileSystem 2 (.ofString "r") = some
      (.node (.ofString "r") .directory
        [.node (.ofString "r/b") (.unstatable MemoryTree.missing) [],
          .node (.ofString "r/a") (.unstatable "denied") [],
          .node (.ofString "r/a") (.unstatable "denied") []]) := by rfl
  sort_eq_of_run listsNames_twiceListed hVisit rfl

end Task

end SnippetAudit
