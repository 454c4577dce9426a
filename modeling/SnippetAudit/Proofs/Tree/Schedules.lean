import Mathlib.Data.List.Perm.Basic
import SnippetAudit.Proofs.Tree.Tasks

/-!
# Every order of a walk

Whatever order the tasks of a walk take their steps in, the walk comes to an end, and what it asks
and what it finds are fixed by the paths of its visit tree: each path is asked once what it stands
for, each directory once for its names, each accepted file once for its text, and a path that
cannot be looked at costs one outcome and no more.

Results:
* `Step.pending`: a step takes from what is still to be asked just what it asks.
* `exists_step_or_over`, `acc_step_of_bound`: a task that is not over can go on, but not for ever.
* `perm_of_run`: every order of a walk ends, with the same questions and the same outcomes.
-/

namespace SnippetAudit

/-! ## Specification -/

namespace Walk

/-- The failure to tell what a path stands for. -/
def statFailure (fs : FileSystem) (path : Path) : List Outcome :=
  match fs.stat path with
  | .failure message => [.fileFailure path (.io message)]
  | _ => []

/-- The failure to list the names in a directory. -/
def listFailure (fs : FileSystem) (path : Path) : List Outcome :=
  match fs.stat path, fs.list path with
  | .directory, .error message => [.fileFailure path (.io message)]
  | _, _ => []

/-- The failure to read an accepted file. -/
def readFailure (fs : FileSystem) (config : Config) (path : Path) : List Outcome :=
  match fs.stat path, config.acceptsPath path, fs.read path with
  | .file, true, .error message => [.fileFailure path (.io message)]
  | _, _, _ => []

/-- The outcomes of an accepted file that is read. -/
def sourceOutcomes [Yaml.Wording] (fs : FileSystem) (config : Config) (path : Path) : List Outcome :=
  match fs.stat path, config.acceptsPath path, fs.read path with
  | .file, true, .ok text => Outcome.ofSource config path text
  | _, _, _ => []

/-- What is asked about one path. -/
def callsAt (fs : FileSystem) (config : Config) (path : Path) : List Call :=
  [.stat path] ++ (if fs.stat path = .directory then [.list path] else []) ++
    (if fs.stat path = .file ∧ config.acceptsPath path = true then [.read path] else [])

/-- What is asked in a visit. -/
def calls (fs : FileSystem) (config : Config) (v : Visit) : List Call :=
  v.paths.flatMap (callsAt fs config)

end Walk

namespace Task

/-- What is still to be asked by a task and those below it. No visit below it crashes. -/
inductive Pending (fs : FileSystem) (config : Config) : Task → List Call → Prop
  | waiting {path depth v} (h : Visit.ofPath? fs depth path = some v)
    (hCrash : Walk.crash? fs config v = none) :
    Pending fs config (.waiting path) (Walk.calls fs config v)
  | listing {path depth v todo} (hKind : fs.stat path = .directory)
    (h : Visit.ofPath? fs depth path = some v) (hCrash : Walk.crash? fs config v = none)
    (hTodo : Walk.calls fs config v = .stat path :: todo) : Pending fs config (.listing path) todo
  | reading {path} (hRead : ∀ message, fs.read path ≠ .crash message) :
    Pending fs config (.reading path) [.read path]
  | joining {children lists outcomes} (h : List.Forall₂ (Pending fs config) children lists) :
    Pending fs config (.joining children outcomes) lists.flatten
  | settled {outcomes} : Pending fs config (.settled outcomes) []

/-- The tasks that a task waits for. -/
def children : Task → List Task
  | .joining children _ => children
  | _ => []

mutual

/-- The tasks at and below a task, of which one that joins others counts for two. -/
def size : Task → ℕ
  | .joining children _ => 2 + sizeOfList children
  | _ => 1

/-- The size of tasks, one after another. -/
def sizeOfList : List Task → ℕ
  | [] => 0
  | t :: tasks => t.size + sizeOfList tasks

end

variable {fs : FileSystem} {config : Config}

/-! ## Steps -/

/-- A visit without a crash asks about its path, and then what the visits of the entries ask. -/
theorem calls_cases {depth : ℕ} {path : Path} {v : Visit}
    (h : Visit.ofPath? fs depth path = some v) (hCrash : Walk.crash? fs config v = none) :
    ∃ lists, Walk.calls fs config v = Walk.callsAt fs config path ++ lists.flatten ∧
      (∀ message, ¬ Walk.CrashesAt fs config path message) ∧
      List.Forall₂ (Pending fs config)
        ((Visit.entryNames fs path).map fun name => .waiting (path.join (.ofText name))) lists := by
  obtain ⟨_, entries, rfl, rfl, hNot, hEntries⟩ := Walk.crashFree_cases h hCrash
  refine ⟨entries.map (Walk.calls fs config), ?_, hNot, ?_⟩
  · rw [Walk.calls, Visit.paths_node, List.flatMap_cons, List.flatMap_assoc, ← List.flatMap_def]
    rfl
  · rw [List.forall₂_map_left_iff, List.forall₂_map_right_iff]
    apply hEntries.imp
    rintro name entry ⟨hVisit, hBelow⟩
    exact .waiting hVisit hBelow

/-- A visit without entries asks about its path alone. -/
theorem calls_of_leaf {depth : ℕ} {path : Path} {v : Visit}
    (h : Visit.ofPath? fs depth path = some v) (hCrash : Walk.crash? fs config v = none)
    (hLeaf : Visit.entryNames fs path = []) :
    Walk.calls fs config v = Walk.callsAt fs config path := by
  obtain ⟨lists, hCalls, _, hLists⟩ := calls_cases h hCrash
  rw [hLeaf, List.map_nil, List.forall₂_nil_left_iff] at hLists
  rw [hCalls, hLists, List.flatten_nil, List.append_nil]

/-- A step takes from what is still to be asked just what it asks. -/
theorem Step.pending [Yaml.Wording] {t t' : Task} {calls : List Call} (h : Step fs config t calls t')
    {todo : List Call} (hPending : Pending fs config t todo) :
    ∃ todo', Pending fs config t' todo' ∧ (calls ++ todo').Perm todo := by
  induction h generalizing todo with
  | crash h =>
    cases hPending with
    | waiting hVisit hCrash =>
      obtain ⟨_, _, hNot, _⟩ := calls_cases hVisit hCrash
      exact absurd (.inl h) (hNot _)
  | unstatable h =>
    cases hPending with
    | waiting hVisit hCrash =>
      rw [calls_of_leaf hVisit hCrash (by rw [Visit.entryNames, h]), Walk.callsAt, h]
      exact ⟨_, .settled, .rfl⟩
  | other h =>
    cases hPending with
    | waiting hVisit hCrash =>
      rw [calls_of_leaf hVisit hCrash (by rw [Visit.entryNames, h]), Walk.callsAt, h]
      exact ⟨_, .settled, .rfl⟩
  | refused h hName =>
    cases hPending with
    | waiting hVisit hCrash =>
      rw [calls_of_leaf hVisit hCrash (by rw [Visit.entryNames, h]), Walk.callsAt, h, hName]
      exact ⟨_, .settled, .rfl⟩
  | accepted h hName =>
    cases hPending with
    | waiting hVisit hCrash =>
      obtain ⟨_, _, hNot, _⟩ := calls_cases hVisit hCrash
      rw [calls_of_leaf hVisit hCrash (by rw [Visit.entryNames, h]), Walk.callsAt, h, hName]
      exact ⟨_, .reading fun _ hRead => hNot _ (.inr (.inr ⟨h, hName, hRead⟩)), .rfl⟩
  | directory h =>
    cases hPending with
    | waiting hVisit hCrash =>
      obtain ⟨lists, hCalls, _, _⟩ := calls_cases hVisit hCrash
      rw [Walk.callsAt, h] at hCalls
      exact ⟨_, .listing h hVisit hCrash hCalls, .of_eq hCalls.symm⟩
  | listingCrash h =>
    cases hPending with
    | listing hKind hVisit hCrash _ =>
      obtain ⟨_, _, hNot, _⟩ := calls_cases hVisit hCrash
      exact absurd (.inr (.inl ⟨hKind, h⟩)) (hNot _)
  | unlistable h =>
    cases hPending with
    | listing hKind hVisit hCrash hTodo =>
      rw [calls_of_leaf hVisit hCrash (by rw [Visit.entryNames, hKind, h]), Walk.callsAt,
        hKind] at hTodo
      cases hTodo
      exact ⟨_, .settled, .rfl⟩
  | spawn h =>
    cases hPending with
    | listing hKind hVisit hCrash hTodo =>
      obtain ⟨lists, hCalls, _, hLists⟩ := calls_cases hVisit hCrash
      rw [Visit.entryNames, hKind, h] at hLists
      rw [Walk.callsAt, hKind, hTodo] at hCalls
      cases hCalls
      exact ⟨_, .joining hLists, .rfl⟩
  | readingCrash h =>
    cases hPending with
    | reading hRead => exact absurd h (hRead _)
  | unreadable h =>
    cases hPending with
    | reading => exact ⟨_, .settled, .rfl⟩
  | checked h =>
    cases hPending with
    | reading => exact ⟨_, .settled, .rfl⟩
  | @child pre post t t' calls outcomes h ih =>
    cases hPending with
    | joining hLists =>
      obtain ⟨lists₁, list, lists₂, hPre, hChild, hPost, rfl⟩ :=
        forall₂_append_cons_left_iff.mp hLists
      obtain ⟨list', hChild', hPerm⟩ := ih hChild
      have hLists' := forall₂_append_cons_left_iff.mpr
        ⟨lists₁, list', lists₂, hPre, hChild', hPost, rfl⟩
      refine ⟨_, .joining hLists', ?_⟩
      rw [List.flatten_append, List.flatten_append, List.flatten_cons, List.flatten_cons]
      have hFront : (calls ++ (lists₁.flatten ++ (list' ++ lists₂.flatten))).Perm
          (lists₁.flatten ++ (calls ++ (list' ++ lists₂.flatten))) :=
        List.perm_append_comm_assoc _ _ _
      rw [← List.append_assoc calls list'] at hFront
      exact hFront.trans ((hPerm.append_right _).append_left _)
  | join =>
    cases hPending with
    | joining hLists =>
      obtain ⟨lists₁, list, lists₂, hPre, hChild, hPost, rfl⟩ :=
        forall₂_append_cons_left_iff.mp hLists
      cases hChild
      refine ⟨_, .joining (List.rel_append hPre hPost), ?_⟩
      rw [List.flatten_append, List.flatten_append, List.flatten_cons]
      exact .rfl
  | resume =>
    cases hPending with
    | joining hLists =>
      -- a crashed child has nothing pending
      obtain ⟨_, _, _, _, hChild, _, _⟩ := forall₂_append_cons_left_iff.mp hLists
      cases hChild
  | settle =>
    cases hPending with
    | joining hLists =>
      cases hLists
      exact ⟨_, .settled, .rfl⟩

/-- A run takes from what is still to be asked just what it asks. -/
theorem Run.pending [Yaml.Wording] {t t' : Task} {calls : List Call} (h : Run fs config t calls t')
    {todo : List Call} (hPending : Pending fs config t todo) :
    ∃ todo', Pending fs config t' todo' ∧ (calls ++ todo').Perm todo := by
  induction h generalizing todo with
  | refl => exact ⟨todo, hPending, .rfl⟩
  | @step _ _ _ calls calls' hStep _ ih =>
    obtain ⟨todo₁, hPending₁, hPerm₁⟩ := hStep.pending hPending
    obtain ⟨todo₂, hPending₂, hPerm₂⟩ := ih hPending₁
    refine ⟨todo₂, hPending₂, ?_⟩
    rw [List.append_assoc]
    exact (hPerm₂.append_left calls).trans hPerm₁

/-! ## Going on and coming to an end -/

/-- What holds of a task if it holds of the tasks that it waits for holds of every task. -/
theorem children_induction {P : Task → Prop}
    (h : ∀ t : Task, (∀ child ∈ t.children, P child) → P t) :
    ∀ t, P t
  | .joining children outcomes =>
    have hChildren : ∀ child ∈ children, P child := fun child _ => children_induction h child
    h _ hChildren
  | .waiting _ | .listing _ | .reading _ | .settled _ | .crashed _ => h _ (by simp [children])

/-- A task that has neither settled nor crashed can take a step. -/
theorem exists_step_or_over [Yaml.Wording] (fs : FileSystem) (config : Config) (t : Task) :
    (∃ l, t = .settled l) ∨ (∃ message, t = .crashed message) ∨
      ∃ calls t', Step fs config t calls t' := by
  induction t using children_induction with
  | h t ih =>
    cases t with
    | waiting path =>
      right; right
      cases hStat : fs.stat path with
      | crash message => exact ⟨_, _, .crash hStat⟩
      | failure message => exact ⟨_, _, .unstatable hStat⟩
      | other => exact ⟨_, _, .other hStat⟩
      | directory => exact ⟨_, _, .directory hStat⟩
      | file =>
        cases hName : config.acceptsPath path with
        | true => exact ⟨_, _, .accepted hStat hName⟩
        | false => exact ⟨_, _, .refused hStat hName⟩
    | listing path =>
      right; right
      cases hList : fs.list path with
      | crash message => exact ⟨_, _, .listingCrash hList⟩
      | error message => exact ⟨_, _, .unlistable hList⟩
      | ok names => exact ⟨_, _, .spawn hList⟩
    | reading path =>
      right; right
      cases hRead : fs.read path with
      | crash message => exact ⟨_, _, .readingCrash hRead⟩
      | error message => exact ⟨_, _, .unreadable hRead⟩
      | ok text => exact ⟨_, _, .checked hRead⟩
    | joining children outcomes =>
      right; right
      -- whatever has become of the first child can be taken up next
      cases children with
      | nil => exact ⟨_, _, .settle⟩
      | cons child children =>
        rcases ih child List.mem_cons_self with ⟨l, rfl⟩ | ⟨message, rfl⟩ | ⟨calls, child', hStep⟩
        · have hJoin : Step fs config (.joining ([] ++ .settled l :: children) outcomes) []
              (.joining ([] ++ children) (outcomes ++ l)) := .join
          exact ⟨_, _, hJoin⟩
        · have hResume : Step fs config (.joining ([] ++ .crashed message :: children) outcomes) []
              (.crashed message) := .resume
          exact ⟨_, _, hResume⟩
        · have hChildStep : Step fs config (.joining ([] ++ child :: children) outcomes) calls
              (.joining ([] ++ child' :: children) outcomes) := .child hStep
          exact ⟨_, _, hChildStep⟩
    | settled l => exact .inl ⟨l, rfl⟩
    | crashed message => exact .inr (.inl ⟨message, rfl⟩)

/-- A task below which nothing crashes can take a step, unless it has settled. -/
theorem exists_step [Yaml.Wording] {t : Task} {todo : List Call} (hPending : Pending fs config t todo) :
    (∃ l, t = .settled l) ∨ ∃ calls t', Step fs config t calls t' := by
  rcases exists_step_or_over fs config t with hSettled | ⟨message, rfl⟩ | hStep
  · exact .inl hSettled
  · cases hPending
  · exact .inr hStep

theorem sizeOfList_append (tasks tasks' : List Task) :
    sizeOfList (tasks ++ tasks') = sizeOfList tasks + sizeOfList tasks' := by
  induction tasks with
  | nil => rw [List.nil_append, sizeOfList, Nat.zero_add]
  | cons t tasks ih => rw [List.cons_append, sizeOfList, ih, sizeOfList, Nat.add_assoc]

/-- A step in which nothing is asked leaves fewer tasks. -/
theorem Step.size_lt [Yaml.Wording] {t t' : Task} {calls : List Call} (h : Step fs config t calls t')
    (hCalls : calls = []) : t'.size < t.size := by
  induction h with
  | child _ ih =>
    have hChild := ih hCalls
    simp only [size, sizeOfList_append, sizeOfList]
    omega
  | join =>
    simp only [size, sizeOfList_append, sizeOfList]
    omega
  | resume => simp only [size]; omega
  | settle => simp only [size]; omega
  | _ => cases hCalls

/-- The steps of a task come to an end if each of them takes what it asks from a bound on what is asked. -/
theorem acc_step_of_bound [Yaml.Wording] {B : Task → ℕ → Prop}
    (hStep : ∀ t t' calls n, Step fs config t calls t' → B t n →
      ∃ n', B t' n' ∧ calls.length + n' ≤ n)
    {t : Task} {n : ℕ} (hBound : B t n) : Acc (fun t' t => ∃ calls, Step fs config t calls t') t := by
  -- a step either lowers the bound, or it leaves fewer tasks
  induction n using Nat.strong_induction_on generalizing t with
  | _ n ihBound =>
    induction hSize : t.size using Nat.strong_induction_on generalizing t with
    | _ m ihSize =>
      constructor
      rintro t' ⟨calls, h⟩
      obtain ⟨n', hBound', hLe⟩ := hStep t t' calls n h hBound
      rcases Nat.lt_or_eq_of_le (show n' ≤ n by omega) with hLt | rfl
      · exact ihBound n' hLt hBound'
      · have hNone : calls = [] := List.eq_nil_of_length_eq_zero (by omega)
        have hLt := h.size_lt hNone
        exact ihSize t'.size (by omega) hBound' rfl

/-- The steps of a task come to an end. -/
theorem acc_step [Yaml.Wording] {t : Task} {todo : List Call} (hPending : Pending fs config t todo) :
    Acc (fun t' t => ∃ calls, Step fs config t calls t') t := by
  refine acc_step_of_bound (B := fun t n => ∃ todo, Pending fs config t todo ∧ todo.length = n) ?_
    ⟨todo, hPending, rfl⟩
  rintro t t' calls n hStep ⟨todo, hPending, rfl⟩
  obtain ⟨todo', hPending', hPerm⟩ := hStep.pending hPending
  have hLength := hPerm.length_eq
  rw [List.length_append] at hLength
  exact ⟨todo'.length, ⟨todo', hPending', rfl⟩, Nat.le_of_eq hLength⟩

/-! ## Every order -/

/-- What is found at a path, by the answers that were given. -/
theorem outcomesAt_discover [Yaml.Wording] (fs : FileSystem) (config : Config) (path : Path) :
    Walk.outcomesAt fs config path (Visit.discover fs path) =
      Walk.statFailure fs path ++ Walk.listFailure fs path ++ Walk.readFailure fs config path ++
        Walk.sourceOutcomes fs config path := by
  unfold Visit.discover Walk.statFailure Walk.listFailure Walk.readFailure Walk.sourceOutcomes
  cases fs.stat path with
  | directory => cases fs.list path <;> simp [Walk.outcomesAt]
  | file =>
    cases hName : config.acceptsPath path <;> cases hRead : fs.read path <;>
      simp [Walk.outcomesAt, hName, hRead]
  | _ => simp [Walk.outcomesAt]

/-- The outcomes of a visit, sorted by what became of the questions. -/
theorem outcomes_perm [Yaml.Wording] (config : Config) {depth : ℕ} {root : Path} {v : Visit}
    (h : Visit.ofPath? fs depth root = some v) :
    (Walk.outcomes fs config v).Perm
      (v.paths.flatMap (Walk.statFailure fs) ++ v.paths.flatMap (Walk.listFailure fs) ++
        v.paths.flatMap (Walk.readFailure fs config) ++
        v.paths.flatMap (Walk.sourceOutcomes fs config)) := by
  have hAt : Walk.outcomes fs config v = v.paths.flatMap fun path =>
      Walk.statFailure fs path ++ Walk.listFailure fs path ++ Walk.readFailure fs config path ++
        Walk.sourceOutcomes fs config path := by
    rw [Walk.outcomes_eq_flatMap_paths config h]
    simp only [outcomesAt_discover]
  rw [hAt]
  refine (List.flatMap_append_perm _ _ _).symm.trans (.append_right _ ?_)
  refine (List.flatMap_append_perm _ _ _).symm.trans (.append_right _ ?_)
  exact (List.flatMap_append_perm _ _ _).symm

/-- The questions of a visit, sorted by what is asked. -/
theorem calls_perm (fs : FileSystem) (config : Config) (v : Visit) :
    (Walk.calls fs config v).Perm
      (v.paths.map .stat ++ (v.paths.filter fun path => fs.stat path = .directory).map .list ++
        (v.paths.filter fun path => fs.stat path = .file ∧ config.acceptsPath path = true).map
          .read) := by
  rw [← flatMap_ite_eq_map_filter, ← flatMap_ite_eq_map_filter, List.map_eq_flatMap]
  refine (List.flatMap_append_perm _ _ _).symm.trans (.append_right _ ?_)
  exact (List.flatMap_append_perm _ _ _).symm

/-- Every order of the steps of a walk that crashes nowhere comes to an end, and only with the root
    settled. Its outcomes are then one failure for each path of the visit tree of which it could not be
    told what it stands for, for each directory that could not be listed and for each accepted
    file that could not be read, and what the blocks of the accepted files that were read give. It
    has asked once for each path what it stands for, once for each directory which names it has and
    once for each accepted file what its text is. -/
theorem perm_of_run [Yaml.Wording] {depth : ℕ} {root : Path} {v : Visit}
    (hVisit : Visit.ofPath? fs depth root = some v) (hCrash : Walk.crash? fs config v = none) :
    Acc (fun t' t => ∃ calls, Step fs config t calls t') (.waiting root) ∧
    (∀ calls t, Run fs config (.waiting root) calls t →
      (∃ l, t = .settled l) ∨ ∃ calls' t', Step fs config t calls' t') ∧
    ∀ calls l, Run fs config (.waiting root) calls (.settled l) →
      l.Perm
        (v.paths.flatMap (Walk.statFailure fs) ++ v.paths.flatMap (Walk.listFailure fs) ++
          v.paths.flatMap (Walk.readFailure fs config) ++
          v.paths.flatMap (Walk.sourceOutcomes fs config)) ∧
      calls.Perm
        (v.paths.map .stat ++ (v.paths.filter fun path => fs.stat path = .directory).map .list ++
          (v.paths.filter fun path => fs.stat path = .file ∧ config.acceptsPath path = true).map
            .read) := by
  have hPending : Pending fs config (.waiting root) (Walk.calls fs config v) :=
    .waiting hVisit hCrash
  refine ⟨acc_step hPending, ?_, ?_⟩
  · intro calls t hRun
    obtain ⟨todo, hPending', _⟩ := hRun.pending hPending
    exact exists_step hPending'
  · intro calls l hRun
    constructor
    · exact (hRun.outcomes_perm hVisit hCrash).trans (outcomes_perm config hVisit)
    · obtain ⟨todo, hPending', hPerm⟩ := hRun.pending hPending
      cases hPending'
      rw [List.append_nil] at hPerm
      exact hPerm.trans (calls_perm fs config v)

/-- A directory with one entry of each kind, of which one file is listed twice. -/
def assorted : MemoryTree :=
  .ofList [(.ofString "r", .directory
      [['d'], ['u'], ['a', '.', 'r', 'e', 'g', 'o'], ['b', '.', 'r', 'e', 'g', 'o'], ['c'], ['s'],
        ['x'], ['a', '.', 'r', 'e', 'g', 'o']]),
    (.ofString "r/d", .directory []), (.ofString "r/u", .unlistable "closed"),
    (.ofString "r/a.rego", .file ['#', ' ', 'a']), (.ofString "r/b.rego", .unreadable "torn"),
    (.ofString "r/c", .file []), (.ofString "r/s", .other)]

/-- The visit of `assorted`. -/
def assortedVisit : Visit :=
  .node (.ofString "r") .directory
    [.node (.ofString "r/d") .directory [], .node (.ofString "r/u") (.unlistable "closed") [],
      .node (.ofString "r/a.rego") .file [], .node (.ofString "r/b.rego") .file [],
      .node (.ofString "r/c") .file [], .node (.ofString "r/s") .other [],
      .node (.ofString "r/x") (.unstatable MemoryTree.missing) [],
      .node (.ofString "r/a.rego") .file []]

/-- All orders of a walk over `assorted`. -/
theorem perm_of_run_assorted :
    Acc (fun t' t => ∃ calls, Step assorted.fileSystem .default t calls t')
      (.waiting (.ofString "r")) ∧
    (∀ calls t, Run assorted.fileSystem .default (.waiting (.ofString "r")) calls t →
      (∃ l, t = .settled l) ∨ ∃ calls' t', Step assorted.fileSystem .default t calls' t') ∧
    ∀ calls l, Run assorted.fileSystem .default (.waiting (.ofString "r")) calls (.settled l) →
      List.Perm l
        ([Outcome.fileFailure (.ofString "r/x") (.io MemoryTree.missing)] ++
          [Outcome.fileFailure (.ofString "r/u") (.io "closed")] ++
          [Outcome.fileFailure (.ofString "r/b.rego") (.io "torn")] ++
          (Outcome.ofSource .default (.ofString "r/a.rego") ['#', ' ', 'a'] ++
            Outcome.ofSource .default (.ofString "r/a.rego") ['#', ' ', 'a'])) ∧
      List.Perm calls
        ((["r", "r/d", "r/u", "r/a.rego", "r/b.rego", "r/c", "r/s", "r/x", "r/a.rego"].map
            fun path => Call.stat (.ofString path)) ++
          (["r", "r/d", "r/u"].map fun path => Call.list (.ofString path)) ++
          (["r/a.rego", "r/b.rego", "r/a.rego"].map fun path => Call.read (.ofString path))) := by
  have hVisit : Visit.ofPath? assorted.fileSystem 2 (.ofString "r") = some assortedVisit := by rfl
  have hCrash : Walk.crash? assorted.fileSystem .default assortedVisit = none := by decide +kernel
  have hDirectories : (assortedVisit.paths.filter fun path =>
      assorted.fileSystem.stat path = .directory) =
        ["r", "r/d", "r/u"].map Path.ofString := by decide +kernel
  have hFiles : (assortedVisit.paths.filter fun path =>
      assorted.fileSystem.stat path = .file ∧ Config.default.acceptsPath path = true) =
        ["r/a.rego", "r/b.rego", "r/a.rego"].map Path.ofString := by decide +kernel
  have hSources : assortedVisit.paths.flatMap (Walk.sourceOutcomes assorted.fileSystem .default) =
      Outcome.ofSource .default (.ofString "r/a.rego") ['#', ' ', 'a'] ++
        Outcome.ofSource .default (.ofString "r/a.rego") ['#', ' ', 'a'] := by decide +kernel
  have hRun := perm_of_run hVisit hCrash
  rw [hDirectories, hFiles, hSources] at hRun
  exact hRun

end Task

end SnippetAudit
