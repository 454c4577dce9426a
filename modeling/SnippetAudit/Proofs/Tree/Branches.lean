import SnippetAudit.Proofs.Tree.Tasks

/-!
# Tasks with what they started

In `Task` a task forgets what it has joined, and what it leaves behind when it crashes. Here every
task that was ever started is kept below the one that started it. A task that is left behind may
go on until it is abandoned.

A task that has settled has joined all that it started, and so has each of these. A task that
crashed never settles, and neither does any task above it: its crash travels up, unless another
one is quicker.

Results:
* `Step.toTask`: a step is a step of `Task`, or does not show there.
* `Step.follows`: a step keeps a task and all below it on the visit tree.
* `exists_step_of_follows`: what is under way can go on.
* `tasks_of_joined`: below a task that is joined every task is joined, one for each visit.
-/

namespace SnippetAudit

/-- How far the visit of a path has come. -/
inductive Stage where
  /-- Nothing has been asked about the path. -/
  | waiting
  /-- The path is a directory. -/
  | listing
  /-- The path is a file to be read. -/
  | reading
  /-- The entries have their tasks, and those that are joined have these outcomes. -/
  | joining (outcomes : List Outcome)
  | settled (outcomes : List Outcome)
  /-- The outcomes have been passed on. -/
  | joined (outcomes : List Outcome)
  | crashed (message : String)
  /-- Nobody waits for the task any more, and it has been stopped. -/
  | abandoned
  deriving DecidableEq

namespace Stage

/-- The next stage of a task that goes on by itself, and the paths for which it starts tasks. -/
def next? [Yaml.Wording] (fs : FileSystem) (config : Config) (path : Path) :
    Stage → Option (Stage × List Path)
  | waiting =>
    match fs.stat path with
    | .crash message => some (crashed message, [])
    | .failure message => some (settled [.fileFailure path (.io message)], [])
    | .other => some (settled [], [])
    | .file => some (if config.acceptsPath path then reading else settled [], [])
    | .directory => some (listing, [])
  | listing =>
    match fs.list path with
    | .crash message => some (crashed message, [])
    | .error message => some (settled [.fileFailure path (.io message)], [])
    | .ok names => some (joining [], names.map fun name => path.join (.ofText name))
  | reading =>
    match fs.read path with
    | .crash message => some (crashed message, [])
    | .error message => some (settled [.fileFailure path (.io message)], [])
    | .ok text => some (settled (Outcome.ofSource config path text), [])
  | _ => none

/-- Whether a task is under way. -/
def isLive : Stage → Bool
  | waiting | listing | reading | joining _ => true
  | _ => false

/-- Whether a task has settled. -/
def isDone : Stage → Bool
  | settled _ | joined _ => true
  | _ => false

/-- Whether the outcomes of a task have been passed on. -/
def isJoined : Stage → Bool
  | joined _ => true
  | _ => false

/-- Whether a task has let go of the tasks that it has started. -/
def letsGo : Stage → Bool
  | crashed _ | abandoned => true
  | _ => false

/-- A task that has settled neither goes on nor has it let go of anything. -/
theorem of_isDone {stage : Stage} (h : stage.isDone = true) :
    stage.isLive = false ∧ stage.letsGo = false := by
  cases stage with
  | settled => exact ⟨rfl, rfl⟩
  | joined => exact ⟨rfl, rfl⟩
  | _ => cases h

theorem isDone_of_isJoined {stage : Stage} (h : stage.isJoined = true) : stage.isDone = true := by
  cases stage with
  | joined => rfl
  | _ => cases h

end Stage

/-- A task with all tasks that it has started. -/
inductive Branch where
  | node (path : Path) (stage : Stage) (started : List Branch)

namespace Branch

/-- A task about to visit a path. -/
def start (path : Path) : Branch := .node path .waiting []

/-- How far the task has come. -/
def stage : Branch → Stage
  | .node _ stage _ => stage

/-- The tasks that the task has started. -/
def started : Branch → List Branch
  | .node _ _ started => started

mutual

/-- The paths and stages of the task and of all tasks below it. -/
def tasks : Branch → List (Path × Stage)
  | .node path stage started => (path, stage) :: tasksOfList started

/-- The paths and stages of tasks and of all tasks below them. -/
def tasksOfList : List Branch → List (Path × Stage)
  | [] => []
  | b :: branches => b.tasks ++ tasksOfList branches

end

/-- One step of a task or of one below it. -/
inductive Step [Yaml.Wording] (fs : FileSystem) (config : Config) : Branch → Branch → Prop
  /-- A task goes on by itself. -/
  | ask {path stage stage' paths} (h : stage.next? fs config path = some (stage', paths)) :
    Step fs config (.node path stage []) (.node path stage' (paths.map start))
  /-- A task below goes on, also one that nobody waits for. -/
  | inside {path stage pre b b' post} (h : Step fs config b b') :
    Step fs config (.node path stage (pre ++ b :: post)) (.node path stage (pre ++ b' :: post))
  | join {path outcomes pre q joined started post} :
    Step fs config
      (.node path (.joining outcomes) (pre ++ .node q (.settled joined) started :: post))
      (.node path (.joining (outcomes ++ joined)) (pre ++ .node q (.joined joined) started :: post))
  | settle {path outcomes started} (h : ∀ b ∈ started, b.stage.isJoined = true) :
    Step fs config (.node path (.joining outcomes) started) (.node path (.settled outcomes) started)
  /-- The crash of a task is the crash of the task that joins it. -/
  | resume {path outcomes pre q message started post} :
    Step fs config
      (.node path (.joining outcomes) (pre ++ .node q (.crashed message) started :: post))
      (.node path (.crashed message) (pre ++ .node q (.crashed message) started :: post))
  | abandon {path stage pre q stage' started post} (h : stage.letsGo = true)
    (hLive : stage'.isLive = true) :
    Step fs config (.node path stage (pre ++ .node q stage' started :: post))
      (.node path stage (pre ++ .node q .abandoned started :: post))

mutual

/-- The task, where it has forgotten what it has joined or let go. -/
def toTask : Branch → Task
  | .node path .waiting _ => .waiting path
  | .node path .listing _ => .listing path
  | .node path .reading _ => .reading path
  | .node _ (.joining outcomes) started => .joining (toTasks started) outcomes
  | .node _ (.settled outcomes) _ | .node _ (.joined outcomes) _ => .settled outcomes
  | .node _ (.crashed message) _ => .crashed message
  -- nobody joins what is abandoned, so nothing depends on this task
  | .node path .abandoned _ => .waiting path

/-- The tasks that are not joined. -/
def toTasks : List Branch → List Task
  | [] => []
  | b :: branches => if b.stage.isJoined then toTasks branches else b.toTask :: toTasks branches

end

/-- A task with what it has started is where it can be on a visit tree. Of a task that has let go of
    what it has started nothing more is said. -/
inductive Follows (fs : FileSystem) (config : Config) : Branch → Visit → Prop
  | waiting {path depth v} (h : Visit.ofPath? fs depth path = some v) :
    Follows fs config (.node path .waiting []) v
  | listing {path depth v} (hKind : fs.stat path = .directory)
    (h : Visit.ofPath? fs depth path = some v) : Follows fs config (.node path .listing []) v
  | reading {path depth v} (hKind : fs.stat path = .file) (hName : config.acceptsPath path = true)
    (h : Visit.ofPath? fs depth path = some v) : Follows fs config (.node path .reading []) v
  | joining {path outcomes started entries} (h : List.Forall₂ (Follows fs config) started entries)
    (hKept : ∀ b ∈ started, b.stage ≠ .abandoned) :
    Follows fs config (.node path (.joining outcomes) started) (.node path .directory entries)
  | done {path stage started found entries} (hDone : stage.isDone = true)
    (hFound : Walk.crashAt? fs config path found = none)
    (h : List.Forall₂ (Follows fs config) started entries)
    (hJoined : ∀ b ∈ started, b.stage.isJoined = true) :
    Follows fs config (.node path stage started) (.node path found entries)
  | crashed {path message started v q} (h : q ∈ v.paths) (hCrash : Walk.CrashesAt fs config q message) :
    Follows fs config (.node path (.crashed message) started) v
  | abandoned {path started v} : Follows fs config (.node path .abandoned started) v

end Branch

variable {fs : FileSystem} {config : Config}

namespace Branch

/-! ## Branches -/

/-- What holds of a task if it holds of the tasks that it has started holds of every task. -/
theorem started_induction {P : Branch → Prop} (h : ∀ b : Branch, (∀ c ∈ b.started, P c) → P b) :
    ∀ b, P b
  | .node path stage started =>
    have hStarted : ∀ c ∈ started, P c := fun c _ => started_induction h c
    h _ hStarted

theorem tasksOfList_eq_flatMap (branches : List Branch) :
    tasksOfList branches = branches.flatMap tasks := by
  induction branches with
  | nil => rfl
  | cons b branches ih => rw [tasksOfList, ih, List.flatMap_cons]

theorem tasks_node (path : Path) (stage : Stage) (started : List Branch) :
    (node path stage started).tasks = (path, stage) :: started.flatMap tasks := by
  rw [tasks, tasksOfList_eq_flatMap]

theorem isLive_of_next? [Yaml.Wording] {path : Path} {stage stage' : Stage} {paths : List Path}
    (h : stage.next? fs config path = some (stage', paths)) :
    stage.isLive = true ∧ stage' ≠ .abandoned ∧ stage'.isJoined = false := by
  unfold Stage.next? at h
  split at h
  · split at h <;> cases h
    · exact ⟨rfl, by simp, rfl⟩
    · exact ⟨rfl, by simp, rfl⟩
    · exact ⟨rfl, by simp, rfl⟩
    · split <;> exact ⟨rfl, by simp, rfl⟩
    · exact ⟨rfl, by simp, rfl⟩
  · split at h <;> cases h <;> exact ⟨rfl, by simp, rfl⟩
  · split at h <;> cases h <;> exact ⟨rfl, by simp, rfl⟩
  · cases h

/-- A task that is under way goes on by itself, unless it joins others. -/
theorem exists_next? [Yaml.Wording] (fs : FileSystem) (config : Config) (path : Path) {stage : Stage}
    (hLive : stage.isLive = true) (hNot : ∀ outcomes, stage ≠ .joining outcomes) :
    ∃ next, stage.next? fs config path = some next := by
  unfold Stage.next?
  cases stage with
  | waiting => cases fs.stat path <;> exact ⟨_, rfl⟩
  | listing => cases fs.list path <;> exact ⟨_, rfl⟩
  | reading => cases fs.read path <;> exact ⟨_, rfl⟩
  | joining outcomes => exact absurd rfl (hNot outcomes)
  | _ => cases hLive

/-- A step leaves a task in its stage, or takes it from where it is under way to where it is neither
    abandoned nor joined. -/
theorem Step.stage_cases [Yaml.Wording] {b b' : Branch} (h : Step fs config b b') :
    b'.stage = b.stage ∨
      b.stage.isLive = true ∧ b'.stage ≠ .abandoned ∧ b'.stage.isJoined = false := by
  cases h with
  | ask h => exact .inr (isLive_of_next? h)
  | inside => exact .inl rfl
  | join => exact .inr ⟨rfl, by simp [stage], rfl⟩
  | settle => exact .inr ⟨rfl, by simp [stage], rfl⟩
  | resume => exact .inr ⟨rfl, by simp [stage], rfl⟩
  | abandon => exact .inl rfl

/-- Whether a task is joined is not changed by its own steps. -/
theorem Step.isJoined_eq [Yaml.Wording] {b b' : Branch} (h : Step fs config b b') :
    b'.stage.isJoined = b.stage.isJoined := by
  rcases h.stage_cases with hSame | ⟨hLive, _, hNot⟩
  · rw [hSame]
  · rw [hNot]
    cases hStage : b.stage <;> rw [hStage] at hLive <;> first | rfl | cases hLive

/-! ## Tasks without what is joined -/

theorem toTasks_append (branches branches' : List Branch) :
    toTasks (branches ++ branches') = toTasks branches ++ toTasks branches' := by
  induction branches with
  | nil => rfl
  | cons b branches ih =>
    rw [List.cons_append, toTasks, toTasks, ih]
    split
    · rfl
    · rw [List.cons_append]

theorem toTasks_start (paths : List Path) : toTasks (paths.map start) = paths.map .waiting := by
  induction paths with
  | nil => rfl
  | cons path paths ih =>
    rw [List.map_cons, toTasks, ih]
    rfl

theorem toTasks_of_joined {branches : List Branch} (h : ∀ b ∈ branches, b.stage.isJoined = true) :
    toTasks branches = [] := by
  induction branches with
  | nil => rfl
  | cons b branches ih =>
    rw [toTasks, if_pos (h b List.mem_cons_self), ih fun c hc => h c (List.mem_cons_of_mem _ hc)]

/-- Where a task goes on by itself, so does the task without what is joined. -/
theorem toTask_of_next? [Yaml.Wording] {path : Path} {stage stage' : Stage} {paths : List Path}
    (h : stage.next? fs config path = some (stage', paths)) :
    ∃ calls, Task.Step fs config (node path stage []).toTask calls
      (node path stage' (paths.map start)).toTask := by
  unfold Stage.next? at h
  split at h
  · split at h <;> cases h
    · exact ⟨_, .crash ‹_›⟩
    · exact ⟨_, .unstatable ‹_›⟩
    · exact ⟨_, .other ‹_›⟩
    · split
      · exact ⟨_, .accepted ‹_› ‹_›⟩
      · exact ⟨_, .refused ‹_› (Bool.eq_false_iff.mpr ‹_›)⟩
    · exact ⟨_, .directory ‹_›⟩
  · split at h <;> cases h
    · exact ⟨_, .listingCrash ‹_›⟩
    · exact ⟨_, .unlistable ‹_›⟩
    · rename_i names hList
      refine ⟨[.list path], ?_⟩
      have hSpawn : Task.Step fs config (.listing path) [.list path]
          (.joining (names.map fun name => .waiting (path.join (.ofText name))) []) := .spawn hList
      rw [toTask, toTask, toTasks_start, List.map_map]
      exact hSpawn
  · split at h <;> cases h
    · exact ⟨_, .readingCrash ‹_›⟩
    · exact ⟨_, .unreadable ‹_›⟩
    · exact ⟨_, .checked ‹_›⟩
  · cases h

/-- A step of a task is a step of the task without what is joined, or does not show there. -/
theorem Step.toTask [Yaml.Wording] {b b' : Branch} (h : Step fs config b b') :
    b'.toTask = b.toTask ∨ ∃ calls, Task.Step fs config b.toTask calls b'.toTask := by
  induction h with
  | ask h => exact .inr (toTask_of_next? h)
  | @inside path stage pre b b' post h ih =>
    cases stage with
    | joining outcomes =>
      have hJoined := h.isJoined_eq
      simp only [Branch.toTask, toTasks_append, toTasks, hJoined]
      cases hStage : b.stage.isJoined with
      | true => exact .inl rfl
      | false =>
        rcases ih with hSame | ⟨calls, hStep⟩
        · rw [hSame]
          exact .inl rfl
        · exact .inr ⟨calls, .child hStep⟩
    | _ => exact .inl rfl
  | join =>
    right
    refine ⟨[], ?_⟩
    simp only [Branch.toTask, toTasks_append, toTasks, stage, Stage.isJoined]
    exact .join
  | settle h =>
    right
    refine ⟨[], ?_⟩
    rw [Branch.toTask, Branch.toTask, toTasks_of_joined h]
    exact .settle
  | resume =>
    right
    refine ⟨[], ?_⟩
    simp only [Branch.toTask, toTasks_append, toTasks, stage, Stage.isJoined]
    exact .resume
  | @abandon path stage pre q stage' started post h _ =>
    cases stage with
    | crashed message => exact .inl rfl
    | abandoned => exact .inl rfl
    | _ => cases h

/-! ## On the visit tree -/

/-- A task that has nothing to start is done when it settles. -/
theorem follows_of_leaf {depth : ℕ} {path : Path} {v : Visit} {found : Discovery}
    (hVisit : Visit.ofPath? fs depth path = some v) (hFound : Visit.discover fs path = found)
    (hLeaf : found ≠ .directory) (hCrash : Walk.crashAt? fs config path found = none)
    (outcomes : List Outcome) : Follows fs config (.node path (.settled outcomes) []) v := by
  cases depth with
  | zero => cases hVisit
  | succ depth =>
    obtain ⟨entries, rfl, hEntries⟩ := Visit.ofPath?_succ_eq_some_iff.mp hVisit
    rw [Visit.entryNames_of_discover hFound hLeaf, List.forall₂_nil_left_iff] at hEntries
    rw [hEntries, hFound]
    exact .done rfl hCrash .nil (by simp)

/-- A task whose question crashes stays on the visit tree. -/
theorem follows_of_crashesAt {depth : ℕ} {path : Path} {v : Visit} {message : String}
    (hVisit : Visit.ofPath? fs depth path = some v) (hCrash : Walk.CrashesAt fs config path message) :
    Follows fs config (.node path (.crashed message) []) v :=
  .crashed (List.mem_map.mpr ⟨_, Visit.root_mem_nodes hVisit, rfl⟩) hCrash

theorem follows_of_waiting [Yaml.Wording] {depth : ℕ} {path : Path} {stage : Stage}
    {paths : List Path} {v : Visit} (hVisit : Visit.ofPath? fs depth path = some v)
    (h : Stage.waiting.next? fs config path = some (stage, paths)) :
    Follows fs config (.node path stage (paths.map start)) v := by
  unfold Stage.next? at h
  dsimp only at h
  split at h <;> rename_i hStat <;> cases h
  · exact follows_of_crashesAt hVisit (.inl hStat)
  · rename_i message
    have hFound : Visit.discover fs path = .unstatable message := by rw [Visit.discover, hStat]
    exact follows_of_leaf hVisit hFound (by simp) rfl _
  · have hFound : Visit.discover fs path = .other := by rw [Visit.discover, hStat]
    exact follows_of_leaf hVisit hFound (by simp) rfl _
  · have hFound : Visit.discover fs path = .file := by rw [Visit.discover, hStat]
    split <;> rename_i hName
    · exact .reading hStat hName hVisit
    · have hNone : Walk.crashAt? fs config path .file = none := by rw [Walk.crashAt?, if_neg hName]
      exact follows_of_leaf hVisit hFound (by simp) hNone _
  · exact .listing hStat hVisit

theorem follows_of_listing [Yaml.Wording] {depth : ℕ} {path : Path} {stage : Stage}
    {paths : List Path} {v : Visit} (hKind : fs.stat path = .directory)
    (hVisit : Visit.ofPath? fs depth path = some v)
    (h : Stage.listing.next? fs config path = some (stage, paths)) :
    Follows fs config (.node path stage (paths.map start)) v := by
  unfold Stage.next? at h
  dsimp only at h
  split at h <;> rename_i hList <;> cases h
  · exact follows_of_crashesAt hVisit (.inr (.inl ⟨hKind, hList⟩))
  · rename_i message
    have hFound : Visit.discover fs path = .unlistable message := by
      rw [Visit.discover, hKind]
      simp only [hList]
    exact follows_of_leaf hVisit hFound (by simp) rfl _
  · rename_i names
    cases depth with
    | zero => cases hVisit
    | succ depth =>
      obtain ⟨entries, rfl, hEntries⟩ := Visit.ofPath?_succ_eq_some_iff.mp hVisit
      have hFound : Visit.discover fs path = .directory := by
        rw [Visit.discover, hKind]
        simp only [hList]
      rw [Visit.entryNames, hKind, hList] at hEntries
      rw [hFound, List.map_map]
      refine .joining ?_ ?_
      · rw [List.forall₂_map_left_iff]
        apply hEntries.imp
        intro name entry hEntry
        exact .waiting hEntry
      · intro b hb
        obtain ⟨name, _, rfl⟩ := List.mem_map.mp hb
        simp [start, stage]

theorem follows_of_reading [Yaml.Wording] {depth : ℕ} {path : Path} {stage : Stage}
    {paths : List Path} {v : Visit} (hKind : fs.stat path = .file)
    (hName : config.acceptsPath path = true) (hVisit : Visit.ofPath? fs depth path = some v)
    (h : Stage.reading.next? fs config path = some (stage, paths)) :
    Follows fs config (.node path stage (paths.map start)) v := by
  have hFound : Visit.discover fs path = .file := by rw [Visit.discover, hKind]
  unfold Stage.next? at h
  dsimp only at h
  split at h <;> rename_i hRead <;> cases h
  · exact follows_of_crashesAt hVisit (.inr (.inr ⟨hKind, hName, hRead⟩))
  all_goals
    have hNone : Walk.crashAt? fs config path .file = none := by
      rw [Walk.crashAt?, if_pos hName, hRead]
    exact follows_of_leaf hVisit hFound (by simp) hNone _

/-- A task that goes on by itself stays on the visit tree. -/
theorem follows_of_next? [Yaml.Wording] {path : Path} {stage stage' : Stage} {paths : List Path}
    {v : Visit} (h : stage.next? fs config path = some (stage', paths))
    (hFollows : Follows fs config (.node path stage []) v) :
    Follows fs config (.node path stage' (paths.map start)) v := by
  cases hFollows with
  | waiting hVisit => exact follows_of_waiting hVisit h
  | listing hKind hVisit => exact follows_of_listing hKind hVisit h
  | reading hKind hName hVisit => exact follows_of_reading hKind hName hVisit h
  | done hDone =>
    have hNotLive := (Stage.of_isDone hDone).1
    rw [(isLive_of_next? h).1] at hNotLive
    cases hNotLive
  | _ => cases h

/-- A task that is done has joined what it has started. -/
theorem Follows.of_done {path : Path} {stage : Stage} {started : List Branch} {v : Visit}
    (h : Follows fs config (.node path stage started) v) (hDone : stage.isDone = true) :
    ∃ found entries, v = .node path found entries ∧ Walk.crashAt? fs config path found = none ∧
      List.Forall₂ (Follows fs config) started entries ∧ ∀ b ∈ started, b.stage.isJoined = true := by
  cases h with
  | done _ hFound h hJoined => exact ⟨_, _, rfl, hFound, h, hJoined⟩
  | _ => cases hDone

/-- A task that is done stands still, and so do all that it has started. -/
theorem not_step_of_done [Yaml.Wording] {b b' : Branch} {v : Visit} (hFollows : Follows fs config b v)
    (hDone : b.stage.isDone = true) : ¬ Step fs config b b' := by
  intro hStep
  induction hStep generalizing v with
  | @ask path stage stage' paths h =>
    have hNotLive : stage.isLive = false := (Stage.of_isDone hDone).1
    rw [(isLive_of_next? h).1] at hNotLive
    cases hNotLive
  | @inside path stage pre b b' post h ih =>
    obtain ⟨found, entries, rfl, _, hStarted, hJoined⟩ := hFollows.of_done hDone
    obtain ⟨_, entry, _, _, hEntry, _⟩ := forall₂_append_cons_left_iff.mp hStarted
    exact ih hEntry (Stage.isDone_of_isJoined (hJoined b (by simp)))
  | join => cases hDone
  | settle => cases hDone
  | resume => cases hDone
  | @abandon path stage pre q stage' started post h _ =>
    have hHolds : stage.letsGo = false := (Stage.of_isDone hDone).2
    rw [h] at hHolds
    cases hHolds

/-- A task that joins others stays on the visit tree if one of them does. -/
theorem follows_joining {path : Path} {outcomes : List Outcome} {pre post : List Branch}
    {b b' : Branch} {entries : List Visit}
    (hEntries : List.Forall₂ (Follows fs config) (pre ++ b :: post) entries)
    (hKept : ∀ c ∈ pre ++ b :: post, c.stage ≠ .abandoned)
    (hFollows : ∀ entry, Follows fs config b entry → Follows fs config b' entry)
    (hStage : b'.stage ≠ .abandoned) :
    Follows fs config (.node path (.joining outcomes) (pre ++ b' :: post))
      (.node path .directory entries) := by
  obtain ⟨front, entry, back, hPre, hEntry, hPost, rfl⟩ :=
    forall₂_append_cons_left_iff.mp hEntries
  refine .joining (forall₂_append_cons_left_iff.mpr
    ⟨front, entry, back, hPre, hFollows entry hEntry, hPost, rfl⟩) ?_
  intro c hc
  rw [List.mem_append, List.mem_cons] at hc
  rcases hc with hc | rfl | hc
  · exact hKept c (by simp [hc])
  · exact hStage
  · exact hKept c (by simp [hc])

/-- A step stays on the visit tree. -/
theorem Step.follows [Yaml.Wording] {b b' : Branch} {v : Visit} (h : Step fs config b b')
    (hFollows : Follows fs config b v) : Follows fs config b' v := by
  induction h generalizing v with
  | ask h => exact follows_of_next? h hFollows
  | @inside path stage pre b b' post h ih =>
    generalize hStarted : pre ++ b :: post = started at hFollows
    cases hFollows with
    | waiting => simp at hStarted
    | listing => simp at hStarted
    | reading => simp at hStarted
    | joining hEntries hKept =>
      subst hStarted
      refine follows_joining hEntries hKept (fun _ hEntry => ih hEntry) ?_
      rcases h.stage_cases with hSame | ⟨_, hNot, _⟩
      · rw [hSame]
        exact hKept b (by simp)
      · exact hNot
    | done _ _ hEntries hJoined =>
      -- what a settled task has started is joined, and stands still
      subst hStarted
      obtain ⟨_, entry, _, _, hEntry, _⟩ := forall₂_append_cons_left_iff.mp hEntries
      exact absurd h (not_step_of_done hEntry (Stage.isDone_of_isJoined (hJoined b (by simp))))
    | crashed hMem hCrash => exact .crashed hMem hCrash
    | abandoned => exact .abandoned
  | @join path outcomes pre q joined started post =>
    cases hFollows with
    | joining hEntries hKept =>
      refine follows_joining hEntries hKept ?_ (by simp [stage])
      intro entry hEntry
      obtain ⟨found, entries, rfl, hFound, hStarted, hJoined⟩ := hEntry.of_done rfl
      exact .done rfl hFound hStarted hJoined
    | done hDone => cases hDone
  | settle h =>
    cases hFollows with
    | joining hEntries hKept => exact .done rfl rfl hEntries h
    | done hDone => cases hDone
  | resume =>
    cases hFollows with
    | joining hEntries hKept =>
      obtain ⟨front, entry, back, hPre, hEntry, hPost, rfl⟩ :=
        forall₂_append_cons_left_iff.mp hEntries
      cases hEntry with
      | crashed hMem hCrash =>
        refine .crashed ?_ hCrash
        rw [Visit.paths_node]
        exact List.mem_cons_of_mem _ (List.mem_flatMap.mpr ⟨entry, by simp, hMem⟩)
      | done hDone => cases hDone
    | done hDone => cases hDone
  | @abandon path stage pre q stage' started post h _ =>
    generalize hStarted : pre ++ node q stage' started :: post = started at hFollows
    cases hFollows with
    | crashed hMem hCrash => exact .crashed hMem hCrash
    | abandoned => exact .abandoned
    | done hDone =>
      rw [(Stage.of_isDone hDone).2] at h
      cases h
    | _ => cases h

/-- What is under way can go on. -/
theorem exists_step_of_follows [Yaml.Wording] {b : Branch} {v : Visit} (h : Follows fs config b v)
    (hLive : b.stage.isLive = true) : ∃ b', Step fs config b b' := by
  induction b using started_induction generalizing v with
  | h b ih =>
    cases h with
    | waiting =>
      obtain ⟨next, hNext⟩ := exists_next? fs config _ hLive (by simp [stage])
      exact ⟨_, .ask hNext⟩
    | listing =>
      obtain ⟨next, hNext⟩ := exists_next? fs config _ hLive (by simp [stage])
      exact ⟨_, .ask hNext⟩
    | reading =>
      obtain ⟨next, hNext⟩ := exists_next? fs config _ hLive (by simp [stage])
      exact ⟨_, .ask hNext⟩
    | @joining path outcomes started entries hEntries hKept =>
      by_cases hAll : ∀ c ∈ started, c.stage.isJoined = true
      · exact ⟨_, .settle hAll⟩
      · -- the first task that is not joined can be joined, or go on
        obtain ⟨pre, c, post, rfl, _, hNot⟩ := exists_first_of_not_forall hAll
        obtain ⟨_, entry, _, _, hEntry, _⟩ := forall₂_append_cons_left_iff.mp hEntries
        have hMem : c ∈ pre ++ c :: post := by simp
        cases hLiveStage : c.stage.isLive with
        | true =>
          obtain ⟨c', hStep⟩ := ih c hMem hEntry hLiveStage
          exact ⟨_, .inside hStep⟩
        | false =>
          obtain ⟨q, stage, below⟩ := c
          cases stage with
          | settled joined => exact ⟨_, .join⟩
          | crashed message => exact ⟨_, .resume⟩
          | abandoned => exact absurd rfl (hKept _ hMem)
          | joined => exact absurd rfl hNot
          | _ => cases hLiveStage
    | done hDone =>
      have hNotLive := (Stage.of_isDone hDone).1
      rw [stage, hNotLive] at hLive
      cases hLive
    | crashed => cases hLive
    | abandoned => cases hLive

/-- Below a task that is joined every task is joined, and these are the visits of all paths of the
    visit tree. -/
theorem tasks_of_joined {b : Branch} {v : Visit} (h : Follows fs config b v)
    (hJoined : b.stage.isJoined = true) :
    (∀ task ∈ b.tasks, task.2.isJoined = true) ∧ b.tasks.map (·.1) = v.paths ∧
      Walk.crash? fs config v = none := by
  induction b using started_induction generalizing v with
  | h b ih =>
    obtain ⟨path, stage, started⟩ := b
    obtain ⟨found, entries, rfl, hFound, hEntries, hAll⟩ :=
      h.of_done (Stage.isDone_of_isJoined hJoined)
    have hBelow : List.Forall₂ (fun c entry => (∀ task ∈ c.tasks, task.2.isJoined = true) ∧
        c.tasks.map (·.1) = entry.paths ∧ Walk.crash? fs config entry = none) started entries := by
      apply forall₂_imp_of_mem hEntries
      intro c entry hc _ hEntry
      exact ih c hc hEntry (hAll c hc)
    refine ⟨?_, ?_, ?_⟩
    · intro task hTask
      rw [tasks_node, List.mem_cons, List.mem_flatMap] at hTask
      rcases hTask with rfl | ⟨c, hc, hTask⟩
      · exact hJoined
      · obtain ⟨_, _, hTasks, _⟩ := exists_mem_right_of_forall₂ hBelow hc
        exact hTasks task hTask
    · rw [tasks_node, List.map_cons, List.map_flatMap, Visit.paths_node, List.flatMap_def,
        List.flatMap_def]
      congr 2
      rw [← List.forall₂_eq_eq_eq, List.forall₂_map_left_iff, List.forall₂_map_right_iff]
      exact hBelow.imp fun _ _ hEntry => hEntry.2.1
    · refine Walk.crash?_node_eq_none_iff.mpr ⟨hFound, ?_⟩
      intro entry hEntry
      obtain ⟨_, _, _, _, hCrash⟩ := exists_mem_of_forall₂ hBelow hEntry
      exact hCrash

end Branch

end SnippetAudit
