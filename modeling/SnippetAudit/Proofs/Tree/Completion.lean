import Mathlib.Logic.Relation
import SnippetAudit.CommandLine
import SnippetAudit.Proofs.Tree.Branches

/-!
# Completion of a walk

A caller starts a walk and is handed its outcomes when the walk is complete: when the visit of the
root has settled, and with it every visit of the visit tree. If a visit crashes the caller is
handed nothing, and the walk ends with the crash.

Results:
* `Step.agrees`: a step keeps the walk on its visit tree, and in agreement with its caller.
* `handed_of_reaches`: when and with what the caller is handed outcomes, and how a walk ends.
-/

namespace SnippetAudit

/-- How a walk comes back to its caller. -/
inductive Exit where
  | returned
  | unwound (message : String)
  deriving DecidableEq

/-- A walk with its caller: the visit of the root, what the caller was handed each time that it was
    handed something, and how the walk came back. -/
structure Errand where
  root : Branch
  handed : List (List Outcome)
  exit : Option Exit

namespace Errand

/-- The walk is about to visit its root. -/
def start (root : Path) : Errand := ⟨.start root, [], none⟩

/-- One step of a task, or of the caller once the visit of the root is over. -/
inductive Step [Yaml.Wording] (fs : FileSystem) (config : Config) : Errand → Errand → Prop
  | task {root root' handed exit} (h : Branch.Step fs config root root') :
    Step fs config ⟨root, handed, exit⟩ ⟨root', handed, exit⟩
  | complete {path outcomes started handed} :
    Step fs config ⟨.node path (.settled outcomes) started, handed, none⟩
      ⟨.node path (.joined outcomes) started, handed ++ [outcomes], some .returned⟩
  | unwind {path message started handed} :
    Step fs config ⟨.node path (.crashed message) started, handed, none⟩
      ⟨.node path (.crashed message) started, handed, some (.unwound message)⟩

/-- Steps one after another. -/
abbrev Reaches [Yaml.Wording] (fs : FileSystem) (config : Config) : Errand → Errand → Prop :=
  Relation.ReflTransGen (Step fs config)

/-- A walk and its caller agree on where they are. -/
inductive Agrees : Errand → Prop
  | walking {root} (h : root.stage.isJoined = false) (hKept : root.stage ≠ .abandoned) :
    Agrees ⟨root, [], none⟩
  | returned {path outcomes started} :
    Agrees ⟨.node path (.joined outcomes) started, [outcomes], some .returned⟩
  | unwound {path message started} :
    Agrees ⟨.node path (.crashed message) started, [], some (.unwound message)⟩

section

variable [Yaml.Wording] {fs : FileSystem} {config : Config}

/-- A step keeps a walk and its caller in agreement, and the visit of the root on its visit tree. -/
theorem Step.agrees {s s' : Errand} {v : Visit} (h : Step fs config s s')
    (hFollows : Branch.Follows fs config s.root v) (hAgrees : Agrees s) :
    Branch.Follows fs config s'.root v ∧ Agrees s' := by
  cases h with
  | @task root root' handed exit h =>
    refine ⟨h.follows hFollows, ?_⟩
    cases hAgrees with
    | walking hJoined hKept =>
      refine .walking (h.isJoined_eq ▸ hJoined) ?_
      rcases h.stage_cases with hSame | ⟨_, hNot, _⟩
      · rw [hSame]
        exact hKept
      · exact hNot
    | returned => exact absurd h (Branch.not_step_of_done hFollows rfl)
    | unwound =>
      obtain ⟨path', stage', started'⟩ := root'
      rcases h.stage_cases with hSame | ⟨hLive, _⟩
      · cases hSame
        exact .unwound
      · cases hLive
  | complete =>
    obtain ⟨found, entries, rfl, hFound, hStarted, hJoined⟩ := hFollows.of_done rfl
    cases hAgrees with
    | walking => exact ⟨.done rfl hFound hStarted hJoined, .returned⟩
  | unwind =>
    cases hAgrees with
    | walking => exact ⟨hFollows, .unwound⟩

/-- The steps of a walk with its caller are a run of the visit of the root. -/
theorem Reaches.run {root : Path} {s : Errand} (h : Reaches fs config (start root) s) :
    ∃ calls, Task.Run fs config (.waiting root) calls s.root.toTask := by
  induction h with
  | refl => exact ⟨[], .refl⟩
  | tail _ hStep ih =>
    obtain ⟨calls, hRun⟩ := ih
    cases hStep with
    | task h =>
      rcases h.toTask with hSame | ⟨calls', hTask⟩
      · exact ⟨calls, hSame ▸ hRun⟩
      · exact ⟨calls ++ calls', hRun.trans (.single hTask)⟩
    | complete => exact ⟨calls, hRun⟩
    | unwind => exact ⟨calls, hRun⟩

theorem Reaches.agrees {depth : ℕ} {root : Path} {v : Visit} {s : Errand}
    (hVisit : Visit.ofPath? fs depth root = some v) (h : Reaches fs config (start root) s) :
    Branch.Follows fs config s.root v ∧ Agrees s := by
  induction h with
  | refl => exact ⟨.waiting hVisit, .walking rfl (by simp [Branch.start, Branch.stage])⟩
  | tail _ hStep ih => exact hStep.agrees ih.1 ih.2

/-- A walk that is not back with its caller can go on. -/
theorem exists_step_of_agrees {s : Errand} {v : Visit} (hFollows : Branch.Follows fs config s.root v)
    (hAgrees : Agrees s) (hExit : s.exit = none) : ∃ s', Step fs config s s' := by
  cases hAgrees with
  | @walking root hJoined hKept =>
    cases hLive : root.stage.isLive with
    | true =>
      have hStep : ∃ root', Branch.Step fs config root root' :=
        Branch.exists_step_of_follows hFollows hLive
      obtain ⟨root', hStep⟩ := hStep
      exact ⟨_, .task hStep⟩
    | false =>
      obtain ⟨path, stage, started⟩ := root
      cases stage with
      | settled outcomes => exact ⟨_, .complete⟩
      | crashed message => exact ⟨_, .unwind⟩
      | joined => cases hJoined
      | abandoned => exact absurd rfl hKept
      | _ => cases hLive
  | returned => cases hExit
  | unwound => cases hExit

/-- At every moment of a walk the caller has been handed outcomes at most once. If it has, then
    every task that was ever started is joined, these are the visits of all paths of the visit tree,
    and the outcomes are those of the visit tree. Where a question about a path of the visit tree
    crashes the caller is never handed anything, and the walk can only end with the crash of such a
    question; elsewhere it can only end with outcomes handed over. -/
theorem handed_of_reaches {depth : ℕ} {root : Path} {v : Visit} {s : Errand}
    (hVisit : Visit.ofPath? fs depth root = some v) (h : Reaches fs config (start root) s) :
    s.handed.length ≤ 1 ∧
    (∀ outcomes ∈ s.handed,
      (∀ task ∈ s.root.tasks, task.2.isJoined = true) ∧ s.root.tasks.map (·.1) = v.paths ∧
      outcomes.Perm (Walk.outcomes fs config v)) ∧
    ((∃ path ∈ v.paths, ∃ message, Walk.CrashesAt fs config path message) →
      s.handed = [] ∧
      ((s.exit ≠ none ∨ ∀ s', ¬ Step fs config s s') →
        ∃ path ∈ v.paths, ∃ message, Walk.CrashesAt fs config path message ∧
          s.exit = some (.unwound message))) ∧
    ((∀ path ∈ v.paths, ∀ message, ¬ Walk.CrashesAt fs config path message) →
      (s.exit ≠ none ∨ ∀ s', ¬ Step fs config s s') →
        s.exit = some .returned ∧ ∃ outcomes, s.handed = [outcomes]) := by
  obtain ⟨hFollows, hAgrees⟩ := h.agrees hVisit
  obtain ⟨calls, hRun⟩ := h.run
  have hEnd : (s.exit ≠ none ∨ ∀ s', ¬ Step fs config s s') → s.exit ≠ none := by
    rintro (hExit | hLast) hNone
    · exact hExit hNone
    · obtain ⟨s', hStep⟩ := exists_step_of_agrees hFollows hAgrees hNone
      exact hLast s' hStep
  cases hAgrees with
  | walking =>
    exact ⟨by simp, by simp, fun _ => ⟨rfl, fun hLast => absurd rfl (hEnd hLast)⟩,
      fun _ hLast => absurd rfl (hEnd hLast)⟩
  | @returned path outcomes started =>
    obtain ⟨hTasks, hPaths, hCrash⟩ := Branch.tasks_of_joined hFollows rfl
    have hNone := (Walk.crash?_eq_none_iff hVisit).mp hCrash
    refine ⟨by simp, ?_, ?_, fun _ _ => ⟨rfl, outcomes, rfl⟩⟩
    · intro l hl
      rw [List.mem_singleton.mp hl]
      exact ⟨hTasks, hPaths, hRun.outcomes_perm hVisit hCrash⟩
    · rintro ⟨q, hq, message, hAt⟩
      exact absurd hAt (hNone q hq message)
  | @unwound path message started =>
    cases hFollows with
    | @crashed _ _ _ _ q hMem hAt =>
      refine ⟨by simp, by simp, fun _ => ⟨rfl, fun _ => ⟨q, hMem, message, hAt, rfl⟩⟩, ?_⟩
      intro hNone
      exact absurd hAt (hNone q hMem message)
    | done hDone => cases hDone

end

/-- A directory in which what lies two levels down crashes. -/
def bursting : MemoryTree :=
  .ofList [(.ofString "r", .directory [['d'], ['a', '.', 'r', 'e', 'g', 'o']]),
    (.ofString "r/d", .directory [['x']]), (.ofString "r/d/x", .crashing "burst"),
    (.ofString "r/a.rego", .file ['#', ' ', 'a'])]

/-- The visits of `bursting`, once the directories are listed. -/
def burstRoot (root directory leaf file : Stage) : Branch :=
  .node (.ofString "r") root
    [.node (.ofString "r/d") directory [.node (.ofString "r/d/x") leaf []],
      .node (.ofString "r/a.rego") file []]

/-- A walk over `bursting` in which nobody has asked about the file. -/
def burst : Errand where
  root := burstRoot (.crashed "burst") (.crashed "burst") (.crashed "burst") .abandoned
  handed := []
  exit := some (.unwound "burst")

/-- The crash in `bursting` takes its way over two levels to the caller, who is handed nothing. -/
theorem handed_of_reaches_burst :
    Reaches bursting.fileSystem .default (start (.ofString "r")) burst ∧ burst.handed = [] ∧
    ∃ path ∈ ["r", "r/d", "r/d/x", "r/a.rego"].map Path.ofString,
      ∃ message, Walk.CrashesAt bursting.fileSystem .default path message ∧
        burst.exit = some (.unwound message) := by
  have hVisit : Visit.ofPath? bursting.fileSystem 3 (.ofString "r") =
      some (.node (.ofString "r") .directory
        [.node (.ofString "r/d") .directory [.node (.ofString "r/d/x") (.crash "burst") []],
          .node (.ofString "r/a.rego") .file []]) := by rfl
  have hListing : Branch.Step bursting.fileSystem .default (.start (.ofString "r"))
      (.node (.ofString "r") .listing []) := @Branch.Step.ask _ _ _ _ _ _ [] rfl
  have hSpawn : Branch.Step bursting.fileSystem .default (.node (.ofString "r") .listing [])
      (.node (.ofString "r") (.joining [])
        ([] ++ .start (.ofString "r/d") :: [.start (.ofString "r/a.rego")])) :=
    @Branch.Step.ask _ _ _ _ _ _ [.ofString "r/d", .ofString "r/a.rego"] rfl
  have hBelow : Branch.Step bursting.fileSystem .default
      (.node (.ofString "r") (.joining [])
        ([] ++ .start (.ofString "r/d") :: [.start (.ofString "r/a.rego")]))
      (.node (.ofString "r") (.joining [])
        ([] ++ .node (.ofString "r/d") .listing [] :: [.start (.ofString "r/a.rego")])) :=
    .inside (@Branch.Step.ask _ _ _ _ _ _ [] rfl)
  have hSpawnBelow : Branch.Step bursting.fileSystem .default
      (.node (.ofString "r") (.joining [])
        ([] ++ .node (.ofString "r/d") .listing [] :: [.start (.ofString "r/a.rego")]))
      (burstRoot (.joining []) (.joining []) .waiting .waiting) :=
    @Branch.Step.inside _ _ _ _ _ [] _ _ _ (@Branch.Step.ask _ _ _ _ _ _ [.ofString "r/d/x"] rfl)
  have hCrash : Branch.Step bursting.fileSystem .default
      (burstRoot (.joining []) (.joining []) .waiting .waiting)
      (burstRoot (.joining []) (.joining []) (.crashed "burst") .waiting) :=
    @Branch.Step.inside _ _ _ _ _ [] _ _ _ (@Branch.Step.inside _ _ _ _ _ [] _ _ []
      (@Branch.Step.ask _ _ _ _ _ _ [] rfl))
  have hResumeBelow : Branch.Step bursting.fileSystem .default
      (burstRoot (.joining []) (.joining []) (.crashed "burst") .waiting)
      (burstRoot (.joining []) (.crashed "burst") (.crashed "burst") .waiting) :=
    @Branch.Step.inside _ _ _ _ _ [] _ _ _ (@Branch.Step.resume _ _ _ _ _ [] _ _ _ [])
  have hResume : Branch.Step bursting.fileSystem .default
      (burstRoot (.joining []) (.crashed "burst") (.crashed "burst") .waiting)
      (burstRoot (.crashed "burst") (.crashed "burst") (.crashed "burst") .waiting) :=
    @Branch.Step.resume _ _ _ _ _ [] _ _ _ _
  have hAbandon : Branch.Step bursting.fileSystem .default
      (burstRoot (.crashed "burst") (.crashed "burst") (.crashed "burst") .waiting)
      (burstRoot (.crashed "burst") (.crashed "burst") (.crashed "burst") .abandoned) :=
    @Branch.Step.abandon _ _ _ _ _ [_] _ _ _ [] rfl rfl
  have hReaches : Reaches bursting.fileSystem .default (start (.ofString "r")) burst :=
    .head (.task hListing) (.head (.task hSpawn) (.head (.task hBelow) (.head (.task hSpawnBelow)
      (.head (.task hCrash) (.head (.task hResumeBelow) (.head (.task hResume)
        (.head (.task hAbandon) (.single .unwind))))))))
  obtain ⟨_, _, hCrashing, _⟩ := handed_of_reaches hVisit hReaches
  obtain ⟨hHanded, hExit⟩ := hCrashing ⟨.ofString "r/d/x", by decide, "burst", .inl (by decide)⟩
  exact ⟨hReaches, hHanded, hExit (.inl (by decide))⟩

end Errand

end SnippetAudit
