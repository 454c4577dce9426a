import SnippetAudit.Config.Reading
import SnippetAudit.Report.Render
import SnippetAudit.Report.Summary
import SnippetAudit.Tree.Walk

/-!
# Checks

A check loads its configuration, walks the tree under its root, sorts the outcomes, writes the report
and flushes it. Its exit status is the number of findings, up to 255. A configuration that cannot be
loaded and a report that cannot be written are fatal: there is no status then.

Results:
* `loadConfig_none`: without a configuration file every setting has its default.
* `run_of_loadConfig_error`: when the configuration cannot be loaded, nothing is written.
-/

namespace SnippetAudit

open Report

/-- What is asked of a check (`CheckArgs`). -/
structure Check where
  root : Path
  format : Format
  configFile : Option Path
  deriving DecidableEq, Repr

namespace Check

/-- Why a check comes to no result. -/
inductive Fatal where
  /-- The configuration file cannot be read. -/
  | unreadableConfig (path : Path) (message : String)
  /-- The configuration file is refused. -/
  | refusedConfig (path : Path) (fault : Config.Fault)
  /-- A question to the file system crashed. -/
  | crashed (message : String)
  /-- The walk went deeper than it may. -/
  | endless
  /-- The report could not be written. -/
  | report (failure : Failure)
  deriving DecidableEq, Repr

/-- The text of a path within a message. -/
def pathText (path : Path) : String := String.ofList path.lossyText

/-- The wording of a fatal error: what failed, and why, where that is not said yet. The cause of a fault
    in a configuration file is told twice, once with the file and once by itself; where it is the YAML
    reader's, all that is said behind the name of the file is left to `Yaml.Wording`. -/
def Fatal.message [Yaml.Wording] : Fatal → String
  | .unreadableConfig path message =>
    "failed to load config from " ++ pathText path ++ ": cannot read config file '" ++ pathText path
      ++ "': " ++ message ++ ": " ++ message
  | .refusedConfig path fault =>
    let again := match fault with
      | .unknownField .. | .repeatedField .. => ": " ++ fault.textFault?.getD ""
      | .malformed _ | .blank _ => ""
    "failed to load config from " ++ pathText path ++ ": " ++ fault.message (pathText path) ++ again
  | .crashed message => message
  | .endless => "too many levels of directories"
  | .report failure => failure.message

/-- The configuration of a check (`load_config`). -/
def loadConfig (fs : FileSystem) : Option Path → Except Fatal Config
  | none => .ok .default
  | some path =>
    match fs.read path with
    | .error message => .error (.unreadableConfig path message)
    | .crash message => .error (.crashed message)
    | .ok text => (Config.ofText text).mapError (.refusedConfig path)

/-- The outcomes of a check, in the order of the report. -/
def outcomes [Yaml.Wording] (c : Check) (fs : FileSystem) (depth : Nat) (config : Config) :
    Except Fatal (List Outcome) :=
  match Visit.ofPath? fs depth c.root with
  | none => .error .endless
  | some v =>
    match Walk.ending fs config v with
    | .crashed message => .error (.crashed message)
    | .completed outcomes => .ok (Outcome.sort outcomes)

/-- Runs a check, down to a depth of directories. Gives its exit status and the sink with the report
    (`run_check`). -/
def run [Yaml.Wording] (c : Check) (fs : FileSystem) (depth : Nat) (sink : Sink) :
    Except Fatal Nat × Sink :=
  match loadConfig fs c.configFile >>= c.outcomes fs depth with
  | .error fatal => (.error fatal, sink)
  | .ok outcomes =>
    let write : Writing Unit := do
      render c.format c.root outcomes
      Writing.flush
    match write.run sink with
    | (.error failure, sink) => (.error (.report failure), sink)
    | (.ok (), sink) => (.ok (Summary.ofOutcomes outcomes).exitCode, sink)

/-! ## Lemmas -/

@[simp] theorem loadConfig_none (fs : FileSystem) : loadConfig fs none = .ok .default := rfl

theorem run_of_loadConfig_error [Yaml.Wording] {c : Check} {fs : FileSystem} {fatal : Fatal}
    (depth : Nat) (sink : Sink)
    (h : loadConfig fs c.configFile = .error fatal) : c.run fs depth sink = (.error fatal, sink) := by
  simp [run, h, bind, Except.bind]

end Check

end SnippetAudit
