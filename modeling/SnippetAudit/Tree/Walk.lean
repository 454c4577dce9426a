import SnippetAudit.Outcome
import SnippetAudit.Tree.Visit

/-!
# Walking a tree

A walk visits everything under a root and checks each file whose name carries the source suffix.
A path that cannot be looked at is an outcome of its own and ends only its own branch. A path at which
a question crashes ends the walk with that crash.

Results:
* `outcomesAt_of_refused`: a file whose name does not carry the suffix has no outcome.
-/

namespace SnippetAudit

open Text

namespace Config

/-- Whether the file at a path is to be read. -/
def acceptsPath (c : Config) (path : Path) : Bool :=
  path.fileName?.any fun name => c.acceptsName (Utf8.decodeLossy name)

end Config

namespace Walk

/-- The outcomes of what is found at one path (`visit_file`, `io_failure`). -/
def outcomesAt [Yaml.Wording] (fs : FileSystem) (config : Config) (path : Path) :
    Discovery → List Outcome
  | .unstatable message | .unlistable message => [.fileFailure path (.io message)]
  | .file =>
    if config.acceptsPath path then
      match fs.read path with
      | .ok text => Outcome.ofSource config path text
      | .error message => [.fileFailure path (.io message)]
      | .crash _ => []
    else []
  | .crash _ | .listingCrash _ | .other | .directory => []

/-- The outcomes of a visit. -/
def outcomes [Yaml.Wording] (fs : FileSystem) (config : Config) (v : Visit) : List Outcome :=
  v.nodes.flatMap fun (path, found) => outcomesAt fs config path found

/-- The paths about which a visit asks what they stand for. -/
def statCalls (v : Visit) : List Path := v.nodes.map (·.1)

/-- The paths whose names a visit asks for. -/
def listCalls (v : Visit) : List Path :=
  v.nodes.filterMap fun (path, found) =>
    match found with
    | .directory | .unlistable _ | .listingCrash _ => some path
    | _ => none

/-- The paths whose text a visit asks for. -/
def readCalls (config : Config) (v : Visit) : List Path :=
  v.nodes.filterMap fun (path, found) =>
    if found = .file ∧ config.acceptsPath path then some path else none

/-- The crash at a path where this is found, if there is one. -/
def crashAt? (fs : FileSystem) (config : Config) (path : Path) : Discovery → Option String
  | .crash message | .listingCrash message => some message
  | .file =>
    if config.acceptsPath path then
      match fs.read path with
      | .crash message => some message
      | .ok _ | .error _ => none
    else none
  | .unstatable _ | .unlistable _ | .other | .directory => none

/-- The message of the first crash in a visit. -/
def crash? (fs : FileSystem) (config : Config) (v : Visit) : Option String :=
  v.nodes.findSome? fun (path, found) => crashAt? fs config path found

/-- How a walk ends (`TreeWalker::walk`). -/
inductive Ending where
  /-- With a crash, whose message is handed on. -/
  | crashed (message : String)
  /-- With the outcomes of all visits. -/
  | completed (outcomes : List Outcome)
  deriving Repr

/-- The ending of a walk with this visit tree. -/
def ending [Yaml.Wording] (fs : FileSystem) (config : Config) (v : Visit) : Ending :=
  match crash? fs config v with
  | some message => .crashed message
  | none => .completed (outcomes fs config v)

/-! ## Lemmas -/

theorem outcomesAt_of_refused [Yaml.Wording] (fs : FileSystem) {config : Config} {path : Path}
    (h : config.acceptsPath path = false) : outcomesAt fs config path .file = [] := by
  simp [outcomesAt, h]

@[simp] theorem statCalls_length (v : Visit) : (statCalls v).length = v.nodes.length := by
  simp [statCalls]

end Walk

end SnippetAudit
