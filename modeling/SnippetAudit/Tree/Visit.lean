import SnippetAudit.Path

/-!
# Visits

What a walk asks of a file system (`SnippetFs`): what a path stands for, which names a directory
lists, and the text of a file. A file system here gives the same answer to the same question every
time. Each question may fail with a message, and each may crash.

The visit tree of a path: what the path stands for and, if it is a directory that lists its
names, the visits of its entries. A directory that is reached through itself makes the tree
endless, so trees are built down to a depth; `Visit.ofPath?` gives a tree only if it ends there.

Results:
* `nodes_ne_nil`: a visit has at least its own node.
-/

namespace SnippetAudit

/-! ## File systems -/

/-- What a path stands for (`EntryKind`). -/
inductive PathKind where
  | directory
  | file
  /-- What is neither: it is never looked into. -/
  | other
  /-- Nothing that could be told, for the reason given. -/
  | failure (message : String)
  /-- Nothing at all: whoever asks comes to an end with the message. -/
  | crash (message : String)
  deriving DecidableEq, Repr

/-- The answer to a question about what is inside a directory or a file. -/
inductive Answer (α : Type) where
  | ok (value : α)
  /-- The question fails, for the reason given. -/
  | error (message : String)
  /-- There is no answer: whoever asks comes to an end with the message. -/
  | crash (message : String)
  deriving DecidableEq, Repr

/-- The answers of a file system (`SnippetFs`). -/
structure FileSystem where
  /-- What a path stands for. -/
  stat : Path → PathKind
  /-- The names in a directory. -/
  list : Path → Answer (List (List Char))
  /-- The text of a file. -/
  read : Path → Answer (List Char)

/-! ## Visits -/

/-- What a visit finds at a path, before it reads a file. -/
inductive Discovery where
  | crash (message : String)
  | unstatable (message : String)
  | other
  | file
  /-- A directory of which asking for the names crashes. -/
  | listingCrash (message : String)
  | unlistable (message : String)
  | directory
  deriving DecidableEq, Repr

/-- A path with what is found there, and the visits of the entries of a directory. -/
inductive Visit where
  | node (path : Path) (found : Discovery) (entries : List Visit)
  deriving Repr

namespace Visit

/-- The visit of a path, if no entry lies `depth` levels below it (`visit`, `visit_directory`). -/
def ofPath? (fs : FileSystem) : Nat → Path → Option Visit
  | 0, _ => none
  | depth + 1, path =>
    match fs.stat path with
    | .crash message => some (.node path (.crash message) [])
    | .failure message => some (.node path (.unstatable message) [])
    | .other => some (.node path .other [])
    | .file => some (.node path .file [])
    | .directory =>
      match fs.list path with
      | .crash message => some (.node path (.listingCrash message) [])
      | .error message => some (.node path (.unlistable message) [])
      | .ok names =>
        (names.mapM fun name => ofPath? fs depth (path.join (.ofText name))).map
          (.node path .directory ·)

mutual

/-- Everything that a visit finds, each directory before its entries. -/
def nodes : Visit → List (Path × Discovery)
  | .node path found entries => (path, found) :: nodesOfList entries

/-- Everything that visits find, one after another. -/
def nodesOfList : List Visit → List (Path × Discovery)
  | [] => []
  | v :: visits => v.nodes ++ nodesOfList visits

end

/-! ## Lemmas -/

theorem nodesOfList_eq_flatMap (visits : List Visit) : nodesOfList visits = visits.flatMap nodes := by
  induction visits with
  | nil => rfl
  | cons v visits ih => simp [nodesOfList, ih]

theorem nodes_ne_nil (v : Visit) : v.nodes ≠ [] := by
  cases v with
  | node path found entries => simp [nodes]

end Visit

end SnippetAudit
