import SnippetAudit.Tree.Visit

/-!
# File systems in memory

Nodes with their paths make a file system. A node is looked up by the components of its path; of two
nodes with the same components the later one counts. What is asked of a path without a node fails.

Results:
* `node?_insert_self`, `node?_insert_of_ne`: a node is found under all spellings of its path, and hides no
  other.
-/

namespace SnippetAudit

/-- A node of a file system in memory. -/
inductive MemoryNode where
  | directory (names : List (List Char))
  | file (text : List Char)
  | unreadable (message : String)
  | unlistable (message : String)
  | unstatable (message : String)
  | crashing (message : String)
  /-- A directory of which asking for the names crashes. -/
  | crashingDirectory (message : String)
  /-- A file of which asking for the text crashes. -/
  | crashingFile (message : String)
  | other
  deriving DecidableEq, Repr

/-- Nodes under the components of their paths, the latest first (`MemoryFs`). -/
abbrev MemoryTree := List (List Path.Component × MemoryNode)

namespace MemoryTree

/-- Adds a node, which hides those with the same components. -/
def insert (nodes : MemoryTree) (path : Path) (node : MemoryNode) : MemoryTree :=
  (path.components, node) :: nodes

/-- The tree of nodes given in order. -/
def ofList (nodes : List (Path × MemoryNode)) : MemoryTree :=
  nodes.foldl (fun tree (path, node) => tree.insert path node) []

/-- The node with the components of a path (`MemoryFs::lookup`). -/
def node? (nodes : MemoryTree) (path : Path) : Option MemoryNode := nodes.lookup path.components

/-- What is said of a path without a node. -/
def missing : String := "no such entry"

/-- What a node is. -/
def kindOf : Option MemoryNode → PathKind
  | some (.directory _) | some (.unlistable _) | some (.crashingDirectory _) => .directory
  | some (.file _) | some (.unreadable _) | some (.crashingFile _) => .file
  | some .other => .other
  | some (.unstatable message) => .failure message
  | some (.crashing message) => .crash message
  | none => .failure missing

/-- The names in a node. -/
def namesOf : Option MemoryNode → Answer (List (List Char))
  | some (.directory names) => .ok names
  | some (.unlistable message) => .error message
  | some (.crashingDirectory message) => .crash message
  | _ => .error missing

/-- The text of a node. -/
def textOf : Option MemoryNode → Answer (List Char)
  | some (.file text) => .ok text
  | some (.unreadable message) => .error message
  | some (.crashingFile message) => .crash message
  | _ => .error missing

/-- The file system that nodes make. -/
def fileSystem (nodes : MemoryTree) : FileSystem where
  stat path := kindOf (nodes.node? path)
  list path := namesOf (nodes.node? path)
  read path := textOf (nodes.node? path)

/-- A depth that no visit tree reaches which ends at all: on the way to an entry no node is met twice. -/
def depth (nodes : MemoryTree) : Nat := nodes.length + 2

/-! ## Lemmas -/

theorem node?_insert_self (nodes : MemoryTree) {p q : Path} (node : MemoryNode)
    (h : q.components = p.components) : (nodes.insert p node).node? q = some node := by
  simp [node?, insert, h]

theorem node?_insert_of_ne (nodes : MemoryTree) {p q : Path} (node : MemoryNode)
    (h : q.components ≠ p.components) : (nodes.insert p node).node? q = nodes.node? q := by
  simp [node?, insert, List.lookup_cons, beq_eq_false_iff_ne.2 h]

end MemoryTree

end SnippetAudit
