import SnippetAudit.Tree.Visit

/-!
# Disks

A disk holds directories, files, symbolic links and sockets, each under the names that lead to it
from the top. Names are bytes and need not be text.

A path is resolved part by part, from the top if it is absolute, else from the working directory.
`..` leads to the directory above, an empty part and `.` lead nowhere but ask for a directory, and
a link is replaced by the parts of its target. At most forty links are followed.

`Disk.fileSystem` answers in the words of the operating system. It lists names as text, with U+FFFD
for what is no text, so that a name that is no text is listed under a name that it does not have.

Results:
* `lookup?_put_self`: an entry is found under the names where it was put.
* `resolveParts_idle`: a part that leads nowhere is passed over.
-/

namespace SnippetAudit

open Text

/-- What a name on a disk stands for. -/
inductive Disk.Entry where
  | directory
  | file (bytes : List UInt8)
  | link (target : Path)
  | socket
  deriving DecidableEq, Repr

/-- Entries under the names that lead to them, and the names that lead to the working directory. The
    top has no entry of its own. -/
structure Disk where
  entries : List (List (List UInt8) × Disk.Entry)
  workingDirectory : List (List UInt8)
  deriving Repr

namespace Disk

/-- The faults of the operating system, and that of a path which cannot be handed to it. -/
inductive Fault where
  | missing
  | noDevice
  | notDirectory
  | isDirectory
  | nameTooLong
  | manyLinks
  | zeroByte
  deriving DecidableEq, Repr

/-- The wording of a fault. -/
def Fault.message : Fault → String
  | .missing => "No such file or directory (os error 2)"
  | .noDevice => "No such device or address (os error 6)"
  | .notDirectory => "Not a directory (os error 20)"
  | .isDirectory => "Is a directory (os error 21)"
  | .nameTooLong => "File name too long (os error 36)"
  | .manyLinks => "Too many levels of symbolic links (os error 40)"
  | .zeroByte => "file name contained an unexpected NUL byte"

/-- What is said of a file that is no text. -/
def notText : String := "stream did not contain valid UTF-8"

/-- The longest name, and the longest path, in bytes. -/
def maxName : Nat := 255

/-- The length that a path has to stay below, in bytes. -/
def pathLimit : Nat := 4096

/-- How many links are followed on the way to one entry. -/
def maxLinks : Nat := 40

/-- The entry under some names. -/
def lookup? (d : Disk) (names : List (List UInt8)) : Option Entry :=
  if names.isEmpty then some .directory else d.entries.lookup names

/-- Puts an entry under some names, in the place of what was there. -/
def put (d : Disk) (names : List (List UInt8)) (entry : Entry) : Disk :=
  { d with entries := d.entries.filter (·.1 != names) ++ [(names, entry)] }

/-! ## Resolving a path -/

/-- The result of resolving: names without links among them, and the entry there. -/
abbrev Resolved := Except Fault (List (List UInt8) × Entry)

/-- The names from which a path in a directory is resolved. -/
def startOf (directory : List (List UInt8)) (path : Path) : List (List UInt8) :=
  if path.isAbsolute then [] else directory

/-- Resolves parts from a directory, with `follow` for what comes behind a link. -/
def resolveParts (d : Disk) (follow : List (List UInt8) → List (List UInt8) → Resolved) :
    List (List UInt8) → List (List UInt8) → Resolved
  | directory, [] => .ok (directory, .directory)
  | directory, part :: parts =>
    if part = [] ∨ part = [0x2E] then resolveParts d follow directory parts
    else if part = [0x2E, 0x2E] then resolveParts d follow directory.dropLast parts
    else if maxName < part.length then .error .nameTooLong
    else
      let names := directory ++ [part]
      match d.lookup? names with
      | none => .error .missing
      | some .directory => resolveParts d follow names parts
      | some (.link target) =>
        follow (startOf directory target) (Path.splitParts target.bytes ++ parts)
      | some entry => if parts.isEmpty then .ok (names, entry) else .error .notDirectory

/-- Resolves parts from a directory and follows fewer than `links` links. -/
def resolveFrom (d : Disk) : Nat → List (List UInt8) → List (List UInt8) → Resolved
  | 0 => fun _ _ => .error .manyLinks
  | links + 1 => resolveParts d (resolveFrom d links)

/-- Resolves a path. -/
def resolve (d : Disk) (path : Path) : Resolved :=
  if path.bytes.contains 0 then .error .zeroByte
  else if path.bytes.isEmpty then .error .missing
  else if pathLimit ≤ path.bytes.length then .error .nameTooLong
  else
    d.resolveFrom (maxLinks + 1) (startOf d.workingDirectory path) (Path.splitParts path.bytes)

/-! ## Adding entries -/

/-- Goes from a directory to the one that a part of a path leads to, and puts one there if there is none. -/
def enter (d : Disk) (directory : List (List UInt8)) (part : List UInt8) :
    Disk × List (List UInt8) :=
  match d.resolveFrom (maxLinks + 1) directory [part] with
  | .ok (names, .directory) => (d, names)
  | _ => (d.put (directory ++ [part]) .directory, directory ++ [part])

/-- Goes from the top to the directory that the parts of a path lead to, which is there from then on. -/
def enterAll (d : Disk) (parts : List (List UInt8)) : Disk × List (List UInt8) :=
  parts.foldl (fun (d, directory) part => d.enter directory part) (d, [])

/-- Puts an entry where the parts of a path lead from the top, with the directories above it. A directory
    that is there stays. -/
def add (d : Disk) (parts : List (List UInt8)) (entry : Entry) : Disk :=
  if entry = .directory then (d.enterAll parts).1
  else
    let (d, directory) := d.enterAll parts.dropLast
    d.put (directory ++ parts.getLast?.toList) entry

/-! ## Answers -/

/-- What a path stands for. -/
def stat (d : Disk) (path : Path) : PathKind :=
  match d.resolve path with
  | .error fault => .failure fault.message
  | .ok (_, .directory) => .directory
  | .ok (_, .file _) => .file
  | .ok (_, _) => .other

/-- The names of the entries of the directory under some names. -/
def namesIn (d : Disk) (directory : List (List UInt8)) : List (List UInt8) :=
  d.entries.filterMap fun (names, _) =>
    if names.dropLast = directory then names.getLast? else none

/-- The order of names in a listing, by their bytes. -/
def nameBefore (a b : List Char) : Bool :=
  List.compareLex Ord.compare (Utf8.encode a) (Utf8.encode b) != .gt

/-- The names in a directory, as text and in order. -/
def list (d : Disk) (path : Path) : Answer (List (List Char)) :=
  match d.resolve path with
  | .error fault => .error fault.message
  | .ok (names, .directory) => .ok (((d.namesIn names).map Utf8.decodeLossy).mergeSort nameBefore)
  | .ok (_, _) => .error Fault.notDirectory.message

/-- The text of a file. -/
def read (d : Disk) (path : Path) : Answer (List Char) :=
  match d.resolve path with
  | .error fault => .error fault.message
  | .ok (_, .directory) => .error Fault.isDirectory.message
  | .ok (_, .file bytes) =>
    match Utf8.decode? bytes with
    | some text => .ok text
    | none => .error notText
  | .ok (_, _) => .error Fault.noDevice.message

/-- The answers of a disk (`TokioFs`). -/
def fileSystem (d : Disk) : FileSystem := ⟨d.stat, d.list, d.read⟩

/-- A depth that no visit tree reaches: each level makes the path longer by a separator or a name. -/
def depth : Nat := pathLimit + 1

/-! ## Lemmas -/

theorem lookup?_put_self (d : Disk) {names : List (List UInt8)} (entry : Entry) (h : names ≠ []) :
    (d.put names entry).lookup? names = some entry := by
  have hGone : (d.entries.filter (·.1 != names)).lookup names = none := by
    rw [List.lookup_eq_none_iff]
    intro p hp
    have := (List.mem_filter.1 hp).2
    rw [bne_iff_ne] at this
    simpa using this.symm
  simp [lookup?, put, h, List.lookup_append, hGone]

theorem resolveParts_idle (d : Disk) (follow : List (List UInt8) → List (List UInt8) → Resolved)
    (directory parts : List (List UInt8)) {part : List UInt8} (h : part = [] ∨ part = [0x2E]) :
    resolveParts d follow directory (part :: parts) = resolveParts d follow directory parts := by
  rw [resolveParts, if_pos h]

end Disk

end SnippetAudit
