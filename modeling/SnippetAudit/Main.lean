import SnippetAudit.CommandLine
import SnippetAudit.Tree.Disk
import SnippetAudit.Tree.Memory

/-!
# The program

Takes a copy in memory of what a command line names, runs the command on the copy, and writes what
it gives.
-/

namespace SnippetAudit

open Text

namespace Main

/-- The number of a fault of the operating system, which may arrive with its sign turned. -/
def faultNumber (code : UInt32) : UInt32 := min code (0 - code)

/-- The message of a fault of the operating system. -/
def message : IO.Error → String
  | .noFileOrDirectory .. => Disk.Fault.missing.message
  | .permissionDenied .. => "Permission denied (os error 13)"
  | .inappropriateType _ code _ =>
    if faultNumber code = 21 then Disk.Fault.isDirectory.message
    else Disk.Fault.notDirectory.message
  | .invalidArgument _ code details =>
    if faultNumber code = 40 then Disk.Fault.manyLinks.message
    else if faultNumber code = 36 then Disk.Fault.nameTooLong.message
    else details
  | other => toString other

/-- The entry of the disk at a path. -/
def entry (path : Path) : IO.FS.DirEntry := ⟨⟨String.ofList path.lossyText⟩, ""⟩

/-- Copies a file. -/
def copyFile (path : Path) : IO MemoryNode := do
  match ← (IO.FS.readBinFile (entry path).root).toBaseIO with
  | .error fault => return .unreadable (message fault)
  | .ok bytes =>
    match Utf8.decode? bytes.toList with
    | some text => return .file text
    | none => return .unreadable Disk.notText

/-- Copies what is at a path and below it; of the files, those that are wanted are copied with their
    text. -/
partial def copyTree (wanted : Path → Bool) (tree : MemoryTree) (path : Path) : IO MemoryTree := do
  match ← ((entry path).root.metadata).toBaseIO with
  | .error fault => return tree.insert path (.unstatable (message fault))
  | .ok found =>
    match found.type with
    | .file => return tree.insert path (← if wanted path then copyFile path else pure (.file []))
    | .dir =>
      match ← ((entry path).root.readDir).toBaseIO with
      | .error fault => return tree.insert path (.unlistable (message fault))
      | .ok entries =>
        let names := (entries.toList.map (·.fileName.toList)).mergeSort Disk.nameBefore
        let tree := tree.insert path (.directory names)
        names.foldlM (fun tree name => copyTree wanted tree (path.join (.ofText name))) tree
    | _ => return tree.insert path .other

/-- Copies what a check looks at: its tree, and its configuration file. -/
def copyFor (c : Check) : IO MemoryTree := do
  let files : MemoryTree ← match c.configFile with
    | some path => pure (MemoryTree.insert [] path (← copyFile path))
    | none => pure []
  match Check.loadConfig files.fileSystem c.configFile with
  | .ok config => return files ++ (← copyTree config.acceptsPath [] c.root)
  | .error _ => return files

end Main

end SnippetAudit

open SnippetAudit in
/-- Runs a command line, writes its output, and gives its exit status. -/
def main (arguments : List String) : IO UInt32 := do
  let tree ← match CommandLine.read arguments with
    | .ok c => Main.copyFor c
    | .error _ => pure []
  let exit := CommandLine.run tree.fileSystem tree.depth arguments
  if let some text := exit.message then IO.eprintln text
  let out ← IO.getStdout
  out.write (ByteArray.mk exit.output.toArray)
  out.flush
  return UInt32.ofNat exit.code
