import ProjectSetup.CommandLine

/-!
# The command

The files that the command line can touch are read into a file tree, the command is carried out on
the tree, and what changed is written back.
-/

namespace ProjectSetup.Command

/-- The path of the names that lead from the root of the file system. -/
def absolute (names : List String) : String :=
  "/" ++ "/".intercalate names

/-- What stands where the names lead in the file system. -/
def see (names : List String) : IO Sight := do
  try
    return .file (Content.ofBytes (← IO.FS.readBinFile (absolute names)))
  catch
    | .noFileOrDirectory _ _ _ => return .missing
    | .inappropriateType _ 20 _ => return .belowFile
    | .inappropriateType _ _ _ => return .directory
    | failure => throw failure

/-- The tree with what stands where the names lead in the file system. -/
def addSight (tree : Tree) (names : List String) : IO Tree := do
  match ← see names with
  | .file content =>
    match tree.write content names with
    | .ok tree => return tree
    | .error _ => return tree
  | .directory => return tree.makeDirectory names
  | .missing | .belowFile => return tree

/-- The tree with what stands at a path of the file system and on the way to it. -/
def addPath (tree : Tree) (here : List String) : List PathPart → IO Tree
  | [] => addSight tree here
  | part :: parts => do addPath (← addSight tree here) (part.applyTo here) parts

/-- Writes a change to the file system. -/
def perform (change : Tree.Change) : IO Unit := do
  match change.content with
  | none => IO.FS.createDirAll ("/" ++ change.path)
  | some content => IO.FS.writeBinFile ("/" ++ change.path) content.bytes

end ProjectSetup.Command

/-- Runs the command and gives its exit code.  The log is not written out. -/
def main (words : List String) : IO UInt32 := do
  let current := ProjectSetup.Place.ofPath [] (toString (← IO.currentDir))
  let home := ProjectSetup.Place.ofPath current.parts ((← IO.getEnv "HOME").getD "~")
  let session : ProjectSetup.CommandLine.Session := ⟨home, current.parts⟩
  let places := ProjectSetup.CommandLine.places session words
  let tree ← places.foldlM
    (fun tree place => ProjectSetup.Command.addPath tree [] place.parts) ProjectSetup.Tree.empty
  let ending := ProjectSetup.CommandLine.run session words tree
  (tree.changes ending.tree).forM ProjectSetup.Command.perform
  IO.print ending.output
  IO.eprint ending.errors
  return ending.code.toUInt32
