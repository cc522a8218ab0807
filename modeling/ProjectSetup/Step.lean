import ProjectSetup.ConfigEdit
import ProjectSetup.LineEdit
import ProjectSetup.Report
import ProjectSetup.Storage

/-!
# Steps: edits on the files of a project

A step is one edit on one file of a project, with a label for messages and perhaps a file that has
to be there before.  `Step.run` reads the file, applies the edit and writes the file back if the
edit rewrote it.
-/

namespace ProjectSetup

/-- An edit on a file. -/
inductive FileEdit where
  | lines (edit : LineEdit)
  | config (edit : ConfigEdit)
deriving Repr

/-- An edit on a file of a project. -/
structure Step where
  /-- A short name of the step. -/
  label : String
  /-- The file that is edited, below the root of the project. -/
  file : String
  /-- A file that has to be there, or else the step is skipped. -/
  requires : Option String := none
  edit : FileEdit
deriving Repr

namespace Step

/-- What an edit makes of a file, where `write` writes a new content. -/
def finish {α : Type} (tree : Tree) (write : α → Tree × Except Failure Unit) :
    Edited α → Tree × Except Failure Verdict
  | .rewritten content =>
    let (tree, result) := write content
    (tree, result.map fun () => .applied)
  | .alreadyApplied => (tree, .ok .alreadyApplied)
  | .skipped reason => (tree, .ok (.skipped reason))

/-- Applies an edit to the file at a place. -/
def editAt (place : Place) (tree : Tree) : FileEdit → Tree × Except Failure Verdict
  | .lines edit =>
    match tree.readLines place with
    | .error failure => (tree, .error failure)
    | .ok lines => finish tree (tree.writeLines place) (edit.apply lines)
  | .config edit =>
    match tree.readConfig place with
    | .error failure => (tree, .error failure)
    | .ok (.error why) => (tree, .ok (.skipped (.configUnreadable why)))
    | .ok (.ok config) => finish tree (tree.writeConfig place) (edit.apply config)

/-- The file that the step needs and that is not there. -/
def missingFile? (root : Place) (tree : Tree) (step : Step) : Option String :=
  step.requires.filter fun file => !tree.has (root.resolve file).parts

/-- Runs the step on the project below `root`. -/
def run (root : Place) (tree : Tree) (step : Step) : Tree × Except Failure Verdict :=
  match step.missingFile? root tree with
  | some file => (tree, .ok (.skipped (.prerequisiteMissing file)))
  | none => editAt (root.resolve step.file) tree step.edit

end Step

end ProjectSetup
