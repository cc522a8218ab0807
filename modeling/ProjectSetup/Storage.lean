import ProjectSetup.ConfigModule.Basic
import ProjectSetup.Failure
import ProjectSetup.Options
import ProjectSetup.Route
import ProjectSetup.Text.Search

/-!
# Reading and writing the files of a tree

Files are read and written at places of a tree, as texts, as lines or as config modules.  A file
that is not there is read as no text; its lines are none, and a config module that is not there
exports the empty object.  A write gives the tree it leaves beside what came of it.
-/

namespace ProjectSetup

namespace Tree

/-- The text of a file, if there is one at the place. -/
def readText? (tree : Tree) (place : Place) : Except Failure (Option String) :=
  match tree.sight place.parts with
  | .file (.text text) => .ok (some text)
  | .file (.binary _) => .error (.file place.shown .notUtf8)
  | .directory => .error (.file place.shown .isADirectory)
  | .belowFile => .error (.file place.shown .notADirectory)
  | .missing => .ok none

/-- The failure of a write at a place. -/
def writeFailure (place : Place) : WriteFault → Failure
  | .ontoDirectory => .file place.shown .isADirectory
  | .parentIsFile => .file place.parentShown .fileInTheWay
  | .ancestorIsFile => .file place.parentShown .notADirectory
  | .throughFile => .file place.shown .notADirectory
  | .throughNothing => .file place.shown .missing
  | .unnamed => .file place.shown .busy

/-- Writes a text as the file at the place. -/
def writeText (tree : Tree) (place : Place) (text : String) : Tree × Except Failure Unit :=
  let (tree, result) := tree.putFile (.text text) place.parts
  (tree, result.mapError (writeFailure place))

/-- The lines of the file at the place. -/
def readLines (tree : Tree) (place : Place) : Except Failure (List String) := do
  match ← tree.readText? place with
  | some text => return Text.splitLines text
  | none => return []

/-- Writes the lines as the file at the place. -/
def writeLines (tree : Tree) (place : Place) (lines : List String) :
    Tree × Except Failure Unit :=
  tree.writeText place (Text.joinLines lines)

/-- What the config module at the place exports, or why it cannot be read as a module. -/
def readConfig (tree : Tree) (place : Place) :
    Except Failure (Except Unreadable Json.Value) := do
  match ← tree.readText? place with
  | some text => return ConfigModule.parse text
  | none => return .ok (.object [])

/-- Writes a module that exports the config as the file at the place. -/
def writeConfig (tree : Tree) (place : Place) (config : Json.Value) :
    Tree × Except Failure Unit :=
  tree.writeText place (ConfigModule.render config)

/-- The options that the file at the place holds. -/
def readOptions (tree : Tree) (place : Place) : Except Failure Options := do
  match ← tree.readText? place with
  | some text => (Options.parse text).mapError .json
  | none => .error (.file place.shown .missing)

end Tree

end ProjectSetup
