import ProjectSetup.Extension
import ProjectSetup.Storage

/-!
# The package manifest of a project

The manifest is the file `package.json` below the root of the project.  An extension is put over
it as a whole or not at all, and a manifest that the extension does not change is not written.
-/

namespace ProjectSetup

open Json (Value)

namespace Extension

/-- The manifest at a place; one that is not there is empty. -/
def readManifest (tree : Tree) (place : Place) : Except Failure Json.Members := do
  match ← tree.readText? place with
  | none => return []
  | some text =>
    match Value.parse text with
    | .error error => .error (.json error)
    | .ok (.object members) => return members
    | .ok _ => .error (.manifestNotObject place.shown)

/-- The members of the manifest at a place under the extension, if they are other members than it
has. -/
def newMembers? (extension : Extension) (tree : Tree) (place : Place) :
    Except Failure (Option Json.Members) := do
  let manifest ← readManifest tree place
  match extension.extendMembers manifest with
  | .error name => .error (.sectionNotObject name place.shown)
  | .ok extended =>
    return if (Value.object extended).same (.object manifest) then none else some extended

/-- The text of a manifest. -/
def manifestText (members : Json.Members) : String :=
  String.ofList ((Value.object members).prettyText 0 ++ ['\n'])

/-- Puts the extension over the package manifest below `root`, and tells whether that changed
it; it is only written if it did. -/
def extendManifest (extension : Extension) (root : Place) (tree : Tree) :
    Tree × Except Failure Bool :=
  let place := root.join "package.json".toList
  match extension.newMembers? tree place with
  | .error failure => (tree, .error failure)
  | .ok none => (tree, .ok false)
  | .ok (some members) =>
    let (tree, result) := tree.writeText place (manifestText members)
    (tree, result.map fun () => true)

end Extension

end ProjectSetup
