import ProjectSetup.Json.Printer
import ProjectSetup.Json.Record
import Std.Data.TreeMap

/-!
# Extensions of a package manifest

An extension holds entries for three sections of a manifest, sorted by name.  `merge` puts one
extension over another, and `extendMembers` puts an extension over a manifest; in both cases the
entries of the extension that is put over the other one win.
-/

namespace ProjectSetup

open Json (Value Members RecordField)

/-- The entries of a section, sorted by name. -/
abbrev Section := Std.TreeMap String String

/-- Entries for the sections of a manifest. -/
structure Extension where
  dependencies : Section := ∅
  devDependencies : Section := ∅
  scripts : Section := ∅

namespace Extension

/-- The sections with their names, in order. -/
def sections (extension : Extension) : List (String × Section) :=
  [("dependencies", extension.dependencies), ("devDependencies", extension.devDependencies),
    ("scripts", extension.scripts)]

/-- Puts `top` over `base`. -/
def merge (base top : Extension) : Extension where
  dependencies := base.dependencies.insertMany top.dependencies.toList
  devDependencies := base.devDependencies.insertMany top.devDependencies.toList
  scripts := base.scripts.insertMany top.scripts.toList

/-- The entries of a section as members of an object. -/
def members (entries : Section) : Members :=
  entries.toList.map fun (name, entry) => (name, .string entry)

/-- The extension as a JSON value, without the sections that are empty. -/
def toJson (extension : Extension) : Value :=
  .object <| (extension.sections.filter fun (_, entries) => !entries.isEmpty).map
    fun (name, entries) => (name, .object (members entries))

/-- A field whose entries `set` puts into the extension. -/
def field (name : String) (set : Extension → Section → Extension) : RecordField Extension where
  name := name
  read extension text := do
    let add (key entry : String) (entries : Section) : Section := entries.insert key entry
    let (entries, rest) ← Json.readMap Json.readText add ∅ text
    return (set extension entries, rest)

/-- The fields of an extension, in order. -/
def fields : List (RecordField Extension) :=
  [field "dependencies" fun extension entries => { extension with dependencies := entries },
    field "devDependencies" fun extension entries => { extension with devDependencies := entries },
    field "scripts" fun extension entries => { extension with scripts := entries }]

/-- Reads the text of an extension. -/
def parse (text : String) : Except Json.Error Extension :=
  Json.readWhole (Json.readRecord "struct PackageExtension" fields {}) text

/-- Puts the entries of a section over a manifest; the section is created if there are entries and
it is absent.  Where it is there and no object, its name is given. -/
def extendSection (manifest : Members) (name : String) (entries : Section) :
    Except String Members :=
  if entries.isEmpty then .ok manifest
  else
    match (manifest.get? name).getD (.object []) with
    | .object old => .ok (manifest.insert name (.object (Members.overlay old (members entries))))
    | _ => .error name

/-- Puts an extension over a manifest; where one of its sections is no object, the name of the
first such section is given. -/
def extendMembers (extension : Extension) (manifest : Members) : Except String Members :=
  extension.sections.foldlM (fun manifest (name, entries) => extendSection manifest name entries)
    manifest

end Extension

end ProjectSetup
