import ProjectSetup.Manifest
import ProjectSetup.Pass
import ProjectSetup.Plan
import ProjectSetup.Template

/-!
# Setting up a project

A setup extends the package manifest, writes the files that are made from templates, and then
runs the steps that edit the files of the project.  What has been written before a failure stays.
-/

namespace ProjectSetup

namespace Setup

/-- The file whose presence means that the project has a router. -/
def routerFile : String := "src/router.js"

/-- The files that are made from templates, with their contents. -/
def files (options : Options) (router : Bool) : List (String × String) :=
  [(Plan.pluginFile, Template.plugin options)] ++
  if options.replaceComponents then
    [("src/App.vue", Template.app router),
      if router then ("src/views/Home.vue", Template.home)
      else ("src/components/HelloWorld.vue", Template.helloWorld)]
  else []

/-- Writes files one after the other, up to the first that cannot be written. -/
def writeFiles (root : Place) (tree : Tree) :
    List (String × String) → Tree × Except Failure Unit
  | [] => (tree, .ok ())
  | (path, text) :: rest =>
    match tree.writeText (root.resolve path) text with
    | (tree, .error failure) => (tree, .error failure)
    | (tree, .ok ()) => writeFiles root tree rest

/-- Writes the files that are made from templates and gives their paths. -/
def renderFiles (root : Place) (options : Options) (tree : Tree) :
    Tree × Except Failure (List String) :=
  let router := tree.has (root.resolve routerFile).parts
  let files := files options router
  let (tree, result) := writeFiles root tree files
  (tree, result.map fun () => files.map Prod.fst)

/-- Sets up the project below `root`. -/
def run (root : Place) (options : Options) (tree : Tree) : Run Report :=
  match (Plan.extension options).extendManifest root tree with
  | (tree, .error failure) => ⟨tree, [], .error failure⟩
  | (tree, .ok changed) =>
    let extended := if changed then [⟨.info, "package.json extended"⟩] else []
    match renderFiles root options tree with
    | (tree, .error failure) => ⟨tree, extended, .error failure⟩
    | (tree, .ok paths) =>
      let rendered := paths.map fun path => ⟨.info, "rendered " ++ path⟩
      let pass := runPass root (Plan.steps options) tree
      { pass with log := extended ++ rendered ++ pass.log }

end Setup

end ProjectSetup
