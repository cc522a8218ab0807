import ProjectSetup.Proofs.InPlace
import ProjectSetup.Proofs.ProjectFile

/-!
# The parts of a setup

A setup extends the manifest, writes the files that are made from templates, and runs the steps of
its plan.  The first two leave the files that the steps edit alone, but for the plugin module, and a
setup that fails has come through none or some of its parts.

* `frame_extendManifest`, `frame_renderFiles`, `sightOf_runSteps`: what each part leaves alone.
* `invariant_setup`: what every part keeps is kept by a setup.
* `exists_of_run`: a setup comes to its steps, or fails before.
* `exists_of_run_ok`, `run_of_parts`: the parts of a setup that comes to its end.
-/

namespace ProjectSetup

variable {root : Place} {tree tree' : Tree} {here : List String} {options : Options}

namespace Setup

/-- The files that are made from templates, whatever the options are. -/
def rendered : List String :=
  [Plan.pluginFile, "src/App.vue", "src/views/Home.vue", "src/components/HelloWorld.vue"]

theorem mem_allFiles_of_mem_rendered {file : String} (h : file ∈ rendered) : file ∈ allFiles := by
  revert file
  decide

theorem mem_rendered_of_mem_files (options : Options) (router : Bool) :
    ∀ f ∈ files options router, f.1 ∈ rendered := by
  rw [files]
  split_ifs <;> simp [rendered]

theorem file_mem_allFiles (options : Options) (router : Bool) :
    ∀ f ∈ files options router, f.1 ∈ allFiles := fun f hf =>
  mem_allFiles_of_mem_rendered (mem_rendered_of_mem_files options router f hf)

theorem plugin_mem_files (options : Options) (router : Bool) :
    (Plan.pluginFile, Template.plugin options) ∈ files options router := by
  rw [files]
  exact List.mem_append_left _ (List.mem_singleton_self _)

theorem nodup_files (options : Options) (router : Bool) : ((files options router).map Prod.fst).Nodup := by
  rw [files]
  split_ifs <;> simp [Plan.pluginFile]

end Setup

open Setup (allFiles rendered files renderFiles writeFiles)

/-! ### The manifest -/

theorem resolve_manifest (root : Place) :
    root.resolve "package.json" = root.join "package.json".toList := by
  have hnames : Path.names (Path.dropDotSlash "package.json".toList) = ["package.json".toList] := by
    decide
  rw [Place.resolve, hnames]
  rfl

/-- What extending the manifest can come to. -/
inductive ManifestOutcome (root : Place) (tree : Tree) (extension : Extension) :
    Tree × Except Failure Bool → Prop where
  | failed {failure : Failure} : ManifestOutcome root tree extension (tree, .error failure)
  | same : extension.newMembers? tree (root.resolve "package.json") = .ok none →
    ManifestOutcome root tree extension (tree, .ok false)
  | written {new : Json.Members} {tree' : Tree} {result : Except Failure Unit} :
    extension.newMembers? tree (root.resolve "package.json") = .ok (some new) →
    tree.writeText (root.resolve "package.json") (Extension.manifestText new) = (tree', result) →
    ManifestOutcome root tree extension (tree', result.map fun () => true)

theorem outcome_extendManifest (root : Place) (tree : Tree) (extension : Extension) :
    ManifestOutcome root tree extension (extension.extendManifest root tree) := by
  rw [Extension.extendManifest, ← resolve_manifest]
  dsimp only
  cases hnew : extension.newMembers? tree (root.resolve "package.json") with
  | error failure => exact .failed
  | ok new? =>
    cases new? with
    | none => exact .same hnew
    | some new => exact .written hnew rfl

/-- **What extending the manifest leaves alone.** -/
theorem frame_extendManifest (extension : Extension) (hlead : tree.LeadsTo root.parts here) :
    (extension.extendManifest root tree).1.LeadsTo root.parts here ∧
      ∀ other ∈ allFiles, other ≠ "package.json" →
        (extension.extendManifest root tree).1.sightOf root other = tree.sightOf root other := by
  have hmem : "package.json" ∈ allFiles := by decide
  have hout := outcome_extendManifest root tree extension
  generalize extension.extendManifest root tree = run at hout
  cases hout with
  | failed => exact ⟨hlead, fun _ _ _ => rfl⟩
  | same => exact ⟨hlead, fun _ _ _ => rfl⟩
  | written _ hwrite =>
    obtain ⟨hlead', hothers, -⟩ := writeText_spec hlead (isPlain_of_mem_allFiles hmem) hwrite
    exact ⟨hlead', fun other hother hne => hothers other (isPlain_of_mem_allFiles hother)
      (apart_of_mem_allFiles hmem hother hne)⟩

/-! ### The files that are made from templates -/

theorem tree_renderFiles : (renderFiles root options tree).1 =
    (writeFiles root tree
      (files options (tree.has (root.resolve Setup.routerFile).parts))).1 := by
  rw [renderFiles]

theorem result_renderFiles_iff {paths : List String} :
    (renderFiles root options tree).2 = .ok paths ↔
      (writeFiles root tree
        (files options (tree.has (root.resolve Setup.routerFile).parts))).2 = .ok () ∧
      paths = (files options (tree.has (root.resolve Setup.routerFile).parts)).map Prod.fst := by
  rw [renderFiles]
  dsimp only
  cases (writeFiles root tree
      (files options (tree.has (root.resolve Setup.routerFile).parts))).2 with
  | error failure => simp [Except.map]
  | ok _ => simp [Except.map, eq_comm]

/-- **What writing the files that are made from templates leaves alone.** -/
theorem frame_renderFiles (options : Options) (hlead : tree.LeadsTo root.parts here) :
    (renderFiles root options tree).1.LeadsTo root.parts here ∧
      ∀ other ∈ allFiles, other ∉ rendered →
        (renderFiles root options tree).1.sightOf root other = tree.sightOf root other := by
  have hframe := frame_writeFiles hlead (Setup.file_mem_allFiles options
    (tree.has (root.resolve Setup.routerFile).parts))
  rw [tree_renderFiles]
  refine ⟨hframe.1, fun other hother hnot => hframe.2 other hother fun hin => hnot ?_⟩
  obtain ⟨f, hf, rfl⟩ := List.mem_map.1 hin
  exact Setup.mem_rendered_of_mem_files _ _ f hf

theorem isProject_of_sightOf (hproject : IsProject root here tree)
    (hlead : tree'.LeadsTo root.parts here)
    (hsame : tree'.sightOf root Plan.babelConfig = tree.sightOf root Plan.babelConfig) :
    IsProject root here tree' := by
  refine ⟨hlead, fun text? htext => hproject.integral text? ?_⟩
  rw [← htext, Tree.textOf_eq_of_sightOf hsame]

/-- A project without a Babel configuration. -/
theorem isProject_of_textOf_none (hlead : tree.LeadsTo root.parts here)
    (hnone : tree.textOf root Plan.babelConfig = .ok none) : IsProject root here tree := by
  refine ⟨hlead, fun text? htext value hvalue => ?_⟩
  rw [hnone] at htext
  obtain rfl := Except.ok.inj htext
  obtain rfl := Except.ok.inj hvalue
  exact trivial

/-- The first two parts keep a project one, also if they fail. -/
theorem isProject_extendManifest (extension : Extension) (hproject : IsProject root here tree) :
    IsProject root here (extension.extendManifest root tree).1 :=
  have hframe := frame_extendManifest extension hproject.leadsTo
  isProject_of_sightOf hproject hframe.1 (hframe.2 Plan.babelConfig (by decide) (by decide))

theorem isProject_renderFiles (options : Options) (hproject : IsProject root here tree) :
    IsProject root here (renderFiles root options tree).1 :=
  have hframe := frame_renderFiles options hproject.leadsTo
  isProject_of_sightOf hproject hframe.1 (hframe.2 Plan.babelConfig (by decide) (by decide))

/-- **What the steps leave alone**: the files of the project that none of them is on. -/
theorem sightOf_runSteps {steps : List Step} {file : String}
    (hsteps : ∀ step ∈ steps, step.file ∈ Plan.files) (hfile : file ∈ allFiles)
    (hnot : file ∉ Plan.files) (hlead : tree.LeadsTo root.parts here) :
    (runSteps root tree steps).tree.sightOf root file = tree.sightOf root file := by
  refine (invariant_runSteps (P := fun mid => mid.LeadsTo root.parts here ∧
    mid.sightOf root file = tree.sightOf root file) (fun step hstep mid hmid => ?_)
    ⟨hlead, rfl⟩).2
  have hmem := hsteps step hstep
  have hne : file ≠ step.file := fun heq => hnot (heq ▸ hmem)
  refine ⟨(frame_run hmid.1 hmem).leadsTo, ?_⟩
  rw [sightOf_run hmid.1 (mem_allFiles_of_mem_files hmem) hfile hne, hmid.2]

/-! ### All parts -/

/-- A setup comes to its steps, or fails before; until then only the manifest and the files that are
made from templates have changed. -/
theorem exists_of_run (options : Options) (hlead : tree.LeadsTo root.parts here) :
    ∃ written : Tree, written.LeadsTo root.parts here ∧
      (∀ other ∈ allFiles, other ≠ "package.json" → other ∉ rendered →
        written.sightOf root other = tree.sightOf root other) ∧
      (((∃ failure, (Setup.run root options tree).result = .error failure) ∧
          (Setup.run root options tree).tree = written) ∨
        ((Setup.run root options tree).result =
            (runPass root (Plan.steps options) written).result ∧
          (Setup.run root options tree).tree =
            (runPass root (Plan.steps options) written).tree)) := by
  have hextended := frame_extendManifest (Plan.extension options) hlead
  rw [Setup.run]
  rcases hmanifest : (Plan.extension options).extendManifest root tree with
    ⟨extended, failure | changed⟩
  · rw [hmanifest] at hextended
    exact ⟨extended, hextended.1, fun other hother hne _ => hextended.2 other hother hne,
      .inl ⟨⟨failure, rfl⟩, rfl⟩⟩
  · rw [hmanifest] at hextended
    have hwritten := frame_renderFiles options hextended.1
    have hsame : ∀ other ∈ allFiles, other ≠ "package.json" → other ∉ rendered →
        (renderFiles root options extended).1.sightOf root other = tree.sightOf root other :=
      fun other hother hne hnot =>
        (hwritten.2 other hother hnot).trans (hextended.2 other hother hne)
    refine ⟨_, hwritten.1, hsame, ?_⟩
    dsimp only
    rcases renderFiles root options extended with ⟨written, failure | paths⟩
    · exact .inl ⟨⟨failure, rfl⟩, rfl⟩
    · exact .inr ⟨rfl, rfl⟩

/-- The parts of a setup that comes to its end. -/
structure Parts (root : Place) (options : Options) (tree extended written : Tree) (changed : Bool)
    (report : Report) : Prop where
  manifest : (Plan.extension options).extendManifest root tree = (extended, .ok changed)
  tree : (renderFiles root options extended).1 = written
  result : ∃ paths, (renderFiles root options extended).2 = .ok paths
  report : (runPass root (Plan.steps options) written).result = .ok report

theorem exists_of_run_ok {report : Report} (h : (Setup.run root options tree).result = .ok report) :
    ∃ extended written changed, Parts root options tree extended written changed report ∧
      (Setup.run root options tree).tree = (runPass root (Plan.steps options) written).tree := by
  rw [Setup.run] at h ⊢
  rcases hmanifest : (Plan.extension options).extendManifest root tree with
    ⟨extended, failure | changed⟩
  · rw [hmanifest] at h
    cases h
  · rw [hmanifest] at h
    dsimp only at h ⊢
    rcases hrender : renderFiles root options extended with ⟨written, failure | paths⟩
    · rw [hrender] at h
      cases h
    · rw [hrender] at h
      dsimp only at h ⊢
      exact ⟨extended, written, changed,
        ⟨hmanifest, by rw [hrender], ⟨paths, by rw [hrender]⟩, h⟩, rfl⟩

theorem run_of_parts {extended written : Tree} {changed : Bool} {report : Report}
    (h : Parts root options tree extended written changed report) :
    (Setup.run root options tree).result = .ok report ∧
      (Setup.run root options tree).tree = (runPass root (Plan.steps options) written).tree := by
  obtain ⟨hmanifest, rfl, ⟨paths, hpaths⟩, hreport⟩ := h
  rw [Setup.run, hmanifest]
  dsimp only
  rcases hrender : renderFiles root options extended with ⟨written, failure | paths'⟩
  · rw [hrender] at hpaths
    cases hpaths
  · rw [hrender] at hreport
    dsimp only at hreport ⊢
    exact ⟨hreport, rfl⟩

/-- **What every part keeps is kept by a setup**, also by one that fails. -/
theorem invariant_setup {P : Tree → Prop} (options : Options)
    (hmanifest : ∀ tree, P tree → P ((Plan.extension options).extendManifest root tree).1)
    (hrender : ∀ tree, P tree → P (renderFiles root options tree).1)
    (hstep : ∀ step ∈ Plan.steps options, ∀ tree, P tree → P (step.run root tree).1) (h : P tree) :
    P (Setup.run root options tree).tree := by
  have hextended := hmanifest tree h
  rw [Setup.run]
  rcases hrun : (Plan.extension options).extendManifest root tree with
    ⟨extended, failure | changed⟩
  · rw [hrun] at hextended
    exact hextended
  · rw [hrun] at hextended
    have hwritten := hrender extended hextended
    dsimp only
    rcases hfiles : renderFiles root options extended with ⟨written, failure | paths⟩
    · rw [hfiles] at hwritten
      exact hwritten
    · rw [hfiles] at hwritten
      dsimp only
      rw [tree_runPass]
      exact invariant_runSteps hstep hwritten

end ProjectSetup
