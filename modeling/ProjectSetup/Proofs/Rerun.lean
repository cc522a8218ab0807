import ProjectSetup.Proofs.InPlace
import ProjectSetup.Proofs.Manifest
import ProjectSetup.Proofs.Setup

/-!
# Setups that are run again

A setup that skips nothing leaves a project that the same setup leaves as it is.  The manifest that
was extended takes the extension without a change, and the files that are made from templates are
written with the texts they have, but for the plugin module: that is made anew and edited anew, by
steps that see the same texts as in the first run and so come to the same end.  The other steps find
themselves in place.

* `run_again`: what a step does on a tree with the same plugin module.
* `runSteps_again`: what a pass does that was run before.
* `stable_of_setup`: what a second setup does.
-/

namespace ProjectSetup

open Json (Value)

variable {root : Place} {tree tree' mid : Tree} {here : List String} {options : Options}
  {step : Step} {steps : List Step} {events : List Event} {text : String}

/-- None of the steps was skipped. -/
def Unskipped (events : List Event) : Prop :=
  ∀ event ∈ events, ∀ reason, event.verdict ≠ .skipped reason

theorem skipped_eq_nil_iff {report : Report} : report.skipped = [] ↔ Unskipped report.events := by
  rw [Report.skipped, List.filterMap_eq_nil_iff, Unskipped]
  refine forall₂_congr fun event _ => ?_
  cases event.verdict <;> simp

/-! ### Steps -/

theorem run_of_textOf {text? : Option String} (hmissing : step.missingFile? root tree = none)
    (htext : tree.textOf root step.file = .ok text?) :
    step.run root tree = Step.finish tree (tree.writeText (root.resolve step.file))
      (step.edit.onText text?) := by
  have hread : tree.readText? (root.resolve step.file) = .ok text? := htext
  rw [Step.run, hmissing]
  dsimp only
  rw [editAt_eq, hread]

/-- The plugin module has the text. -/
abbrev HasPlugin (root : Place) (text : String) (tree : Tree) : Prop :=
  tree.textOf root Plan.pluginFile = .ok (some text)

/-- Another tree with the same plugin module, which differs from the tree in that module alone. -/
structure PluginApart (root : Place) (here : List String) (first before after : Tree) : Prop where
  leadsTo : after.LeadsTo root.parts here
  plugin : ∃ text, HasPlugin root text first ∧ HasPlugin root text after
  sameBut : Tree.SameBut (here ++ fileNames Plan.pluginFile) before after

/-- A step on the plugin module does the same on every tree with the same plugin module. -/
theorem run_again_plugin {verdict : Verdict} (h : step ∈ Plan.steps options)
    (hfile : step.file = Plan.pluginFile) (hlead : tree.LeadsTo root.parts here)
    (hlead' : tree'.LeadsTo root.parts here) (htext : HasPlugin root text tree)
    (htext' : HasPlugin root text tree') (hrun : step.run root tree = (mid, .ok verdict))
    (hskip : ∀ reason, verdict ≠ .skipped reason) :
    ∃ mid', step.run root tree' = (mid', .ok verdict) ∧ PluginApart root here mid tree' mid' := by
  have hmem := file_mem_files h
  have hplugin : ∀ {tree : Tree} {text : String}, HasPlugin root text tree ↔
      tree.textOf root step.file = .ok (some text) := by
    intro tree text
    rw [hfile]
  rw [hplugin] at htext htext'
  have hmissing : step.missingFile? root tree' = none := by
    rw [missingFile?_eq (fun _ => requires_eq h) htext']
    simp
  have hout := outcome_run hlead hmem
  rw [hrun] at hout
  cases hout with
  | lacking => exact absurd rfl (hskip _)
  | skipped => exact absurd rfl (hskip _)
  | inPlace _ hold hedit =>
    rw [htext] at hold
    obtain rfl := Except.ok.inj hold
    refine ⟨tree', ?_, hlead', ⟨text, hplugin.2 htext, hplugin.2 htext'⟩, .refl _ _⟩
    rw [run_of_textOf hmissing htext', hedit]
    rfl
  | @written _ _ new _ hold hedit hnew =>
    rw [htext] at hold
    obtain rfl := Except.ok.inj hold
    obtain ⟨mid', hwrite, hend, hsight, hsame⟩ :=
      writeText_again hlead' (isPlain_of_mem_files hmem) (sightOf_of_textOf htext') new
    rw [hfile] at hsame
    refine ⟨mid', ?_, hend, ⟨new, hplugin.2 hnew, hplugin.2 (textOf_of_sightOf hsight)⟩, hsame⟩
    rw [run_of_textOf hmissing htext', hedit, Step.finish, hwrite]
    rfl

/-- **What a step does** on a tree with the same plugin module, where it is in place if it is on
another file. -/
theorem run_again {verdict : Verdict} (h : step ∈ Plan.steps options)
    (hlead : tree.LeadsTo root.parts here) (hlead' : tree'.LeadsTo root.parts here)
    (htext : HasPlugin root text tree) (htext' : HasPlugin root text tree')
    (hrun : step.run root tree = (mid, .ok verdict)) (hskip : ∀ reason, verdict ≠ .skipped reason)
    (hplace : step.file ≠ Plan.pluginFile → InPlace root step.file step.edit tree') :
    ∃ mid' verdict', step.run root tree' = (mid', .ok verdict') ∧
      (∀ reason, verdict' ≠ .skipped reason) ∧ PluginApart root here mid tree' mid' := by
  by_cases hfile : step.file = Plan.pluginFile
  · obtain ⟨mid', hrun', hapart⟩ := run_again_plugin h hfile hlead hlead' htext htext' hrun hskip
    exact ⟨mid', verdict, hrun', hskip, hapart⟩
  · have hrests : step.Rests root tree' := rests_of_not_applied hlead' (file_mem_files h)
      (run_of_inPlace h (hplace hfile)) (by simp)
    obtain ⟨verdict', -, hrun'⟩ := hrests
    have hverdict : verdict' = .alreadyApplied := by
      have := run_of_inPlace h (hplace hfile)
      rw [hrun'] at this
      exact Except.ok.inj this
    have hframe := frame_run hlead (file_mem_files h)
    rw [hrun] at hframe
    have hmid : HasPlugin root text mid := by
      rw [HasPlugin, hframe.textOf (by decide) (Ne.symm hfile)]
      exact htext
    exact ⟨tree', verdict', hrun', by simp [hverdict], hlead', ⟨text, hmid, htext'⟩, .refl _ _⟩

/-! ### Passes -/

/-- An edit on another file than the plugin module stays in place when that module is changed. -/
theorem inPlace_of_pluginApart {file : String} {edit : FileEdit} (hfile : file ∈ Plan.files)
    (hne : file ≠ Plan.pluginFile) (hlead : tree.LeadsTo root.parts here)
    (hlead' : tree'.LeadsTo root.parts here)
    (hsame : Tree.SameBut (here ++ fileNames Plan.pluginFile) tree tree')
    (hplace : InPlace root file edit tree) : InPlace root file edit tree' := by
  obtain ⟨text?, htext, hedit⟩ := hplace
  refine ⟨text?, ?_, hedit⟩
  rw [← htext]
  exact Tree.textOf_eq_of_sightOf
    (sightOf_of_sameBut hlead hlead' hsame (by decide) (mem_allFiles_of_mem_files hfile) hne)

/-- **What a pass does that was run before** on a tree with the same plugin module, where its other
steps are in place. -/
theorem runSteps_again (hsteps : ∀ step ∈ steps, step ∈ Plan.steps options)
    (hlead : tree.LeadsTo root.parts here) (hlead' : tree'.LeadsTo root.parts here)
    (htext : HasPlugin root text tree) (htext' : HasPlugin root text tree')
    (hok : (runSteps root tree steps).result = .ok events) (hskip : Unskipped events)
    (hplace : ∀ step ∈ steps, step.file ≠ Plan.pluginFile →
      InPlace root step.file step.edit tree') :
    (∃ events', (runSteps root tree' steps).result = .ok events' ∧ Unskipped events') ∧
      PluginApart root here (runSteps root tree steps).tree tree'
        (runSteps root tree' steps).tree := by
  induction steps generalizing tree tree' events text with
  | nil => exact ⟨⟨[], rfl, by simp [Unskipped]⟩, hlead', ⟨text, htext, htext'⟩, .refl _ _⟩
  | cons step steps ih =>
    have hstep := hsteps step List.mem_cons_self
    obtain ⟨mid, verdict, others, hrun, hrest, rfl⟩ := exists_of_runSteps_cons hok
    rw [Unskipped, List.forall_mem_cons] at hskip
    obtain ⟨mid', verdict', hrun', hskip', hlead'', ⟨new, hnew, hnew'⟩, hsame⟩ :=
      run_again hstep hlead hlead' htext htext' hrun hskip.1 (hplace step List.mem_cons_self)
    have hmid : mid.LeadsTo root.parts here := by
      have hframe := frame_run hlead (file_mem_files hstep)
      rw [hrun] at hframe
      exact hframe.leadsTo
    have hplace' : ∀ s ∈ steps, s.file ≠ Plan.pluginFile → InPlace root s.file s.edit mid' := by
      intro s hs hne
      exact inPlace_of_pluginApart (file_mem_files (hsteps s (List.mem_cons_of_mem _ hs))) hne
        hlead' hlead'' hsame (hplace s (List.mem_cons_of_mem _ hs) hne)
    obtain ⟨⟨events', hok', hall⟩, hend, hplugin, hsame'⟩ :=
      ih (fun s hs => hsteps s (List.mem_cons_of_mem _ hs)) hmid hlead'' hnew hnew' hrest
        hskip.2 hplace'
    rw [(runSteps_cons_ok hrun).1, (runSteps_cons_ok hrun').1, (runSteps_cons_ok hrun').2, hok']
    exact ⟨⟨_, rfl, List.forall_mem_cons.2 ⟨hskip', hall⟩⟩, hend, hplugin, hsame.trans hsame'⟩

/-- The steps on other files than the plugin module are in place after a pass that skips nothing. -/
theorem inPlace_of_unskipped (hfonts : ∀ font ∈ options.fonts, '\n' ∉ font.toList)
    (hproject : IsProject root here tree) (hstep : step ∈ Plan.steps options)
    (hfile : step.file ≠ Plan.pluginFile)
    (hok : (runSteps root tree (Plan.steps options)).result = .ok events)
    (hskip : Unskipped events) :
    InPlace root step.file step.edit (runSteps root tree (Plan.steps options)).tree := by
  obtain ⟨verdicts, hlength, htrail, rfl⟩ := trail_eq_of_ok hok
  -- the step is reached, and was not skipped
  obtain ⟨i, hi, rfl⟩ := List.getElem_of_mem hstep
  have hi' : i < verdicts.length := by omega
  have hverdict : verdicts[i] = .applied ∨ verdicts[i] = .alreadyApplied := by
    have hevent := hskip ⟨(Plan.steps options)[i].label, (Plan.steps options)[i].file, verdicts[i]⟩
      (List.mem_iff_getElem.2 ⟨i, by rw [List.length_zipWith]; omega, by rw [List.getElem_zipWith]⟩)
    cases hcase : verdicts[i] with
    | applied => exact .inl rfl
    | alreadyApplied => exact .inr rfl
    | skipped reason => exact absurd hcase (hevent reason)
  have hreached : ((Plan.steps options)[i], .ok verdicts[i]) ∈
      trail root tree (Plan.steps options) := by
    rw [htrail]
    exact List.mem_iff_getElem.2 ⟨i, by rw [List.length_zipWith]; omega, by
      rw [List.getElem_zipWith]⟩
  refine established_runSteps (P := IsProject root here) (fun _ hs _ h => isProject_run hs h)
    (fun s hs mid h hplace => ?_) (fun mid h hrun => ?_) hproject hreached
  · exact inPlace_run_of hs (file_mem_files hstep) h
      (fun hsame htext hedit hrew => inPlace_of_other_elsewhere hfonts hfonts hstep hs hsame hfile
        (integralText_of_isProject h htext) hedit hrew) hplace
  · exact inPlace_of_verdict_of hstep h
      (fun htext hrew => inPlace_of_applied_elsewhere hfonts hstep hfile
        (integralText_of_isProject h htext) hrew) hverdict hrun

/-! ### Setups -/

open Setup (files renderFiles writeFiles)

/-- A project whose manifest has no floating-point numbers either. -/
structure IsPackage (root : Place) (here : List String) (tree : Tree) : Prop
    extends IsProject root here tree where
  manifest : ∀ members, Extension.readManifest tree (root.join "package.json".toList) = .ok members →
    (Value.object members).Integral

/-- A manifest that was extended takes the extension without a change. -/
theorem extendManifest_again {extension : Extension} {extended : Tree} {changed : Bool}
    (hpackage : IsPackage root here tree)
    (hextend : extension.extendManifest root tree = (extended, .ok changed))
    (hsame : tree'.sightOf root "package.json" = extended.sightOf root "package.json") :
    extension.extendManifest root tree' = (tree', .ok false) := by
  have hnone : extension.newMembers? tree' (root.resolve "package.json") = .ok none := by
    have hread := Tree.textOf_eq_of_sightOf hsame
    have hout := outcome_extendManifest root tree extension
    rw [hextend] at hout
    generalize hresult : (Except.ok changed : Except Failure Bool) = result at hout
    cases hout with
    | failed => cases hresult
    | same hnew => rw [Extension.newMembers?_congr hread, hnew]
    | @written new _ result hnew hwrite =>
      cases result with
      | error failure => cases hresult
      | ok _ =>
        have hplain : IsPlain "package.json" := isPlain_of_mem_allFiles (by decide)
        obtain ⟨-, -, hself⟩ := writeText_spec hpackage.leadsTo hplain hwrite
        exact Extension.newMembers?_again hnew
          (by rw [resolve_manifest]; exact hpackage.manifest) (hread.trans hself)
  rw [Extension.extendManifest, ← resolve_manifest]
  dsimp only
  rw [hnone]

/-- What a setup leaves behind that the next one looks at: the files that were made from templates
have their texts, but for the plugin module, which was edited. -/
structure Rendered (root : Place) (here : List String) (options : Options) (router : Bool)
    (tree : Tree) : Prop where
  leadsTo : tree.LeadsTo root.parts here
  sameRouter : tree.has (root.resolve Setup.routerFile).parts = router
  plugin : ∃ text, HasPlugin root text tree
  others : ∀ f ∈ (files options router).tail, tree.textOf root f.1 = .ok (some f.2)

/-- The files that were made from templates are made again without a change, but for the plugin
module. -/
theorem renderFiles_again {router : Bool} (h : Rendered root here options router tree) :
    ∃ written, (∃ paths, renderFiles root options tree = (written, .ok paths)) ∧
      written.LeadsTo root.parts here ∧ HasPlugin root (Template.plugin options) written ∧
      Tree.SameBut (here ++ fileNames Plan.pluginFile) tree written := by
  obtain ⟨old, hold⟩ := h.plugin
  have hmem : ∀ f ∈ (files options router).tail, f.1 ∈ Setup.allFiles := fun f hf =>
    Setup.file_mem_allFiles options router f (List.mem_of_mem_tail hf)
  have hapart : ∀ f ∈ (files options router).tail, f.1 ≠ Plan.pluginFile := by
    have hnodup := Setup.nodup_files options router
    rw [files, List.singleton_append, List.map_cons, List.nodup_cons] at hnodup
    intro f hf heq
    refine hnodup.1 (List.mem_map.2 ⟨f, ?_, heq⟩)
    rwa [files, List.singleton_append, List.tail_cons] at hf
  -- the plugin module
  have hplain : IsPlain Plan.pluginFile := isPlain_of_mem_files (by decide)
  obtain ⟨mid, hwrite, hmid, hself, hsame⟩ :=
    writeText_again h.leadsTo hplain (sightOf_of_textOf hold) (Template.plugin options)
  -- the other files
  have hthere : ∀ f ∈ (files options router).tail, mid.textOf root f.1 = .ok (some f.2) := by
    intro f hf
    rw [← h.others f hf]
    exact Tree.textOf_eq_of_sightOf
      (sightOf_of_sameBut h.leadsTo hmid hsame (by decide) (hmem f hf) (hapart f hf))
  obtain ⟨hok, hend, hlook⟩ := writeFiles_again hmid hmem hthere
  have hfiles : writeFiles root tree (files options router) =
      writeFiles root mid (files options router).tail := by
    rw [files, List.singleton_append, writeFiles, hwrite]
    rfl
  refine ⟨(writeFiles root mid (files options router).tail).1, ⟨(files options router).map Prod.fst,
    ?_⟩, hend, ?_, hsame.trans fun names _ => hlook names⟩
  · rw [Prod.ext_iff, tree_renderFiles, result_renderFiles_iff, h.sameRouter, hfiles]
    exact ⟨rfl, hok, rfl⟩
  · refine textOf_of_sightOf ?_
    rw [sightOf_of_leadsTo hend hplain, hlook, ← sightOf_of_leadsTo hmid hplain, hself]

section

variable {extended written : Tree} {changed : Bool} {report : Report}
  (hlead : tree.LeadsTo root.parts here)
  (hparts : Parts root options tree extended written changed report)

include hlead hparts

theorem leadsTo_of_parts : extended.LeadsTo root.parts here ∧ written.LeadsTo root.parts here := by
  have hextended := (frame_extendManifest (Plan.extension options) hlead).1
  rw [hparts.manifest] at hextended
  have hwritten := (frame_renderFiles options hextended).1
  rw [hparts.tree] at hwritten
  exact ⟨hextended, hwritten⟩

/-- The files that are not made from templates and that no step is on. -/
theorem sightOf_of_parts {file : String} (hfile : file ∈ Setup.allFiles)
    (hrendered : file ∉ Setup.rendered) (hplan : file ∉ Plan.files) :
    (runSteps root written (Plan.steps options)).tree.sightOf root file =
      extended.sightOf root file := by
  obtain ⟨hextended, hwritten⟩ := leadsTo_of_parts hlead hparts
  have hsame := (frame_renderFiles options hextended).2 file hfile hrendered
  rw [hparts.tree] at hsame
  rw [sightOf_runSteps (fun _ => file_mem_files) hfile hplan hwritten, hsame]

/-- The files that are made from templates have their texts before the steps. -/
theorem textOf_of_parts :
    ∀ f ∈ files options (extended.has (root.resolve Setup.routerFile).parts),
      written.textOf root f.1 = .ok (some f.2) := by
  obtain ⟨hextended, -⟩ := leadsTo_of_parts hlead hparts
  obtain ⟨paths, hpaths⟩ := hparts.result
  have htexts := writeFiles_spec hextended (Setup.file_mem_allFiles options _)
    (Setup.nodup_files options _) (result_renderFiles_iff.1 hpaths).1
  rwa [← tree_renderFiles, hparts.tree] at htexts

theorem plugin_of_parts : HasPlugin root (Template.plugin options) written :=
  textOf_of_parts hlead hparts (Plan.pluginFile, Template.plugin options)
    (Setup.plugin_mem_files _ _)

/-- What a setup that comes to its end leaves behind. -/
theorem rendered_of_parts :
    Rendered root here options (extended.has (root.resolve Setup.routerFile).parts)
      (runSteps root written (Plan.steps options)).tree := by
  obtain ⟨-, hwritten⟩ := leadsTo_of_parts hlead hparts
  have hfiles : ∀ step ∈ Plan.steps options, step.file ∈ Plan.files := fun _ => file_mem_files
  refine ⟨leadsTo_runSteps hfiles hwritten, ?_, ?_, fun f hf => ?_⟩
  · exact Tree.has_of_sightOf (sightOf_of_parts hlead hparts (by decide) (by decide) (by decide))
  · obtain ⟨new, hnew⟩ :=
      exists_textThrough Plan.pluginFile (Plan.steps options) (Template.plugin options)
    refine ⟨new, ?_⟩
    rw [HasPlugin, ← hnew]
    exact textOf_runSteps (fun _ hs _ => requires_eq hs) hfiles (by decide) hwritten
      (result_runPass_eq_ok_iff.1 hparts.report) (plugin_of_parts hlead hparts)
  · have hin := List.mem_of_mem_tail hf
    have hmem := Setup.file_mem_allFiles options _ f hin
    have hplan : f.1 ∉ Plan.files := by
      have hall : ∀ file ∈ ["src/App.vue", "src/views/Home.vue", "src/components/HelloWorld.vue"],
          file ∉ Plan.files := by decide
      refine hall _ ?_
      revert hf
      rw [files]
      split_ifs <;> simp +contextual [or_imp]
    rw [Tree.textOf_eq_of_sightOf (sightOf_runSteps hfiles hmem hplan hwritten)]
    exact textOf_of_parts hlead hparts f hin

end

/-- **What a second setup does** after one that skips nothing: it skips nothing either, finds the
manifest extended, and leaves everything that stands in the tree as it is. -/
theorem stable_of_setup {report : Report} (hpackage : IsPackage root here tree)
    (hfonts : ∀ font ∈ options.fonts, '\n' ∉ font.toList)
    (hok : (Setup.run root options tree).result = .ok report) (hskip : report.skipped = []) :
    let first := (Setup.run root options tree).tree
    let second := Setup.run root options first
    (∃ report', second.result = .ok report' ∧ report'.skipped = []) ∧
      (∀ names, second.tree.look names = first.look names) ∧
      (Plan.extension options).extendManifest root first = (first, .ok false) := by
  obtain ⟨extended, written, changed, hparts, hfirst⟩ := exists_of_run_ok hok
  rw [hfirst, tree_runPass]
  have hlead := hpackage.leadsTo
  have hrendered := rendered_of_parts hlead hparts
  have hsteps := result_runPass_eq_ok_iff.1 hparts.report
  rw [skipped_eq_nil_iff] at hskip
  -- the manifest
  have hmanifest := extendManifest_again hpackage hparts.manifest
    (sightOf_of_parts hlead hparts (by decide) (by decide) (by decide))
  -- the files that are made from templates
  obtain ⟨written', ⟨paths, hpaths⟩, hlead', hplugin', hsame⟩ := renderFiles_again hrendered
  -- the steps
  have hproject : IsProject root here written := by
    have hkept := isProject_renderFiles options
      (isProject_extendManifest (Plan.extension options) hpackage.toIsProject)
    rwa [hparts.manifest, hparts.tree] at hkept
  obtain ⟨⟨events, hevents, hall⟩, hend, ⟨text, htext, htext'⟩, hsame'⟩ :=
    runSteps_again (fun _ hs => hs) hproject.leadsTo hlead' (plugin_of_parts hlead hparts) hplugin'
      hsteps hskip
      fun step hs hne => inPlace_of_pluginApart (file_mem_files hs) hne hrendered.leadsTo hlead'
        hsame (inPlace_of_unskipped hfonts hproject hs hne hsteps hskip)
  have hparts' : Parts root options (runSteps root written (Plan.steps options)).tree
      (runSteps root written (Plan.steps options)).tree written' false ⟨events⟩ :=
    ⟨hmanifest, by rw [hpaths], ⟨paths, by rw [hpaths]⟩, result_runPass_eq_ok_iff.2 hevents⟩
  obtain ⟨hresult, htree⟩ := run_of_parts hparts'
  refine ⟨⟨⟨events⟩, hresult, skipped_eq_nil_iff.2 hall⟩, fun names => ?_, hmanifest⟩
  rw [htree, tree_runPass]
  by_cases hnames : names = here ++ fileNames Plan.pluginFile
  · have hplain : IsPlain Plan.pluginFile := isPlain_of_mem_files (by decide)
    rw [hnames, ← sightOf_of_leadsTo hend hplain, sightOf_of_textOf htext',
      ← sightOf_of_leadsTo hrendered.leadsTo hplain, sightOf_of_textOf htext]
  · exact (hsame.trans hsame') names hnames

/-- A project whose entry script imports the framework, and whose page has a link. -/
def linkedTree : Tree :=
  .directory
    [("src", .directory [("main.js", .file (.text "import Vue from 'vue'"))]),
      ("public", .directory [("index.html", .file (.text "<link rel=\"icon\">"))])]

/-- The manifest, the components and the plugin module are made by the first setup; the second one
makes the same of them. -/
theorem stable_of_setup_linked :
    let options : Options := { replaceComponents := true }
    let first := (Setup.run ⟨".", []⟩ options linkedTree).tree
    (∃ report, (Setup.run ⟨".", []⟩ options linkedTree).result = .ok report ∧
        report.skipped = []) ∧
      ∀ names, (Setup.run ⟨".", []⟩ options first).tree.look names = first.look names := by
  intro options
  have hpackage : IsPackage ⟨".", []⟩ [] linkedTree := by
    refine ⟨isProject_of_textOf_none (Tree.leadsTo_of_follow rfl rfl) rfl, fun members h => ?_⟩
    have hread : Extension.readManifest linkedTree
        ((⟨".", []⟩ : Place).join "package.json".toList) = .ok [] := by rfl
    rw [hread] at h
    obtain rfl := Except.ok.inj h
    exact trivial
  have hrun : ((Setup.run ⟨".", []⟩ options linkedTree).result.map Report.skipped).toOption =
      some [] := by
    decide +kernel
  rcases hresult : (Setup.run ⟨".", []⟩ options linkedTree).result with failure | report
  · rw [hresult] at hrun
    cases hrun
  · rw [hresult] at hrun
    have hskip : report.skipped = [] := Option.some.inj hrun
    obtain ⟨-, hlook, -⟩ := stable_of_setup hpackage (by simp [options]) hresult hskip
    exact ⟨⟨report, rfl, hskip⟩, hlook⟩

end ProjectSetup
