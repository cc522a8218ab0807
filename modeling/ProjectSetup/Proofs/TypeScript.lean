import ProjectSetup.Proofs.ChangedFiles
import ProjectSetup.Proofs.History

/-!
# Projects in TypeScript

A plan for TypeScript has one step at most on the Babel configuration: the one that adds the presets
of the component explorer, which is the last of the plan.  So a run leaves the Babel configuration
as it was, unless it comes to its end and that step had something to do in what was there at the
start.

* `sightOf_runPass_singleton_iff`: a step on its own.
* `babelConfig_unchanged_iff`: the Babel configuration after a run.
-/

namespace ProjectSetup

variable {root : Place} {tree : Tree} {here : List String} {options : Options} {step : Step}

/-! ### The last step -/

/-- The edit of the step changes its file as that is in the tree. -/
def Step.Rewrites (root : Place) (tree : Tree) (step : Step) : Prop :=
  ∃ text? text, tree.textOf root step.file = .ok text? ∧ step.edit.onText text? = .rewritten text

theorem rewrites_iff_of_sightOf (step : Step) {tree' : Tree}
    (h : tree'.sightOf root step.file = tree.sightOf root step.file) :
    step.Rewrites root tree' ↔ step.Rewrites root tree := by
  rw [Step.Rewrites, Step.Rewrites, Tree.textOf_eq_of_sightOf h]

theorem exists_map_eq_ok_iff {α β : Type} {result : Except Failure α} {f : α → β} :
    (∃ b, result.map f = .ok b) ↔ ∃ a, result = .ok a := by
  cases result <;> simp [Except.map]

/-- A step that needs no file is applied if it does not fail and its edit changes the file. -/
theorem run_eq_applied_iff (hlead : tree.LeadsTo root.parts here) (hstep : step.file ∈ Plan.files)
    (hreq : step.requires = none) :
    (step.run root tree).2 = .ok .applied ↔
      (∃ verdict, (step.run root tree).2 = .ok verdict) ∧ step.Rewrites root tree := by
  have hidle : ∀ {text? : Option String}, tree.textOf root step.file = .ok text? →
      (∀ text, step.edit.onText text? ≠ .rewritten text) → ¬ step.Rewrites root tree := by
    rintro text? htext hidle ⟨text?', text, htext', hrew⟩
    rw [htext] at htext'
    obtain rfl := Except.ok.inj htext'
    exact hidle text hrew
  have hout := outcome_run hlead hstep
  generalize step.run root tree = run at hout
  cases hout with
  | unread => simp
  | unwritten => simp
  | lacking hlack =>
    rw [Step.missingFile?, hreq] at hlack
    cases hlack
  | skipped _ htext hedit => simp [hidle htext fun text => by simp [hedit]]
  | inPlace _ htext hedit => simp [hidle htext fun text => by simp [hedit]]
  | written _ htext hrew _ => exact ⟨fun _ => ⟨⟨_, rfl⟩, _, _, htext, hrew⟩, fun _ => rfl⟩

/-- A pass of one step that needs no file. -/
theorem sightOf_runPass_singleton_iff (hlead : tree.LeadsTo root.parts here)
    (hstep : step ∈ Plan.steps options) (hreq : step.requires = none) :
    (runPass root [step] tree).tree.sightOf root step.file = tree.sightOf root step.file ↔
      ¬ ((∃ report, (runPass root [step] tree).result = .ok report) ∧ step.Rewrites root tree) := by
  rw [runPass_singleton.1, runPass_singleton.2, exists_map_eq_ok_iff, sightOf_run_iff hlead hstep,
    ← run_eq_applied_iff hlead (file_mem_files hstep) hreq]

/-- The presets of the component explorer are added last. -/
theorem steps_eq_append (options : Options) : Plan.steps options =
    Plan.steps { options with storybook := false } ++
      if options.storybook = true then [Plan.storybookPresets] else [] := by
  conv_rhs => rw [Plan.steps, if_neg Bool.false_ne_true, List.append_nil]
  rfl

/-! ### Passes -/

section

variable (htypescript : options.typescript = true) (hlead : tree.LeadsTo root.parts here)

include htypescript

/-- No other step of a plan for TypeScript is on the Babel configuration. -/
theorem ne_babelConfig_of_typescript (hstorybook : options.storybook = false)
    (h : step ∈ Plan.steps options) : step.file ≠ Plan.babelConfig := by
  have hmain : options.mainFile ≠ Plan.babelConfig := by
    rw [Options.mainFile, if_pos htypescript]
    decide
  rcases mem_steps_iff.1 h with
    rfl | ⟨-, hscript, -⟩ | ⟨-, hscript, -⟩ | rfl | ⟨-, rfl⟩ | ⟨preset, -, rfl | rfl⟩ |
    ⟨hexplorer, -⟩
  · exact hmain
  · rw [htypescript] at hscript
    cases hscript
  · rw [htypescript] at hscript
    cases hscript
  · decide
  · exact show Plan.indexPage ≠ Plan.babelConfig by decide
  · exact show Plan.pluginFile ≠ Plan.babelConfig by decide
  · decide
  · rw [hstorybook] at hexplorer
    cases hexplorer

include hlead

theorem babelConfig_runPass_of_ne (hstorybook : options.storybook = false) :
    (runPass root (Plan.steps options) tree).tree.sightOf root Plan.babelConfig =
      tree.sightOf root Plan.babelConfig := by
  rw [tree_runPass, sightOf_runSteps_iff hlead (by decide)]
  intro step hsame hmem
  have hstep := (exists_of_mem_trail (P := fun _ => True) (fun _ _ _ _ => trivial) trivial hmem).1
  exact ne_babelConfig_of_typescript htypescript hstorybook hstep hsame

/-- The steps in front of the last one leave the Babel configuration as it was. -/
theorem exists_front (hstorybook : options.storybook = true) :
    ∃ front, Plan.steps options = front ++ [Plan.storybookPresets] ∧
      (runPass root front tree).tree.LeadsTo root.parts here ∧
      (runPass root front tree).tree.sightOf root Plan.babelConfig =
        tree.sightOf root Plan.babelConfig := by
  have hsteps := steps_eq_append options
  rw [if_pos hstorybook] at hsteps
  exact ⟨Plan.steps { options with storybook := false }, hsteps,
    leadsTo_runSteps (fun _ => file_mem_files) hlead,
    babelConfig_runPass_of_ne htypescript hlead rfl⟩

/-- The Babel configuration after a pass. -/
theorem babelConfig_runPass_iff :
    (runPass root (Plan.steps options) tree).tree.sightOf root Plan.babelConfig =
        tree.sightOf root Plan.babelConfig ↔
      ¬ (options.storybook = true ∧
        (∃ report, (runPass root (Plan.steps options) tree).result = .ok report) ∧
        Plan.storybookPresets.Rewrites root tree) := by
  cases hstorybook : options.storybook with
  | false => simp [babelConfig_runPass_of_ne htypescript hlead hstorybook]
  | true =>
    have hlast : Plan.storybookPresets ∈ Plan.steps options :=
      mem_steps_iff.2 (by simp [hstorybook])
    obtain ⟨front, hsteps, hlead', hfront⟩ := exists_front htypescript hlead hstorybook
    obtain ⟨htree, hresult⟩ := runPass_append root tree front [Plan.storybookPresets]
    rw [hsteps, htree, hresult]
    cases hok : (runPass root front tree).result with
    | error failure => simp [hfront, Except.bind]
    | ok before =>
      dsimp only [Except.bind]
      rw [exists_map_eq_ok_iff, ← rewrites_iff_of_sightOf Plan.storybookPresets hfront, ← hfront,
        and_iff_right rfl]
      exact sightOf_runPass_singleton_iff hlead' hlast rfl

end

/-! ### All of a run -/

/-- What a run over a project comes to. -/
def Job.result (root : Place) (tree : Tree) (job : Job) : Except Failure Report :=
  if job.whole then (Setup.run root job.options tree).result
  else (runPass root (Plan.steps job.options) tree).result

/-- The run comes to its end, and puts presets of the component explorer into the Babel
configuration. -/
@[mk_iff]
structure Job.AddsPresets (root : Place) (tree : Tree) (job : Job) : Prop where
  storybook : job.options.storybook = true
  ends : ∃ report, job.result root tree = .ok report
  rewrites : Plan.storybookPresets.Rewrites root tree

/-- **The Babel configuration of a project in TypeScript** stays as it is, or absent, whatever a run
does, unless the run adds the presets of the component explorer. -/
theorem babelConfig_unchanged_iff {job : Job} (htypescript : job.options.typescript = true)
    (hlead : tree.LeadsTo root.parts here) :
    (job.after root tree).sightOf root Plan.babelConfig = tree.sightOf root Plan.babelConfig ↔
      ¬ job.AddsPresets root tree := by
  rw [Job.addsPresets_iff, Job.after, Job.result]
  split_ifs
  · obtain ⟨written, hlead', hsame, ⟨⟨failure, hfail⟩, htree⟩ | ⟨hresult, htree⟩⟩ :=
      exists_of_run job.options hlead
    · rw [hfail, htree, hsame Plan.babelConfig (by decide) (by decide) (by decide)]
      simp
    · have hbabel := hsame Plan.babelConfig (by decide) (by decide) (by decide)
      rw [hresult, htree, ← hbabel,
        ← rewrites_iff_of_sightOf Plan.storybookPresets hbabel]
      exact babelConfig_runPass_iff htypescript hlead'
  · exact babelConfig_runPass_iff htypescript hlead

/-- A project in TypeScript with a Babel configuration. -/
def typescriptTree : Tree :=
  .directory
    [("src", .directory [("main.ts", .file (.text "import Vue from 'vue'"))]),
      ("babel.config.js", .file (.text "module.exports = \x7b presets: ['@vue/app'] \x7d"))]

theorem babelConfig_unchanged_iff_polyfill :
    (Job.after ⟨".", []⟩ typescriptTree
        ⟨{ typescript := true, polyfill := true, aLaCarte := true, preset := some "basil" },
          true⟩).sightOf ⟨".", []⟩ Plan.babelConfig =
      .file (.text "module.exports = \x7b presets: ['@vue/app'] \x7d") := by
  have hlead : typescriptTree.LeadsTo (Place.parts ⟨".", []⟩) [] := Tree.leadsTo_of_follow rfl rfl
  refine ((babelConfig_unchanged_iff rfl hlead).2 fun hadds => ?_).trans rfl
  cases hadds.storybook

/-- The presets of the component explorer are put into a project whose Babel configuration is not to
be patched. -/
theorem babelConfig_changed_storybook :
    ({ typescript := true, storybook := true } : Options).patchesBabel = false ∧
      typescriptTree.LeadsTo (Place.parts ⟨".", []⟩) [] ∧
      (Job.after ⟨".", []⟩ typescriptTree
          ⟨{ typescript := true, storybook := true }, false⟩).sightOf ⟨".", []⟩ Plan.babelConfig ≠
        typescriptTree.sightOf ⟨".", []⟩ Plan.babelConfig := by
  have hlead : typescriptTree.LeadsTo (Place.parts ⟨".", []⟩) [] := Tree.leadsTo_of_follow rfl rfl
  exact ⟨rfl, hlead, by decide +kernel⟩

end ProjectSetup
