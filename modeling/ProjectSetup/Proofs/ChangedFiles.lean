import ProjectSetup.CommandLine
import ProjectSetup.Proofs.Growth
import ProjectSetup.Proofs.ProjectFile
import ProjectSetup.Proofs.SecondPass

/-!
# Which files a run changes

A step changes its file exactly if it is applied, and no later step of the plan changes the file
back.  So a pass leaves a file as it was exactly if it reports of no step on the file that it was
applied.  A skipped step says nothing of that: another step on the same file may have been applied.

* `sightOf_run_iff`: a step and its file.
* `sightOf_runPass_iff`: a pass and its report.
* `unchanged_iff_of_patchOnly`: what is printed of a pass.
-/

namespace ProjectSetup

variable {root : Place} {tree : Tree} {here : List String} {options : Options} {step : Step}
  {steps : List Step} {file : String}

/-! ### Steps -/

/-- A step that is not applied to a file leaves it as it was. -/
theorem sightOf_run_of_not_applied (hlead : tree.LeadsTo root.parts here)
    (hstep : step.file ∈ Plan.files) (hfile : file ∈ Plan.files)
    (h : step.file = file → (step.run root tree).2 ≠ .ok .applied) :
    (step.run root tree).1.sightOf root file = tree.sightOf root file := by
  by_cases hsame : step.file = file
  · rcases withFile_run hlead (isPlain_of_mem_files hstep) with htree | ⟨happlied, -⟩
    · rw [htree]
    · exact absurd happlied (h hsame)
  · exact (frame_run hlead hstep).sightOf file hfile (Ne.symm hsame)

/-- **A step changes its file** exactly if it is applied. -/
theorem sightOf_run_iff (hlead : tree.LeadsTo root.parts here) (hstep : step ∈ Plan.steps options) :
    (step.run root tree).1.sightOf root step.file = tree.sightOf root step.file ↔
      (step.run root tree).2 ≠ .ok .applied := by
  have hfile := file_mem_files hstep
  refine ⟨fun hsight => ?_, fun h => sightOf_run_of_not_applied hlead hfile hfile fun _ => h⟩
  rcases textOf_run_cases hlead hfile hfile with ⟨-, h⟩ | ⟨-, old, new, hold, hrew, hnew⟩
  · exact h rfl
  · obtain ⟨R, hgains⟩ := exists_gains step.file
    rw [Tree.textOf_eq_of_sightOf hsight, hold] at hnew
    obtain rfl := Except.ok.inj hnew
    exact absurd (hgains.start hstep rfl hrew) (hgains.irrefl new)

/-! ### Passes -/

/-- The steps that are not applied to a file leave it as it was. -/
theorem sightOf_runSteps_of_not_applied (hsteps : ∀ step ∈ steps, step.file ∈ Plan.files)
    (hfile : file ∈ Plan.files) (hlead : tree.LeadsTo root.parts here)
    (h : ∀ step, step.file = file → (step, .ok .applied) ∉ trail root tree steps) :
    (runSteps root tree steps).tree.sightOf root file = tree.sightOf root file := by
  induction steps generalizing tree with
  | nil => rfl
  | cons step steps ih =>
    have hstep := hsteps step List.mem_cons_self
    have hfirst := sightOf_run_of_not_applied hlead hstep hfile fun hsame happlied =>
      h step hsame (happlied ▸ head_mem_trail root tree step steps)
    have hlead' := (frame_run hlead hstep).leadsTo
    rcases hrun : step.run root tree with ⟨mid, failure | verdict⟩
    · rw [hrun] at hfirst
      rw [runSteps_cons_error hrun]
      exact hfirst
    · rw [hrun] at hfirst hlead'
      rw [(runSteps_cons_ok hrun).1, ← hfirst]
      refine ih (fun s hs => hsteps s (List.mem_cons_of_mem _ hs)) hlead' fun s hsame hmem => ?_
      refine h s hsame ?_
      rw [trail_cons_ok hrun]
      exact List.mem_cons_of_mem _ hmem

/-- Steps have been applied to the file since it had the text of the start. -/
def WentOn (root : Place) (file : String) (R : Option String → String → Prop)
    (start : Except Failure (Option String)) (tree : Tree) : Prop :=
  ∃ old new, start = .ok old ∧ tree.textOf root file = .ok (some new) ∧ R old new

section

variable {R : Option String → String → Prop} {start : Except Failure (Option String)}
  (hgains : Gains file R) (hlead : tree.LeadsTo root.parts here) (hfile : file ∈ Plan.files)
  (hstep : step ∈ Plan.steps options)

include hgains hlead hfile hstep

theorem wentOn_run (h : WentOn root file R start tree) :
    WentOn root file R start (step.run root tree).1 := by
  obtain ⟨old, mid, hold, hmid, hR⟩ := h
  rcases textOf_run_cases hlead (file_mem_files hstep) hfile with
    ⟨hkept, -⟩ | ⟨hsame, text?, new, htext, hrew, hnew⟩
  · exact ⟨old, mid, hold, hkept.trans hmid, hR⟩
  · rw [hmid] at htext
    obtain rfl := Except.ok.inj htext
    exact ⟨old, new, hold, hnew, hgains.later hR hstep hsame hrew⟩

theorem wentOn_of_applied (hsame : step.file = file)
    (happlied : (step.run root tree).2 = .ok .applied)
    (h : tree.textOf root file = start ∨ WentOn root file R start tree) :
    WentOn root file R start (step.run root tree).1 := by
  rcases h with hstart | hon
  · rcases textOf_run_cases hlead (file_mem_files hstep) hfile with
      ⟨-, hnot⟩ | ⟨-, old, new, hold, hrew, hnew⟩
    · exact absurd happlied (hnot hsame)
    · exact ⟨old, new, hstart ▸ hold, hnew, hgains.start hstep hsame hrew⟩
  · exact wentOn_run hgains hlead hfile hstep hon

theorem textOf_or_wentOn_run (h : tree.textOf root file = start ∨ WentOn root file R start tree) :
    (step.run root tree).1.textOf root file = start ∨
      WentOn root file R start (step.run root tree).1 := by
  rcases h with hstart | hon
  · rcases textOf_run_cases hlead (file_mem_files hstep) hfile with
      ⟨hkept, -⟩ | ⟨hsame, old, new, hold, hrew, hnew⟩
    · exact .inl (hkept.trans hstart)
    · exact .inr ⟨old, new, hstart ▸ hold, hnew, hgains.start hstep hsame hrew⟩
  · exact .inr (wentOn_run hgains hlead hfile hstep hon)

end

/-- A file that a step was applied to does not have its text at the end of the pass. -/
theorem textOf_ne_of_applied (hlead : tree.LeadsTo root.parts here) (hfile : file ∈ Plan.files)
    (hsame : step.file = file)
    (happlied : (step, .ok .applied) ∈ trail root tree (Plan.steps options)) :
    (runSteps root tree (Plan.steps options)).tree.textOf root file ≠ tree.textOf root file := by
  obtain ⟨R, hgains⟩ := exists_gains file
  have hkeep : ∀ step ∈ Plan.steps options, ∀ mid,
      (mid.LeadsTo root.parts here ∧ (mid.textOf root file = tree.textOf root file ∨
        WentOn root file R (tree.textOf root file) mid)) →
      ((step.run root mid).1.LeadsTo root.parts here ∧
        ((step.run root mid).1.textOf root file = tree.textOf root file ∨
          WentOn root file R (tree.textOf root file) (step.run root mid).1)) :=
    fun step hstep mid hmid => ⟨(frame_run hmid.1 (file_mem_files hstep)).leadsTo,
      textOf_or_wentOn_run hgains hmid.1 hfile hstep hmid.2⟩
  have hmem : step ∈ Plan.steps options :=
    (exists_of_mem_trail hkeep ⟨hlead, .inl rfl⟩ happlied).1
  have hend : WentOn root file R (tree.textOf root file)
      (runSteps root tree (Plan.steps options)).tree :=
    established_runSteps hkeep
      (fun _ hstep _ hmid hon => wentOn_run hgains hmid.1 hfile hstep hon)
      (fun _ hmid hrun => wentOn_of_applied hgains hmid.1 hfile hmem hsame hrun hmid.2)
      ⟨hlead, .inl rfl⟩ happlied
  obtain ⟨old, new, hold, hnew, hR⟩ := hend
  rw [hold, hnew]
  intro heq
  obtain rfl := Except.ok.inj heq
  exact hgains.irrefl new hR

/-- A pass changes a file exactly if it applies a step to it, also if it fails. -/
theorem sightOf_runSteps_iff (hlead : tree.LeadsTo root.parts here) (hfile : file ∈ Plan.files) :
    (runSteps root tree (Plan.steps options)).tree.sightOf root file = tree.sightOf root file ↔
      ∀ step, step.file = file → (step, .ok .applied) ∉ trail root tree (Plan.steps options) := by
  constructor
  · intro hsight step hsame happlied
    exact textOf_ne_of_applied hlead hfile hsame happlied (Tree.textOf_eq_of_sightOf hsight)
  · exact sightOf_runSteps_of_not_applied (fun _ => file_mem_files) hfile hlead

/-- The report tells of a step on the file that was applied. -/
def Report.Patches (report : Report) (file : String) : Prop :=
  ∃ event ∈ report.events, event.file = file ∧ event.verdict = .applied

/-- A pass that comes to its end reports of the steps that it applied. -/
theorem patches_iff {report : Report} (h : (runPass root steps tree).result = .ok report) :
    report.Patches file ↔
      ∃ step, step.file = file ∧ (step, .ok .applied) ∈ trail root tree steps := by
  rw [result_runPass_eq_ok_iff] at h
  rw [Report.Patches]
  generalize report.events = events at h
  induction steps generalizing tree events with
  | nil =>
    obtain rfl := Except.ok.inj h
    simp [trail]
  | cons step steps ih =>
    obtain ⟨mid, verdict, others, hrun, hrest, rfl⟩ := exists_of_runSteps_cons h
    have hothers := ih others hrest
    rw [trail_cons_ok hrun]
    constructor
    · rintro ⟨event, hevent, hfile, hverdict⟩
      rcases List.mem_cons.1 hevent with rfl | hevent
      · obtain rfl : verdict = .applied := hverdict
        exact ⟨step, hfile, List.mem_cons_self⟩
      · obtain ⟨s, hsame, hmem⟩ := hothers.1 ⟨event, hevent, hfile, hverdict⟩
        exact ⟨s, hsame, List.mem_cons_of_mem _ hmem⟩
    · rintro ⟨s, hsame, hmem⟩
      rcases List.mem_cons.1 hmem with heq | hmem
      · obtain ⟨rfl, hverdict⟩ := Prod.mk.inj heq
        exact ⟨_, List.mem_cons_self, hsame, (Except.ok.inj hverdict).symm⟩
      · obtain ⟨event, hevent, hfile, hverdict⟩ := hothers.2 ⟨s, hsame, hmem⟩
        exact ⟨event, List.mem_cons_of_mem _ hevent, hfile, hverdict⟩

/-- **A pass leaves a file as it was** exactly if it reports of no step on it that it was
applied. -/
theorem sightOf_runPass_iff {report : Report} (hlead : tree.LeadsTo root.parts here)
    (hfile : file ∈ Plan.files)
    (hreport : (runPass root (Plan.steps options) tree).result = .ok report) :
    (runPass root (Plan.steps options) tree).tree.sightOf root file = tree.sightOf root file ↔
      ¬ report.Patches file := by
  rw [tree_runPass, sightOf_runSteps_iff hlead hfile, patches_iff hreport]
  simp

/-! ### What is printed of a pass -/

theorem file_mem_files_of_event {report : Report} {event : Event}
    (h : (runPass root (Plan.steps options) tree).result = .ok report)
    (hevent : event ∈ report.events) : event.file ∈ Plan.files := by
  have hmem : (event.label, event.file) ∈
      report.events.map fun event => (event.label, event.file) := List.mem_map_of_mem hevent
  rw [report_of_ok h] at hmem
  obtain ⟨step, hstep, heq⟩ := List.mem_map.1 hmem
  rw [← (Prod.mk.inj heq).2]
  exact file_mem_files hstep

namespace CommandLine

variable {session : Session} {arguments : Arguments} {words : List String}

/-- A request that ends well has run what was asked for, and prints its report. -/
theorem setUp_cases (h : (setUp session arguments tree).code = 0) :
    ∃ options report run, loadOptions session arguments tree = .ok options ∧
      run = (if arguments.switches.contains .patchOnly then
          runPass (session.project arguments) (Plan.steps options) tree
        else Setup.run (session.project arguments) options tree) ∧
      run.result = .ok report ∧
      setUp session arguments tree = ⟨0, reportText report, "",
        announcement (session.project arguments) :: run.log, run.tree⟩ := by
  unfold setUp at h ⊢
  dsimp only at h ⊢
  split at h
  · cases h
  · next options hoptions =>
    split at h
    · cases h
    · next report hreport => exact ⟨options, report, _, hoptions, rfl, hreport, rfl⟩

/-- **What is printed of a pass** tells which files it changed.  Each file of the report has been
left as it was exactly if no step on it was applied; that some step on it was skipped does not
matter. -/
theorem unchanged_iff_of_patchOnly (hwords : parse? words = some (.setUp arguments))
    (hpatch : arguments.switches.contains .patchOnly = true)
    (hlead : tree.LeadsTo (session.project arguments).parts here)
    (hcode : (run session words tree).code = 0) :
    ∃ options report, loadOptions session arguments tree = .ok options ∧
      (runPass (session.project arguments) (Plan.steps options) tree).result = .ok report ∧
      (run session words tree).output = reportText report ∧
      ∀ event ∈ report.events,
        (run session words tree).tree.sightOf (session.project arguments) event.file =
            tree.sightOf (session.project arguments) event.file ↔
          ¬ report.Patches event.file := by
  have hrun : run session words tree = setUp session arguments tree := by rw [run, hwords]
  rw [hrun] at hcode ⊢
  obtain ⟨options, report, pass, hoptions, rfl, hreport, hend⟩ := setUp_cases hcode
  rw [if_pos hpatch] at hreport hend
  refine ⟨options, report, hoptions, hreport, by rw [hend], fun event hevent => ?_⟩
  rw [hend]
  exact sightOf_runPass_iff hlead (file_mem_files_of_event hreport hevent) hreport

/-- The step on the entry script is applied; the one on the page is skipped, and none is made. -/
theorem unchanged_iff_of_patchOnly_script :
    (run ⟨⟨"~", []⟩, []⟩ ["--patch-only"] scriptTree).code = 0 ∧
      (run ⟨⟨"~", []⟩, []⟩ ["--patch-only"] scriptTree).tree.sightOf ⟨".", [.same]⟩ "src/main.js" ≠
        scriptTree.sightOf ⟨".", [.same]⟩ "src/main.js" ∧
      (run ⟨⟨"~", []⟩, []⟩ ["--patch-only"] scriptTree).tree.sightOf ⟨".", [.same]⟩ Plan.indexPage =
        scriptTree.sightOf ⟨".", [.same]⟩ Plan.indexPage := by
  have hwords : parse? ["--patch-only"] = some (.setUp { switches := [.patchOnly] }) := by
    decide +kernel
  have hlead : scriptTree.LeadsTo
      (Session.project ⟨⟨"~", []⟩, []⟩ { switches := [.patchOnly] }).parts [] :=
    Tree.leadsTo_of_follow rfl rfl
  have hcode : (run ⟨⟨"~", []⟩, []⟩ ["--patch-only"] scriptTree).code = 0 := by decide +kernel
  obtain ⟨options, report, hoptions, hreport, -, hunchanged⟩ :=
    unchanged_iff_of_patchOnly hwords (by decide) hlead hcode
  obtain rfl := Except.ok.inj hoptions
  have hevents : (runPass (Session.project ⟨⟨"~", []⟩, []⟩ { switches := [.patchOnly] })
      (Plan.steps (Arguments.options { switches := [.patchOnly] })) scriptTree).result =
        .ok ⟨[⟨"import vuetify plugin", "src/main.js", .applied⟩,
          ⟨"material icons stylesheet", Plan.indexPage,
            .skipped (.anchorNotFound "/^\\s*<link/")⟩]⟩ := by
    decide +kernel
  rw [hreport] at hevents
  obtain rfl := Except.ok.inj hevents
  refine ⟨hcode, fun hsame => ?_, ?_⟩
  · refine (hunchanged _ List.mem_cons_self).1 hsame ⟨_, List.mem_cons_self, rfl, rfl⟩
  · refine (hunchanged _ (List.mem_cons_of_mem _ List.mem_cons_self)).2 ?_
    simp [Report.Patches, Plan.indexPage]

/-- A page with a skipped step on it is changed by another step, and the report says that it was
left unchanged. -/
theorem not_unchanged_of_page :
    (run ⟨⟨"~", []⟩, []⟩ ["--patch-only", "--font=Lato"] pageTree).code = 0 ∧
      (run ⟨⟨"~", []⟩, []⟩ ["--patch-only", "--font=Lato"] pageTree).output =
        "  skipped  src/main.js: import vuetify plugin" ++
          " (no line matches anchor \x60/^import Vue/\x60)\n" ++
        "  skipped  public/index.html: material icons stylesheet" ++
          " (no line matches anchor \x60/^\\s*<link/\x60)\n" ++
        "  patched  public/index.html: font stylesheet\n" ++
        "2 step(s) could not be applied; those files were left unchanged.\n" ∧
      (run ⟨⟨"~", []⟩, []⟩ ["--patch-only", "--font=Lato"] pageTree).tree.sightOf ⟨".", [.same]⟩
          Plan.indexPage ≠
        pageTree.sightOf ⟨".", [.same]⟩ Plan.indexPage := by
  decide +kernel

end CommandLine

end ProjectSetup
