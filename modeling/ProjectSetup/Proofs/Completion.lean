import ProjectSetup.Proofs.Rerun

/-!
# Setups that come to their end

A file that is there can be read and written, whatever the edit on it says.  So a pass over files
that are there comes to its end, and a setup does if its manifest takes the extension.

* `run_ok`, `runSteps_ok`: steps and passes on files that are there.
* `setup_ok`: setups over files that are there.
-/

namespace ProjectSetup

open Setup (files writeFiles)

variable {root : Place} {tree : Tree} {here : List String} {options : Options}

/-- Files that are there can be written. -/
theorem writeFiles_ok {files : List (String × String)} (hlead : tree.LeadsTo root.parts here)
    (hfiles : ∀ f ∈ files, f.1 ∈ Setup.allFiles) (hnodup : (files.map Prod.fst).Nodup)
    (hthere : ∀ f ∈ files, ∃ content, tree.sightOf root f.1 = .file content) :
    (writeFiles root tree files).2 = .ok () := by
  induction files generalizing tree with
  | nil => rfl
  | cons f files ih =>
    obtain ⟨path, text⟩ := f
    have hpath := hfiles _ List.mem_cons_self
    obtain ⟨content, hcontent⟩ := hthere _ List.mem_cons_self
    rw [List.map_cons, List.nodup_cons] at hnodup
    obtain ⟨mid, hwrite, hlead', -, hsame⟩ :=
      writeText_again hlead (isPlain_of_mem_allFiles hpath) hcontent text
    rw [writeFiles, hwrite]
    refine ih hlead' (fun f hf => hfiles f (List.mem_cons_of_mem _ hf)) hnodup.2 fun f hf => ?_
    have hne : f.1 ≠ path := ne_of_mem_of_not_mem (List.mem_map.2 ⟨f, hf, rfl⟩) hnodup.1
    rw [sightOf_of_sameBut hlead hlead' hsame hpath (hfiles f (List.mem_cons_of_mem _ hf)) hne]
    exact hthere f (List.mem_cons_of_mem _ hf)

/-- A step on a file that is there does not fail, and leaves a file there. -/
theorem run_ok {step : Step} {text : String} (hlead : tree.LeadsTo root.parts here)
    (hown : step.NeedsOwn) (hfile : step.file ∈ Plan.files)
    (htext : tree.textOf root step.file = .ok (some text)) :
    ∃ mid verdict new, step.run root tree = (mid, .ok verdict) ∧
      mid.textOf root step.file = .ok (some new) := by
  have hmissing : step.missingFile? root tree = none := by
    rw [missingFile?_eq hown htext]
    simp
  rw [run_of_textOf hmissing htext]
  cases hedit : step.edit.onText (some text) with
  | alreadyApplied => exact ⟨tree, _, text, rfl, htext⟩
  | skipped reason => exact ⟨tree, _, text, rfl, htext⟩
  | rewritten new =>
    obtain ⟨mid, hwrite, -, hsight, -⟩ :=
      writeText_again hlead (isPlain_of_mem_files hfile) (sightOf_of_textOf htext) new
    exact ⟨mid, .applied, new, by rw [Step.finish, hwrite]; rfl, textOf_of_sightOf hsight⟩

/-- A pass over files that are there comes to its end. -/
theorem runSteps_ok {steps : List Step} (hlead : tree.LeadsTo root.parts here)
    (hown : ∀ step ∈ steps, step.NeedsOwn) (hfiles : ∀ step ∈ steps, step.file ∈ Plan.files)
    (hthere : ∀ step ∈ steps, ∃ text, tree.textOf root step.file = .ok (some text)) :
    ∃ events, (runSteps root tree steps).result = .ok events := by
  induction steps generalizing tree with
  | nil => exact ⟨[], rfl⟩
  | cons step steps ih =>
    have hfile := hfiles step List.mem_cons_self
    obtain ⟨text, htext⟩ := hthere step List.mem_cons_self
    obtain ⟨mid, verdict, new, hrun, hnew⟩ := run_ok hlead (hown step List.mem_cons_self) hfile htext
    have hframe := frame_run hlead hfile
    rw [hrun] at hframe
    obtain ⟨events, hevents⟩ := ih hframe.leadsTo (fun s hs => hown s (List.mem_cons_of_mem _ hs))
      (fun s hs => hfiles s (List.mem_cons_of_mem _ hs)) fun s hs => by
        by_cases hsame : s.file = step.file
        · exact ⟨new, by rw [hsame, hnew]⟩
        · rw [hframe.textOf (hfiles s (List.mem_cons_of_mem _ hs)) hsame]
          exact hthere s (List.mem_cons_of_mem _ hs)
    exact ⟨_, by rw [(runSteps_cons_ok hrun).2, hevents]; rfl⟩

theorem ne_manifest_of_mem_plan {file : String} (h : file ∈ Plan.files) : file ≠ "package.json" := by
  revert file
  decide

theorem ne_manifest_of_mem_rendered {file : String} (h : file ∈ Setup.rendered) :
    file ≠ "package.json" := by
  revert file
  decide

/-- **A setup comes to its end** if its manifest takes the extension and the files that it writes and
edits are there. -/
theorem setup_ok {changed : Bool} (hlead : tree.LeadsTo root.parts here)
    (hmanifest : ((Plan.extension options).extendManifest root tree).2 = .ok changed)
    (hfiles : ∀ router, ∀ f ∈ files options router, ∃ text, tree.textOf root f.1 = .ok (some text))
    (hsteps : ∀ step ∈ Plan.steps options, ∃ text, tree.textOf root step.file = .ok (some text)) :
    ∃ report, (Setup.run root options tree).result = .ok report := by
  obtain ⟨hextended, hkept⟩ := frame_extendManifest (Plan.extension options) hlead
  generalize hrun : (Plan.extension options).extendManifest root tree = run at *
  obtain ⟨extended, result⟩ := run
  obtain rfl : result = .ok changed := hmanifest
  dsimp only at hextended hkept
  have hmem := Setup.file_mem_allFiles options (extended.has (root.resolve Setup.routerFile).parts)
  have hnodup := Setup.nodup_files options (extended.has (root.resolve Setup.routerFile).parts)
  have hwrite : (writeFiles root extended
      (files options (extended.has (root.resolve Setup.routerFile).parts))).2 = .ok () := by
    refine writeFiles_ok hextended hmem hnodup fun f hf => ?_
    obtain ⟨text, htext⟩ := hfiles _ f hf
    have hne := ne_manifest_of_mem_rendered (Setup.mem_rendered_of_mem_files _ _ f hf)
    exact ⟨.text text, by rw [hkept f.1 (hmem f hf) hne, sightOf_of_textOf htext]⟩
  have hframe := frame_writeFiles hextended hmem
  have htexts := writeFiles_spec hextended hmem hnodup hwrite
  rw [← tree_renderFiles] at hframe htexts
  obtain ⟨events, hevents⟩ := runSteps_ok hframe.1 (fun _ hs _ => requires_eq hs)
    (fun _ => file_mem_files) fun step hstep => by
      have hplan := file_mem_files hstep
      by_cases hin : step.file ∈ (files options
          (extended.has (root.resolve Setup.routerFile).parts)).map Prod.fst
      · obtain ⟨f, hf, heq⟩ := List.mem_map.1 hin
        exact ⟨f.2, by rw [← heq, htexts f hf]⟩
      · obtain ⟨text, htext⟩ := hsteps step hstep
        have hall := mem_allFiles_of_mem_files hplan
        have hne := ne_manifest_of_mem_plan hplan
        exact ⟨text, by rw [Tree.textOf_eq_of_sightOf ((hframe.2 _ hall hin).trans
          (hkept _ hall hne)), htext]⟩
  exact ⟨⟨events⟩, (run_of_parts ⟨hrun, rfl, ⟨_, result_renderFiles_iff.2 ⟨hwrite, rfl⟩⟩,
    result_runPass_eq_ok_iff.2 hevents⟩).1⟩

end ProjectSetup
