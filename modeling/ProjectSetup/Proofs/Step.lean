import ProjectSetup.Plan
import ProjectSetup.Proofs.Tree

/-!
# What a step does

A step of a plan reads one file of the project, and what it does then follows from the text of that
file alone (`FileEdit.onText`).  The other files of a plan stand as before, even if the file cannot
be written.

* `outcome_run`: what a step can come to.
* `frame_run`: what it leaves alone.
-/

namespace ProjectSetup

open Json (Value)

/-! ### Files of a project -/

/-- The names that lead from the root of a project to a file. -/
def fileNames (file : String) : List String :=
  (Path.names (Path.dropDotSlash file.toList)).map String.ofList

/-- The path of the file is made of names alone. -/
def IsPlain (file : String) : Prop :=
  (Path.names (Path.dropDotSlash file.toList)).map PathPart.ofName =
    (fileNames file).map .entry ∧ fileNames file ≠ []

/-- Neither of the files is on the way to the other. -/
def Apart (file other : String) : Prop :=
  ¬ fileNames other <+: fileNames file ∧ ¬ fileNames file <+: fileNames other

/-- The files that a plan edits. -/
def Plan.files : List String :=
  ["src/main.js", "src/main.ts", babelConfig, indexPage, pluginFile]

theorem isPlain_of_mem_files {file : String} (h : file ∈ Plan.files) : IsPlain file := by
  unfold IsPlain
  revert file
  decide

theorem apart_of_mem_files {file other : String} (h : file ∈ Plan.files)
    (h' : other ∈ Plan.files) (hne : other ≠ file) : Apart file other := by
  have hall : ∀ a ∈ Plan.files, ∀ b ∈ Plan.files, b ≠ a →
      ¬ fileNames b <+: fileNames a ∧ ¬ fileNames a <+: fileNames b := by decide
  exact hall file h other h' hne

namespace Tree

/-- What stands where a file of the project is looked for. -/
def sightOf (tree : Tree) (root : Place) (file : String) : Sight :=
  tree.sight (root.resolve file).parts

/-- The text of a file of the project, if it is there. -/
def textOf (tree : Tree) (root : Place) (file : String) : Except Failure (Option String) :=
  tree.readText? (root.resolve file)

theorem textOf_eq_of_sightOf {tree tree' : Tree} {root : Place} {file : String}
    (h : tree'.sightOf root file = tree.sightOf root file) :
    tree'.textOf root file = tree.textOf root file := by
  unfold sightOf at h
  rw [textOf, textOf, readText?, readText?, h]

theorem has_of_sightOf {tree tree' : Tree} {root : Place} {file : String}
    (h : tree'.sightOf root file = tree.sightOf root file) :
    tree'.has (root.resolve file).parts = tree.has (root.resolve file).parts := by
  unfold sightOf at h
  rw [has, has, h]

/-- A file with a text is there. -/
theorem has_of_textOf {tree : Tree} {root : Place} {file : String} {text? : Option String}
    (h : tree.textOf root file = .ok text?) :
    tree.has (root.resolve file).parts = text?.isSome := by
  rw [textOf, readText?] at h
  rw [has]
  cases hsight : tree.sight (root.resolve file).parts with
  | file content =>
    cases content with
    | text text =>
      simp only [hsight] at h
      obtain rfl := Except.ok.inj h
      rfl
    | binary bytes => simp [hsight] at h
  | directory => simp [hsight] at h
  | belowFile => simp [hsight] at h
  | missing =>
    simp only [hsight] at h
    obtain rfl := Except.ok.inj h
    rfl

end Tree

variable {root : Place} {tree tree' : Tree} {here : List String} {file : String}

theorem parts_resolve_of_isPlain (h : IsPlain file) :
    (root.resolve file).parts = root.parts ++ (fileNames file).map .entry := by
  rw [Place.parts_resolve, h.1]

theorem sightOf_of_leadsTo (hlead : tree.LeadsTo root.parts here) (h : IsPlain file) :
    tree.sightOf root file = tree.look (here ++ fileNames file) := by
  rw [Tree.sightOf, parts_resolve_of_isPlain h]
  exact Tree.sight_of_leadsTo (hlead.append _)

/-- What a written text changes: the file has it unless the write fails, and files apart from it
stand as before. -/
theorem writeText_spec {text : String} {result : Except Failure Unit}
    (hlead : tree.LeadsTo root.parts here) (hfile : IsPlain file)
    (h : tree.writeText (root.resolve file) text = (tree', result)) :
    tree'.LeadsTo root.parts here ∧
      (∀ other, IsPlain other → Apart file other →
        tree'.sightOf root other = tree.sightOf root other) ∧
      tree'.textOf root file =
        match result with
        | .ok () => .ok (some text)
        | .error _ => tree.textOf root file := by
  rw [Tree.writeText, parts_resolve_of_isPlain hfile] at h
  cases hput : tree.putFile (.text text) (root.parts ++ (fileNames file).map .entry) with
  | mk mid put =>
    obtain ⟨hself, hkeep, hbeside⟩ := Tree.look_putFile hlead hfile.2 hput
    simp only [hput] at h
    obtain ⟨rfl, rfl⟩ := Prod.mk.inj h
    have hlead' : mid.LeadsTo root.parts here := hlead.mono hkeep
    have hsight : mid.sightOf root file = mid.look (here ++ fileNames file) :=
      sightOf_of_leadsTo hlead' hfile
    refine ⟨hlead', fun other hother hapart => ?_, ?_⟩
    · rw [sightOf_of_leadsTo hlead' hother, sightOf_of_leadsTo hlead hother]
      refine hbeside _ ?_ ?_
      · rw [List.prefix_append_right_inj]
        exact hapart.1
      · rw [List.prefix_append_right_inj]
        exact hapart.2
    · cases put with
      | ok _ =>
        rw [hself] at hsight
        unfold Tree.sightOf at hsight
        rw [Tree.textOf, Tree.readText?, hsight]
        rfl
      | error fault =>
        have hsame : mid.sightOf root file = tree.sightOf root file := by
          rw [hsight, hself, sightOf_of_leadsTo hlead hfile]
        exact Tree.textOf_eq_of_sightOf hsame

/-! ### Edits on texts -/

/-- The result of an edit with its content in another form. -/
def Edited.map {α β : Type} (f : α → β) : Edited α → Edited β
  | rewritten content => .rewritten (f content)
  | alreadyApplied => .alreadyApplied
  | skipped reason => .skipped reason

/-- The lines of a file, which has none if it is not there. -/
def linesOf : Option String → List String
  | some text => Text.splitLines text
  | none => []

/-- The config in a file, which is empty if the file is not there. -/
def configOf : Option String → Except Unreadable Value
  | some text => ConfigModule.parse text
  | none => .ok (.object [])

/-- What an edit makes of the text of a file. -/
def FileEdit.onText : FileEdit → Option String → Edited String
  | lines edit, text? => (edit.apply (linesOf text?)).map Text.joinLines
  | config edit, text? =>
    match configOf text? with
    | .error why => .skipped (.configUnreadable why)
    | .ok value => (edit.apply value).map ConfigModule.render

theorem finish_map {α β : Type} (tree : Tree) (write : β → Tree × Except Failure Unit) (f : α → β)
    (edited : Edited α) :
    Step.finish tree write (edited.map f) = Step.finish tree (fun a => write (f a)) edited := by
  cases edited <;> rfl

/-- An edit on a file works on its text. -/
theorem editAt_eq (place : Place) (tree : Tree) (edit : FileEdit) :
    Step.editAt place tree edit =
      match tree.readText? place with
      | .error failure => (tree, .error failure)
      | .ok text? => Step.finish tree (tree.writeText place) (edit.onText text?) := by
  cases edit with
  | lines edit =>
    have hread : ∀ text?, tree.readText? place = .ok text? →
        tree.readLines place = .ok (linesOf text?) := by
      intro text? htext
      rw [Tree.readLines, htext]
      cases text? <;> rfl
    rw [Step.editAt]
    cases htext : tree.readText? place with
    | error failure =>
      have hfail : tree.readLines place = .error failure := by
        rw [Tree.readLines, htext]
        rfl
      rw [hfail]
    | ok text? =>
      rw [hread text? htext]
      exact (finish_map tree (tree.writeText place) Text.joinLines
        (edit.apply (linesOf text?))).symm
  | config edit =>
    have hread : ∀ text?, tree.readText? place = .ok text? →
        tree.readConfig place = .ok (configOf text?) := by
      intro text? htext
      rw [Tree.readConfig, htext]
      cases text? <;> rfl
    rw [Step.editAt]
    cases htext : tree.readText? place with
    | error failure =>
      have hfail : tree.readConfig place = .error failure := by
        rw [Tree.readConfig, htext]
        rfl
      rw [hfail]
    | ok text? =>
      rw [hread text? htext]
      dsimp only [FileEdit.onText]
      cases hconfig : configOf text? with
      | error why => rfl
      | ok value =>
        exact (finish_map tree (tree.writeText place) ConfigModule.render (edit.apply value)).symm

/-! ### Running a step -/

/-- What a step can come to. -/
inductive Outcome (root : Place) (tree : Tree) (step : Step) :
    Tree × Except Failure Verdict → Prop where
  /-- It cannot read its file. -/
  | unread {failure : Failure} : tree.textOf root step.file = .error failure →
    Outcome root tree step (tree, .error failure)
  /-- It cannot write its file, and leaves it alone. -/
  | unwritten {tree' : Tree} {failure : Failure} {text? : Option String} {text : String} :
    step.missingFile? root tree = none → tree.textOf root step.file = .ok text? →
    step.edit.onText text? = .rewritten text →
    tree'.textOf root step.file = tree.textOf root step.file →
    Outcome root tree step (tree', .error failure)
  /-- It lacks a file. -/
  | lacking {file : String} : step.missingFile? root tree = some file →
    Outcome root tree step (tree, .ok (.skipped (.prerequisiteMissing file)))
  | skipped {text? : Option String} {reason : SkipReason} :
    step.missingFile? root tree = none → tree.textOf root step.file = .ok text? →
    step.edit.onText text? = .skipped reason →
    Outcome root tree step (tree, .ok (.skipped reason))
  | inPlace {text? : Option String} :
    step.missingFile? root tree = none → tree.textOf root step.file = .ok text? →
    step.edit.onText text? = .alreadyApplied →
    Outcome root tree step (tree, .ok .alreadyApplied)
  | written {tree' : Tree} {text? : Option String} {text : String} :
    step.missingFile? root tree = none → tree.textOf root step.file = .ok text? →
    step.edit.onText text? = .rewritten text → tree'.textOf root step.file = .ok (some text) →
    Outcome root tree step (tree', .ok .applied)

/-- What a step leaves alone. -/
structure Frame (root : Place) (here : List String) (file : String) (tree tree' : Tree) :
    Prop where
  leadsTo : tree'.LeadsTo root.parts here
  sightOf : ∀ other ∈ Plan.files, other ≠ file → tree'.sightOf root other = tree.sightOf root other

theorem Frame.refl (hlead : tree.LeadsTo root.parts here) : Frame root here file tree tree :=
  ⟨hlead, fun _ _ _ => rfl⟩

theorem Frame.textOf {other : String} (h : Frame root here file tree tree')
    (hother : other ∈ Plan.files) (hne : other ≠ file) :
    tree'.textOf root other = tree.textOf root other :=
  Tree.textOf_eq_of_sightOf (h.sightOf other hother hne)

variable {step : Step}

theorem run_spec (hlead : tree.LeadsTo root.parts here) (hfile : step.file ∈ Plan.files) :
    Outcome root tree step (step.run root tree) ∧
      Frame root here step.file tree (step.run root tree).1 := by
  have hplain := isPlain_of_mem_files hfile
  rw [Step.run]
  cases hmissing : step.missingFile? root tree with
  | some file => exact ⟨.lacking hmissing, .refl hlead⟩
  | none =>
    dsimp only
    rw [editAt_eq]
    cases htext : tree.readText? (root.resolve step.file) with
    | error failure => exact ⟨.unread htext, .refl hlead⟩
    | ok text? =>
      dsimp only
      cases hedit : step.edit.onText text? with
      | alreadyApplied => exact ⟨.inPlace hmissing htext hedit, .refl hlead⟩
      | skipped reason => exact ⟨.skipped hmissing htext hedit, .refl hlead⟩
      | rewritten text =>
        cases hwrite : tree.writeText (root.resolve step.file) text with
        | mk tree' result =>
          obtain ⟨hlead', hothers, hself⟩ := writeText_spec hlead hplain hwrite
          have hframe : Frame root here step.file tree tree' :=
            ⟨hlead', fun other hother hne =>
              hothers other (isPlain_of_mem_files hother) (apart_of_mem_files hfile hother hne)⟩
          dsimp only [Step.finish]
          rw [hwrite]
          cases result with
          | ok _ => exact ⟨.written hmissing htext hedit hself, hframe⟩
          | error failure => exact ⟨.unwritten hmissing htext hedit hself, hframe⟩

/-- **What a step can come to.** -/
theorem outcome_run (hlead : tree.LeadsTo root.parts here) (hfile : step.file ∈ Plan.files) :
    Outcome root tree step (step.run root tree) :=
  (run_spec hlead hfile).1

/-- **What a step leaves alone**: the other files of a plan, also when it fails. -/
theorem frame_run (hlead : tree.LeadsTo root.parts here) (hfile : step.file ∈ Plan.files) :
    Frame root here step.file tree (step.run root tree).1 :=
  (run_spec hlead hfile).2

/-- What a step does to the text of a file: it leaves it as it is, or is applied to it. -/
theorem textOf_run_cases (hlead : tree.LeadsTo root.parts here) (hstep : step.file ∈ Plan.files)
    (hfile : file ∈ Plan.files) :
    ((step.run root tree).1.textOf root file = tree.textOf root file ∧
        (step.file = file → (step.run root tree).2 ≠ .ok .applied)) ∨
      (step.file = file ∧ ∃ old new, tree.textOf root file = .ok old ∧
        step.edit.onText old = .rewritten new ∧
        (step.run root tree).1.textOf root file = .ok (some new)) := by
  by_cases hsame : step.file = file
  · subst hsame
    have hout := outcome_run hlead hstep
    generalize step.run root tree = run at hout
    cases hout with
    | unread => exact .inl ⟨rfl, by simp⟩
    | unwritten _ _ _ hkept => exact .inl ⟨hkept, by simp⟩
    | lacking => exact .inl ⟨rfl, by simp⟩
    | skipped => exact .inl ⟨rfl, by simp⟩
    | inPlace => exact .inl ⟨rfl, by simp⟩
    | written _ hold hrew hnew => exact .inr ⟨rfl, _, _, hold, hrew, hnew⟩
  · exact .inl ⟨(frame_run hlead hstep).textOf hfile (Ne.symm hsame), fun h => absurd h hsame⟩

/-! ### Steps of a plan -/

theorem mem_steps_iff {options : Options} :
    step ∈ Plan.steps options ↔
      step = Plan.importPlugin options ∨
      (options.polyfill = true ∧ options.typescript = false ∧
        (step = Plan.polyfillEntry ∨ step = Plan.importPolyfill options)) ∨
      (options.aLaCarte = true ∧ options.typescript = false ∧ step = Plan.transformImports) ∨
      step = Plan.linkIconFont ∨
      (options.fonts ≠ [] ∧ step = Plan.linkFonts options.fonts) ∨
      (∃ preset, options.preset = some preset ∧
        (step = Plan.importPreset preset ∨ step = Plan.usePreset)) ∨
      (options.storybook = true ∧ step = Plan.storybookPresets) := by
  have hpolyfill : (step ∈ if options.polyfill && options.patchesBabel then
      [Plan.polyfillEntry, Plan.importPolyfill options] else []) ↔
      options.polyfill = true ∧ options.typescript = false ∧
        (step = Plan.polyfillEntry ∨ step = Plan.importPolyfill options) := by
    cases options.polyfill <;> cases h : options.typescript <;> simp [Options.patchesBabel, h]
  have hcarte : (step ∈ if options.aLaCarte && options.patchesBabel then
      [Plan.transformImports] else []) ↔
      options.aLaCarte = true ∧ options.typescript = false ∧ step = Plan.transformImports := by
    cases options.aLaCarte <;> cases h : options.typescript <;> simp [Options.patchesBabel, h]
  have hfonts : (step ∈ if options.fonts.isEmpty then [] else [Plan.linkFonts options.fonts]) ↔
      options.fonts ≠ [] ∧ step = Plan.linkFonts options.fonts := by
    cases h : options.fonts <;> simp
  have hstorybook : (step ∈ if options.storybook then [Plan.storybookPresets] else []) ↔
      options.storybook = true ∧ step = Plan.storybookPresets := by
    cases options.storybook <;> simp
  unfold Plan.steps
  rw [List.mem_append, List.mem_append, List.mem_append, List.mem_append, List.mem_append,
    List.mem_append, List.mem_singleton, List.mem_singleton, hpolyfill, hcarte, hfonts, hstorybook]
  simp only [or_assoc]
  cases options.preset <;> simp

/-- The steps of a plan edit the files of a plan. -/
theorem file_mem_files {options : Options} (h : step ∈ Plan.steps options) :
    step.file ∈ Plan.files := by
  have hmain : options.mainFile ∈ Plan.files := by
    unfold Options.mainFile
    split_ifs <;> decide
  rcases mem_steps_iff.1 h with
    rfl | ⟨-, -, rfl | rfl⟩ | ⟨-, -, rfl⟩ | rfl | ⟨-, rfl⟩ | ⟨preset, -, rfl | rfl⟩ | ⟨-, rfl⟩
  · exact hmain
  · decide
  · exact hmain
  · decide
  · decide
  · simp [Plan.linkFonts, Plan.files]
  · simp [Plan.importPreset, Plan.files]
  · decide
  · decide

/-- The steps of a plan need at most the file that they edit. -/
theorem requires_eq {options : Options} (h : step ∈ Plan.steps options) {file : String}
    (hfile : step.requires = some file) : file = step.file := by
  rcases mem_steps_iff.1 h with
    rfl | ⟨-, -, rfl | rfl⟩ | ⟨-, -, rfl⟩ | rfl | ⟨-, rfl⟩ | ⟨preset, -, rfl | rfl⟩ | ⟨-, rfl⟩ <;>
    cases hfile <;> rfl

end ProjectSetup
