import ProjectSetup.Proofs.Plan

/-!
# Steps that stay in place

A step is in place when its edit finds nothing left to do.  A step that was applied is in place, and
no step of another plan on the same file takes it out of place again, as long as no preset has the
call of the framework in its name and the Babel configuration has no floating-point numbers, which
might not be read again.  So a step that is in place stays there through any number of passes, also
through passes that fail.

* `inPlace_of_passes`: a step that some pass found in place, or applied, is in place in every later
  pass that reaches it; `alreadyApplied_of_event`: what is reported of it.
-/

namespace ProjectSetup

open Json (Value)

/-- The names that come from outside have no line feed. -/
structure Options.OneLine (options : Options) : Prop where
  preset : ∀ preset, options.preset = some preset → '\n' ∉ preset.toList
  fonts : ∀ font ∈ options.fonts, '\n' ∉ font.toList

/-- The name of the preset does not have the call of the framework in it. -/
def Options.NoCall (options : Options) : Prop :=
  ∀ preset, options.preset = some preset → ¬ Plan.vuetifyCall.toList <:+: preset.toList

/-! ### Edits of steps -/

variable {options options' : Options} {step step' : Step}

/-- The entry scripts. -/
def Plan.scripts : List String :=
  ["src/main.js", "src/main.ts"]

/-- The steps of a plan by the files that they are on. -/
theorem step_cases (h : step ∈ Plan.steps options) :
    (step.file ∈ Plan.scripts ∧
      (step = Plan.importPlugin options ∨ step = Plan.importPolyfill options)) ∨
    (step.file = Plan.indexPage ∧
      (step = Plan.linkIconFont ∨ step = Plan.linkFonts options.fonts)) ∨
    (step.file = Plan.pluginFile ∧ ∃ preset, options.preset = some preset ∧
      (step = Plan.importPreset preset ∨ step = Plan.usePreset)) ∨
    (step.file = Plan.babelConfig ∧ ∃ edit, step.edit = .config edit ∧ Plan.IsBabelEdit edit) := by
  have hmain : options.mainFile ∈ Plan.scripts := by
    unfold Options.mainFile
    split_ifs <;> decide
  rcases mem_steps_iff.1 h with
    rfl | ⟨-, -, rfl | rfl⟩ | ⟨-, -, rfl⟩ | rfl | ⟨-, rfl⟩ | ⟨preset, hpreset, rfl | rfl⟩ | ⟨-, rfl⟩
  · exact .inl ⟨hmain, .inl rfl⟩
  · exact .inr (.inr (.inr ⟨rfl, _, rfl, .polyfill⟩))
  · exact .inl ⟨hmain, .inr rfl⟩
  · exact .inr (.inr (.inr ⟨rfl, _, rfl, .transform⟩))
  · exact .inr (.inl ⟨rfl, .inl rfl⟩)
  · exact .inr (.inl ⟨rfl, .inr rfl⟩)
  · exact .inr (.inr (.inl ⟨rfl, preset, hpreset, .inl rfl⟩))
  · exact .inr (.inr (.inl ⟨rfl, preset, hpreset, .inr rfl⟩))
  · exact .inr (.inr (.inr ⟨rfl, _, rfl, .storybook⟩))

/-- The steps on an entry script. -/
theorem script_step (h : step ∈ Plan.steps options) (hfile : step.file ∈ Plan.scripts) :
    step = Plan.importPlugin options ∨ step = Plan.importPolyfill options := by
  rcases step_cases h with ⟨-, hstep⟩ | ⟨hpage, -⟩ | ⟨hplugin, -⟩ | ⟨hbabel, -⟩
  · exact hstep
  · rw [hpage] at hfile
    exact absurd hfile (by decide)
  · rw [hplugin] at hfile
    exact absurd hfile (by decide)
  · rw [hbabel] at hfile
    exact absurd hfile (by decide)

/-- The steps on the page. -/
theorem page_step (h : step ∈ Plan.steps options) (hfile : step.file = Plan.indexPage) :
    step = Plan.linkIconFont ∨ step = Plan.linkFonts options.fonts := by
  rcases step_cases h with ⟨hscript, -⟩ | ⟨-, hstep⟩ | ⟨hplugin, -⟩ | ⟨hbabel, -⟩
  · rw [hfile] at hscript
    exact absurd hscript (by decide)
  · exact hstep
  · rw [hfile] at hplugin
    exact absurd hplugin (by decide)
  · rw [hfile] at hbabel
    exact absurd hbabel (by decide)

/-- The steps on the plugin module. -/
theorem plugin_step (h : step ∈ Plan.steps options) (hfile : step.file = Plan.pluginFile) :
    ∃ preset, options.preset = some preset ∧
      (step = Plan.importPreset preset ∨ step = Plan.usePreset) := by
  rcases step_cases h with ⟨hscript, -⟩ | ⟨hpage, -⟩ | ⟨-, hstep⟩ | ⟨hbabel, -⟩
  · rw [hfile] at hscript
    exact absurd hscript (by decide)
  · rw [hfile] at hpage
    exact absurd hpage (by decide)
  · exact hstep
  · rw [hfile] at hbabel
    exact absurd hbabel (by decide)

/-- The steps on the Babel configuration. -/
theorem babel_step (h : step ∈ Plan.steps options) (hfile : step.file = Plan.babelConfig) :
    ∃ edit, step.edit = .config edit ∧ Plan.IsBabelEdit edit := by
  rcases step_cases h with ⟨hscript, -⟩ | ⟨hpage, -⟩ | ⟨hplugin, -⟩ | ⟨-, hstep⟩
  · rw [hfile] at hscript
    exact absurd hscript (by decide)
  · rw [hfile] at hpage
    exact absurd hpage (by decide)
  · rw [hfile] at hplugin
    exact absurd hplugin (by decide)
  · exact hstep

/-- The steps on the entry script and on the page. -/
theorem line_step (hfonts : ∀ font ∈ options.fonts, '\n' ∉ font.toList)
    (h : step ∈ Plan.steps options)
    (hplugin : step.file ≠ Plan.pluginFile) (hbabel : step.file ≠ Plan.babelConfig) :
    ∃ edit marker, step.edit = .lines edit ∧ edit.Lasting marker := by
  rcases step_cases h with ⟨-, rfl | rfl⟩ | ⟨-, rfl | rfl⟩ | ⟨hin, -⟩ | ⟨hin, -⟩
  · exact ⟨_, _, rfl, lasting_importPlugin⟩
  · exact ⟨_, _, rfl, lasting_importPolyfill⟩
  · exact ⟨_, _, rfl, lasting_linkIconFont⟩
  · exact ⟨_, _, rfl, lasting_linkFonts hfonts⟩
  · exact absurd hin hplugin
  · exact absurd hin hbabel

/-- The text is no config with floating-point numbers. -/
def IntegralText (text? : Option String) : Prop :=
  ∀ value, configOf text? = .ok value → value.Integral

variable {text? : Option String} {text : String}

/-- A step on another file than the plugin module that was applied is in place. -/
theorem inPlace_of_applied_elsewhere (hfonts : ∀ font ∈ options.fonts, '\n' ∉ font.toList)
    (h : step ∈ Plan.steps options) (hplugin : step.file ≠ Plan.pluginFile)
    (hint : step.file = Plan.babelConfig → IntegralText text?)
    (hrew : step.edit.onText text? = .rewritten text) :
    step.edit.onText (some text) = .alreadyApplied := by
  by_cases hbabel : step.file = Plan.babelConfig
  · obtain ⟨edit, hedit, hkind⟩ := babel_step h hbabel
    rw [hedit] at hrew ⊢
    have hsettling := settling_of_isBabelEdit hkind
    obtain ⟨members, items, hconfig, hshape, hlist, hnext, -⟩ :=
      configOf_of_rewritten hsettling (hint hbabel) hrew
    exact inPlace_config_iff.2 ⟨_, hnext, ConfigEdit.done_next hsettling hshape hlist⟩
  · obtain ⟨edit, marker, hedit, hlasting⟩ := line_step hfonts h hplugin hbabel
    rw [hedit] at hrew ⊢
    exact inPlace_of_rewritten hlasting hrew

/-- A step that was applied is in place. -/
theorem inPlace_of_applied (hone : options.OneLine) (h : step ∈ Plan.steps options)
    (hint : step.file = Plan.babelConfig → IntegralText text?)
    (hrew : step.edit.onText text? = .rewritten text) :
    step.edit.onText (some text) = .alreadyApplied := by
  by_cases hplugin : step.file = Plan.pluginFile
  · obtain ⟨preset, hpreset, rfl | rfl⟩ := plugin_step h hplugin
    · exact inPlace_of_rewritten (lasting_importPreset (hone.preset preset hpreset)) hrew
    · exact inPlace_of_keyEdit hrew
  · exact inPlace_of_applied_elsewhere hone.fonts h hplugin hint hrew

/-- The import of a preset stays in place under the steps on the plugin module. -/
theorem inPlace_importPreset_of_other {preset : String} (hone' : options'.OneLine)
    (hcall : ¬ Plan.vuetifyCall.toList <:+: preset.toList) (hfeed : '\n' ∉ preset.toList)
    (h' : step' ∈ Plan.steps options') (hfile : step'.file = Plan.pluginFile)
    (hplace : (Plan.importPreset preset).edit.onText text? = .alreadyApplied)
    (hrew : step'.edit.onText text? = .rewritten text) :
    (Plan.importPreset preset).edit.onText (some text) = .alreadyApplied := by
  have hlasting := lasting_importPreset hfeed
  have hfound := (inPlace_lines_iff hlasting.marker?).1 hplace
  refine (inPlace_lines_iff hlasting.marker?).2 ?_
  obtain ⟨preset', hpreset', rfl | rfl⟩ := plugin_step h' hfile
  · exact foundIn_of_rewritten (lasting_importPreset (hone'.preset preset' hpreset'))
      hlasting.steady hrew hfound
  · exact foundIn_of_keyEdit hcall hfeed hrew hfound

/-- The use of a preset stays in place under the steps on the plugin module. -/
theorem inPlace_usePreset_of_other (hone' : options'.OneLine) (hcall' : options'.NoCall)
    (h' : step' ∈ Plan.steps options') (hfile : step'.file = Plan.pluginFile)
    (hplace : Plan.usePreset.edit.onText text? = .alreadyApplied)
    (hrew : step'.edit.onText text? = .rewritten text) :
    Plan.usePreset.edit.onText (some text) = .alreadyApplied := by
  obtain ⟨preset', hpreset', rfl | rfl⟩ := plugin_step h' hfile
  · exact inPlace_keyEdit_iff.2 (hasKey_of_importPreset (hcall' preset' hpreset')
      (hone'.preset preset' hpreset') hrew (inPlace_keyEdit_iff.1 hplace))
  · rw [hplace] at hrew
    cases hrew

/-- A step on the Babel configuration stays in place under the others. -/
theorem inPlace_config_of_other {edit edit' : ConfigEdit} (hkind : Plan.IsBabelEdit edit)
    (hkind' : Plan.IsBabelEdit edit') (hint : IntegralText text?)
    (hplace : (FileEdit.config edit).onText text? = .alreadyApplied)
    (hrew : (FileEdit.config edit').onText text? = .rewritten text) :
    (FileEdit.config edit).onText (some text) = .alreadyApplied := by
  have hsettling' := settling_of_isBabelEdit hkind'
  obtain ⟨members, items, hconfig, hshape, hlist, hnext, -⟩ :=
    configOf_of_rewritten hsettling' hint hrew
  obtain ⟨members', hconfig', hdone⟩ := inPlace_config_iff.1 hplace
  rw [hconfig] at hconfig'
  obtain rfl := Value.object.inj (Except.ok.inj hconfig')
  exact inPlace_config_iff.2 ⟨_, hnext, ConfigEdit.done_next_of_done hsettling'
    (keptBy_of_isBabelEdit hkind hkind') hshape hlist hdone⟩

/-- A step on another file than the plugin module that is in place stays there when another step
rewrites its file. -/
theorem inPlace_of_other_elsewhere (hfonts : ∀ font ∈ options.fonts, '\n' ∉ font.toList)
    (hfonts' : ∀ font ∈ options'.fonts, '\n' ∉ font.toList) (h : step ∈ Plan.steps options)
    (h' : step' ∈ Plan.steps options') (hfile : step'.file = step.file)
    (hplugin : step.file ≠ Plan.pluginFile)
    (hint : step.file = Plan.babelConfig → IntegralText text?)
    (hplace : step.edit.onText text? = .alreadyApplied)
    (hrew : step'.edit.onText text? = .rewritten text) :
    step.edit.onText (some text) = .alreadyApplied := by
  by_cases hbabel : step.file = Plan.babelConfig
  · obtain ⟨edit, hedit, hkind⟩ := babel_step h hbabel
    obtain ⟨edit', hedit', hkind'⟩ := babel_step h' (hfile.trans hbabel)
    rw [hedit'] at hrew
    rw [hedit] at hplace ⊢
    exact inPlace_config_of_other hkind hkind' (hint hbabel) hplace hrew
  · obtain ⟨edit, marker, hedit, hlasting⟩ := line_step hfonts h hplugin hbabel
    rw [← hfile] at hplugin hbabel
    obtain ⟨edit', marker', hedit', hlasting'⟩ := line_step hfonts' h' hplugin hbabel
    rw [hedit'] at hrew
    rw [hedit, inPlace_lines_iff hlasting.marker?] at hplace ⊢
    exact foundIn_of_rewritten hlasting' hlasting.steady hrew hplace

/-- A step that is in place stays there when another step rewrites its file. -/
theorem inPlace_of_other (hone : options.OneLine) (hone' : options'.OneLine)
    (hcall : options.NoCall) (hcall' : options'.NoCall) (h : step ∈ Plan.steps options)
    (h' : step' ∈ Plan.steps options') (hfile : step'.file = step.file)
    (hint : step.file = Plan.babelConfig → IntegralText text?)
    (hplace : step.edit.onText text? = .alreadyApplied)
    (hrew : step'.edit.onText text? = .rewritten text) :
    step.edit.onText (some text) = .alreadyApplied := by
  by_cases hplugin : step.file = Plan.pluginFile
  · have hplugin' := hfile.trans hplugin
    obtain ⟨preset, hpreset, rfl | rfl⟩ := plugin_step h hplugin
    · exact inPlace_importPreset_of_other hone' (hcall preset hpreset) (hone.preset preset hpreset)
        h' hplugin' hplace hrew
    · exact inPlace_usePreset_of_other hone' hcall' h' hplugin' hplace hrew
  · exact inPlace_of_other_elsewhere hone.fonts hone'.fonts h h' hfile hplugin hint hplace hrew

/-- No step puts a floating-point number into the Babel configuration. -/
theorem integralText_of_rewritten (h : step ∈ Plan.steps options)
    (hfile : step.file = Plan.babelConfig) (hint : IntegralText text?)
    (hrew : step.edit.onText text? = .rewritten text) : IntegralText (some text) := by
  obtain ⟨edit, hedit, hkind⟩ := babel_step h hfile
  rw [hedit] at hrew
  obtain ⟨members, items, -, -, -, hnext, hnextInt⟩ :=
    configOf_of_rewritten (settling_of_isBabelEdit hkind) hint hrew
  intro value hvalue
  rw [hnext] at hvalue
  obtain rfl := Except.ok.inj hvalue
  exact hnextInt

/-! ### Steps on a project -/

variable {root : Place} {tree : Tree} {here : List String} {file : String} {edit : FileEdit}

/-- A tree with a project below the root whose Babel configuration has no floating-point numbers. -/
structure IsProject (root : Place) (here : List String) (tree : Tree) : Prop where
  leadsTo : tree.LeadsTo root.parts here
  integral : ∀ text?, tree.textOf root Plan.babelConfig = .ok text? → IntegralText text?

/-- The edit finds nothing left to do in the file. -/
def InPlace (root : Place) (file : String) (edit : FileEdit) (tree : Tree) : Prop :=
  ∃ text?, tree.textOf root file = .ok text? ∧ edit.onText text? = .alreadyApplied

theorem integralText_of_isProject (hproject : IsProject root here tree)
    (htext : tree.textOf root file = .ok text?) (hfile : file = Plan.babelConfig) :
    IntegralText text? := by
  subst hfile
  exact hproject.integral text? htext

/-- A step keeps a project one, also if it fails. -/
theorem isProject_run (h : step ∈ Plan.steps options)
    (hproject : IsProject root here tree) : IsProject root here (step.run root tree).1 := by
  have hfile := file_mem_files h
  refine ⟨(frame_run hproject.leadsTo hfile).leadsTo, fun text? htext => ?_⟩
  rcases textOf_run_cases hproject.leadsTo hfile (show Plan.babelConfig ∈ Plan.files by decide) with
    ⟨hkept, -⟩ | ⟨hbabel, old, new, hold, hrew, hnew⟩
  · rw [hkept] at htext
    exact hproject.integral text? htext
  · rw [hnew] at htext
    obtain rfl := Except.ok.inj htext
    exact integralText_of_rewritten h hbabel (hproject.integral old hold) hrew

/-- An edit that is in place stays there when a step is run, also if that fails, as long as it stays
there where the step rewrites its file. -/
theorem inPlace_run_of (h' : step' ∈ Plan.steps options') (hfile : file ∈ Plan.files)
    (hproject : IsProject root here tree)
    (hkeep : ∀ {text?} {text : String}, step'.file = file → tree.textOf root file = .ok text? →
      edit.onText text? = .alreadyApplied → step'.edit.onText text? = .rewritten text →
      edit.onText (some text) = .alreadyApplied)
    (hplace : InPlace root file edit tree) : InPlace root file edit (step'.run root tree).1 := by
  obtain ⟨text?, htext, hedit⟩ := hplace
  rcases textOf_run_cases hproject.leadsTo (file_mem_files h') hfile with
    ⟨hkept, -⟩ | ⟨hsame, old, new, hold, hrew, hnew⟩
  · exact ⟨text?, hkept.trans htext, hedit⟩
  · rw [htext] at hold
    obtain rfl := Except.ok.inj hold
    exact ⟨some new, hnew, hkeep hsame htext hedit hrew⟩

/-- A step that is in place stays there when another step is run, also if that fails. -/
theorem inPlace_run (hone : options.OneLine) (hone' : options'.OneLine) (hcall : options.NoCall)
    (hcall' : options'.NoCall) (h : step ∈ Plan.steps options) (h' : step' ∈ Plan.steps options')
    (hproject : IsProject root here tree) (hplace : InPlace root step.file step.edit tree) :
    InPlace root step.file step.edit (step'.run root tree).1 :=
  inPlace_run_of h' (file_mem_files h) hproject
    (fun hsame htext hedit hrew => inPlace_of_other hone hone' hcall hcall' h h' hsame
      (integralText_of_isProject hproject htext) hedit hrew) hplace

/-- A step that was applied, or found nothing left to do, is in place if it is after it was
applied. -/
theorem inPlace_of_verdict_of (h : step ∈ Plan.steps options) (hproject : IsProject root here tree)
    (hdone : ∀ {text?} {text : String}, tree.textOf root step.file = .ok text? →
      step.edit.onText text? = .rewritten text → step.edit.onText (some text) = .alreadyApplied)
    {verdict : Verdict} (hverdict : verdict = .applied ∨ verdict = .alreadyApplied)
    (hrun : (step.run root tree).2 = .ok verdict) :
    InPlace root step.file step.edit (step.run root tree).1 := by
  have hout := outcome_run hproject.leadsTo (file_mem_files h)
  generalize step.run root tree = run at hout hrun
  cases hout with
  | unread => cases hrun
  | unwritten => cases hrun
  | lacking =>
    obtain rfl := Except.ok.inj hrun
    rcases hverdict with heq | heq <;> cases heq
  | skipped =>
    obtain rfl := Except.ok.inj hrun
    rcases hverdict with heq | heq <;> cases heq
  | inPlace _ htext hedit => exact ⟨_, htext, hedit⟩
  | @written _ _ text _ htext hrew hnew => exact ⟨some text, hnew, hdone htext hrew⟩

/-- A step that was applied, or found nothing left to do, is in place. -/
theorem inPlace_of_verdict (hone : options.OneLine) (h : step ∈ Plan.steps options)
    (hproject : IsProject root here tree) {verdict : Verdict}
    (hverdict : verdict = .applied ∨ verdict = .alreadyApplied)
    (hrun : (step.run root tree).2 = .ok verdict) :
    InPlace root step.file step.edit (step.run root tree).1 :=
  inPlace_of_verdict_of h hproject
    (fun htext hrew => inPlace_of_applied hone h (integralText_of_isProject hproject htext) hrew)
    hverdict hrun

/-- A step that needs its file is not in place where that is not there. -/
theorem isSome_of_inPlace (h : step ∈ Plan.steps options) (hreq : step.requires.isSome = true)
    (hplace : step.edit.onText text? = .alreadyApplied) : text?.isSome = true := by
  cases text? with
  | some text => rfl
  | none =>
    have hpreset : ∀ preset, (Plan.importPreset preset).edit.onText none ≠ .alreadyApplied := by
      intro preset hplace
      have hmarker : (LineEdit.insertImport ⟨.pattern Plan.anyImport, .backward⟩
          (Plan.presetImport preset)).marker? = some (.substring (Plan.presetImport preset)) := rfl
      have hfound := (inPlace_lines_iff hmarker).1 hplace
      cases hfound
    rcases mem_steps_iff.1 h with
      rfl | ⟨-, -, rfl | rfl⟩ | ⟨-, -, rfl⟩ | rfl | ⟨-, rfl⟩ | ⟨preset, -, rfl | rfl⟩ | ⟨-, rfl⟩
    · cases hreq
    · cases hreq
    · cases hreq
    · cases hreq
    · cases hreq
    · cases hreq
    · exact absurd hplace (hpreset preset)
    · rcases inPlace_keyEdit_iff.1 hplace with hfound | ⟨line, hfind, -⟩
      · cases hfound
      · cases hfind
    · cases hreq

/-- A step that is in place finds nothing left to do. -/
theorem run_of_inPlace (h : step ∈ Plan.steps options)
    (hplace : InPlace root step.file step.edit tree) :
    (step.run root tree).2 = .ok .alreadyApplied := by
  obtain ⟨text?, htext, hedit⟩ := hplace
  have hown : step.NeedsOwn := fun file hfile => requires_eq h hfile
  have hmissing : step.missingFile? root tree = none := by
    rw [missingFile?_eq hown htext, if_neg]
    intro hlacks
    rw [Bool.and_eq_true] at hlacks
    have := isSome_of_inPlace h hlacks.1 hedit
    rw [Option.isNone_iff_eq_none.1 hlacks.2] at this
    cases this
  have hread : tree.readText? (root.resolve step.file) = .ok text? := htext
  rw [Step.run, hmissing]
  dsimp only
  rw [editAt_eq, hread]
  dsimp only
  rw [hedit]
  rfl

/-! ### Passes -/

/-- The tree that passes leave, one after the other. -/
def afterPasses (root : Place) (tree : Tree) (passes : List Options) : Tree :=
  passes.foldl (fun tree options => (runPass root (Plan.steps options) tree).tree) tree

theorem isProject_runPass (options : Options) (hproject : IsProject root here tree) :
    IsProject root here (runPass root (Plan.steps options) tree).tree :=
  invariant_runSteps (P := IsProject root here) (fun _ hstep _ h => isProject_run hstep h) hproject

theorem isProject_afterPasses (passes : List Options) (hproject : IsProject root here tree) :
    IsProject root here (afterPasses root tree passes) := by
  induction passes generalizing tree with
  | nil => exact hproject
  | cons options passes ih => exact ih (isProject_runPass options hproject)

/-- A step that is in place stays there through a pass. -/
theorem inPlace_runPass (hone : options.OneLine) (hone' : options'.OneLine)
    (hcall : options.NoCall) (hcall' : options'.NoCall) (h : step ∈ Plan.steps options)
    (hproject : IsProject root here tree) (hplace : InPlace root step.file step.edit tree) :
    InPlace root step.file step.edit (runPass root (Plan.steps options') tree).tree := by
  have hboth : IsProject root here (runPass root (Plan.steps options') tree).tree ∧
      InPlace root step.file step.edit (runPass root (Plan.steps options') tree).tree :=
    invariant_runSteps
      (P := fun tree => IsProject root here tree ∧ InPlace root step.file step.edit tree)
      (fun s hs tree h' => ⟨isProject_run hs h'.1,
        inPlace_run hone hone' hcall hcall' h hs h'.1 h'.2⟩) ⟨hproject, hplace⟩
  exact hboth.2

theorem inPlace_afterPasses {passes : List Options} (hone : options.OneLine)
    (hcall : options.NoCall) (hones : ∀ options ∈ passes, options.OneLine)
    (hcalls : ∀ options ∈ passes, options.NoCall) (h : step ∈ Plan.steps options)
    (hproject : IsProject root here tree) (hplace : InPlace root step.file step.edit tree) :
    InPlace root step.file step.edit (afterPasses root tree passes) := by
  induction passes generalizing tree with
  | nil => exact hplace
  | cons options' passes ih =>
    have hone' := hones options' (by simp)
    exact ih (fun o ho => hones o (List.mem_cons_of_mem _ ho))
      (fun o ho => hcalls o (List.mem_cons_of_mem _ ho)) (isProject_runPass options' hproject)
      (inPlace_runPass hone hone' hcall (hcalls options' (by simp)) h hproject hplace)

/-- A step that some pass applies, or finds nothing left to do for, is in place when any later pass
starts. -/
theorem inPlace_of_reached {passes : List Options} {i j : Nat} {verdict : Verdict}
    (hproject : IsProject root here tree)
    (hones : ∀ options ∈ passes, options.OneLine) (hcalls : ∀ options ∈ passes, options.NoCall)
    (hij : i < j) (hi : passes[i]? = some options)
    (hreached : (step, .ok verdict) ∈
      trail root (afterPasses root tree (passes.take i)) (Plan.steps options))
    (hverdict : verdict = .applied ∨ verdict = .alreadyApplied) :
    step ∈ Plan.steps options ∧
      InPlace root step.file step.edit (afterPasses root tree (passes.take j)) := by
  have hmem : options ∈ passes := List.mem_of_getElem? hi
  have hone := hones options hmem
  have hcall := hcalls options hmem
  have htake : ∀ o ∈ passes.take j, o ∈ passes := fun o ho => List.mem_of_mem_take ho
  -- the pass that applies the step or finds it applied
  have hbefore : IsProject root here (afterPasses root tree (passes.take i)) :=
    isProject_afterPasses _ hproject
  have hkeep : ∀ s ∈ Plan.steps options, ∀ tree, IsProject root here tree →
      IsProject root here (s.run root tree).1 := fun s hs tree h => isProject_run hs h
  have hstep : step ∈ Plan.steps options := (exists_of_mem_trail hkeep hbefore hreached).1
  have hplace : InPlace root step.file step.edit
      (runSteps root (afterPasses root tree (passes.take i)) (Plan.steps options)).tree :=
    established_runSteps hkeep
      (fun s hs tree h hplace => inPlace_run hone hone hcall hcall hstep hs h hplace)
      (fun tree h hrun => inPlace_of_verdict hone hstep h hverdict hrun)
      hbefore hreached
  -- the passes from there to the later one
  have hsplit : passes.take j = passes.take (i + 1) ++ (passes.take j).drop (i + 1) := by
    have hcut := List.take_append_drop (i + 1) (passes.take j)
    rw [List.take_take, Nat.min_eq_left hij] at hcut
    exact hcut.symm
  have hnext : passes.take (i + 1) = passes.take i ++ [options] := by
    rw [List.take_add_one, hi]
    rfl
  refine ⟨hstep, ?_⟩
  rw [hsplit, hnext, afterPasses, List.foldl_append, List.foldl_append]
  exact inPlace_afterPasses hone hcall
    (fun o ho => hones o (htake o (List.mem_of_mem_drop ho)))
    (fun o ho => hcalls o (htake o (List.mem_of_mem_drop ho))) hstep
    (isProject_runPass options hbefore) hplace

/-- A step that is in place when a pass starts is found so by every step of the pass with the same
edit on the same file. -/
theorem alreadyApplied_of_inPlace {result : Except Failure Verdict}
    (hproject : IsProject root here tree) (hone : options.OneLine) (hone' : options'.OneLine)
    (hcall : options.NoCall) (hcall' : options'.NoCall) (hstep : step ∈ Plan.steps options)
    (hplace : InPlace root step.file step.edit tree)
    (hreached : (step', result) ∈ trail root tree (Plan.steps options'))
    (hfile : step'.file = step.file) (hedit : step'.edit = step.edit) :
    result = .ok .alreadyApplied := by
  obtain ⟨hstep', mid, ⟨-, hmidPlace⟩, rfl⟩ := exists_of_mem_trail
    (P := fun tree => IsProject root here tree ∧ InPlace root step.file step.edit tree)
    (fun s hs tree h => ⟨isProject_run hs h.1,
      inPlace_run hone hone' hcall hcall' hstep hs h.1 h.2⟩) ⟨hproject, hplace⟩ hreached
  rw [← hfile, ← hedit] at hmidPlace
  exact run_of_inPlace hstep' hmidPlace

/-- **A step once in place stays in place**: when some pass of a sequence applies a step or finds
nothing left to do for it, then so does every later pass that reaches a step with the same edit on
the same file, whatever the options of the passes are, and whether or not passes fail. -/
theorem inPlace_of_passes {passes : List Options} {i j : Nat} {verdict : Verdict}
    {result : Except Failure Verdict} (hproject : IsProject root here tree)
    (hones : ∀ options ∈ passes, options.OneLine) (hcalls : ∀ options ∈ passes, options.NoCall)
    (hij : i < j) (hi : passes[i]? = some options) (hj : passes[j]? = some options')
    (hreached : (step, .ok verdict) ∈
      trail root (afterPasses root tree (passes.take i)) (Plan.steps options))
    (hverdict : verdict = .applied ∨ verdict = .alreadyApplied)
    (hlater : (step', result) ∈
      trail root (afterPasses root tree (passes.take j)) (Plan.steps options'))
    (hfile : step'.file = step.file) (hedit : step'.edit = step.edit) :
    result = .ok .alreadyApplied := by
  have hmem : options ∈ passes := List.mem_of_getElem? hi
  have hmem' : options' ∈ passes := List.mem_of_getElem? hj
  obtain ⟨hstep, hplace⟩ := inPlace_of_reached hproject hones hcalls hij hi hreached hverdict
  exact alreadyApplied_of_inPlace (isProject_afterPasses _ hproject) (hones options hmem)
    (hones options' hmem') (hcalls options hmem) (hcalls options' hmem') hstep hplace hlater hfile
    hedit

/-- A project whose entry script imports the framework. -/
def scriptTree : Tree :=
  .directory [("src", .directory [("main.js", .file (.text "import Vue from 'vue'"))])]

theorem inPlace_of_passes_twice :
    ((Plan.importPlugin {}).run ⟨".", []⟩ (afterPasses ⟨".", []⟩ scriptTree [{}])).2 =
      .ok .alreadyApplied := by
  have hproject : IsProject ⟨".", []⟩ [] scriptTree := by
    have hnone : scriptTree.textOf ⟨".", []⟩ Plan.babelConfig = .ok none := by rfl
    refine ⟨Tree.leadsTo_of_follow rfl rfl, fun text? htext value hvalue => ?_⟩
    rw [hnone] at htext
    obtain rfl := Except.ok.inj htext
    obtain rfl := Except.ok.inj hvalue
    exact trivial
  have hones : ∀ options ∈ ([{}, { polyfill := true }] : List Options), options.OneLine := by
    intro options hmem
    rcases List.mem_pair.1 hmem with rfl | rfl <;> exact ⟨by simp, by simp⟩
  have hcalls : ∀ options ∈ ([{}, { polyfill := true }] : List Options), options.NoCall := by
    simp [Options.NoCall]
  have happlied : ((Plan.importPlugin {}).run ⟨".", []⟩ scriptTree).2 = .ok .applied := by
    decide +kernel
  have hreached := head_mem_trail ⟨".", []⟩ scriptTree (Plan.importPlugin {}) (Plan.steps {}).tail
  rw [happlied] at hreached
  have hzero : ([{}, { polyfill := true }] : List Options)[0]? = some ({} : Options) := rfl
  have hone : ([{}, { polyfill := true }] : List Options)[1]? = some { polyfill := true } := rfl
  exact inPlace_of_passes hproject hones hcalls (by decide) hzero hone hreached (.inl rfl)
    (head_mem_trail _ _ _ _) rfl rfl

/-- **What is reported of a step once in place**: when a pass reports that a step was applied or had
been before, every later pass that comes to its end reports of each step with the same edit on the
same file that it had been applied before.  Events do not name the edit; the event of a step is the
one at its place. -/
theorem alreadyApplied_of_event {passes : List Options} {i j k k' : Nat} {report report' : Report}
    {event event' : Event}
    (hproject : IsProject root here tree) (hones : ∀ options ∈ passes, options.OneLine)
    (hcalls : ∀ options ∈ passes, options.NoCall) (hij : i < j) (hi : passes[i]? = some options)
    (hj : passes[j]? = some options')
    (hpass : (runPass root (Plan.steps options)
      (afterPasses root tree (passes.take i))).result = .ok report)
    (hlater : (runPass root (Plan.steps options')
      (afterPasses root tree (passes.take j))).result = .ok report')
    (hstep : (Plan.steps options)[k]? = some step) (hevent : report.events[k]? = some event)
    (hverdict : event.verdict = .applied ∨ event.verdict = .alreadyApplied)
    (hstep' : (Plan.steps options')[k']? = some step')
    (hevent' : report'.events[k']? = some event')
    (hfile : step'.file = step.file) (hedit : step'.edit = step.edit) :
    event' = ⟨step'.label, step'.file, .alreadyApplied⟩ := by
  have hmem : options ∈ passes := List.mem_of_getElem? hi
  have hmem' : options' ∈ passes := List.mem_of_getElem? hj
  obtain ⟨-, -, hreached⟩ := mem_trail_of_event hpass hstep hevent
  obtain ⟨hlabel', hfile', hreached'⟩ := mem_trail_of_event hlater hstep' hevent'
  obtain ⟨hplan, hplace⟩ := inPlace_of_reached hproject hones hcalls hij hi hreached hverdict
  have hdone := alreadyApplied_of_inPlace (isProject_afterPasses _ hproject) (hones options hmem)
    (hones options' hmem') (hcalls options hmem) (hcalls options' hmem') hplan hplace hreached' hfile
    hedit
  rw [← hlabel', ← hfile', ← Except.ok.inj hdone]

end ProjectSetup
