import ProjectSetup.Proofs.InPlace
import ProjectSetup.Proofs.Missed

/-!
# Second passes

A pass that comes to its end leaves a tree on which the same pass changes nothing, unless it has
missed something on the page, in the plugin module or in the Babel configuration.

* `textThrough_main` and so on: the texts that a pass leaves.
* `rests_linkIconFont_iff` and so on: when the steps of the pass rest afterwards.
* `changesNothing_iff_of_pass`: when the second of two passes changes nothing.
-/

namespace ProjectSetup

variable {options : Options} {text? : Option String}

/-! ### The steps of a plan, file by file -/

/-- The steps of a plan on the entry script, the page, the plugin module and the Babel
configuration. -/
theorem filter_steps (options : Options) :
    ((Plan.steps options).filter fun step => step.file = options.mainFile) =
        Plan.importPlugin options ::
          (if options.polyfill && options.patchesBabel then [Plan.importPolyfill options] else []) ∧
      ((Plan.steps options).filter fun step => step.file = Plan.indexPage) =
        Plan.linkIconFont ::
          (if options.fonts.isEmpty then [] else [Plan.linkFonts options.fonts]) ∧
      ((Plan.steps options).filter fun step => step.file = Plan.pluginFile) =
        (match options.preset with
          | some preset => [Plan.importPreset preset, Plan.usePreset]
          | none => []) ∧
      ((Plan.steps options).filter fun step => step.file = Plan.babelConfig) =
        (if options.polyfill && options.patchesBabel then [Plan.polyfillEntry] else []) ++
          (if options.aLaCarte && options.patchesBabel then [Plan.transformImports] else []) ++
          (if options.storybook then [Plan.storybookPresets] else []) := by
  have hmain : options.mainFile ≠ Plan.indexPage ∧ options.mainFile ≠ Plan.pluginFile ∧
      options.mainFile ≠ Plan.babelConfig := by
    unfold Options.mainFile
    split_ifs <;> decide
  have hpage : Plan.indexPage ≠ Plan.pluginFile ∧ Plan.indexPage ≠ Plan.babelConfig := by decide
  have hplugin : Plan.pluginFile ≠ Plan.babelConfig := by decide
  unfold Plan.steps
  simp only [List.filter_append, apply_ite (List.filter _)]
  cases options.preset <;>
    simp [Plan.importPlugin, Plan.polyfillEntry, Plan.importPolyfill, Plan.transformImports,
      Plan.linkIconFont, Plan.linkFonts, Plan.importPreset, Plan.usePreset, Plan.storybookPresets,
      hmain, hmain.1.symm, hmain.2.1.symm, hmain.2.2.symm, hpage, hpage.1.symm, hpage.2.symm,
      hplugin, hplugin.symm]

theorem linkIconFont_mem_steps (options : Options) : Plan.linkIconFont ∈ Plan.steps options :=
  mem_steps_iff.2 (.inr (.inr (.inr (.inl rfl))))

theorem importPreset_mem_steps {preset : String} (h : options.preset = some preset) :
    Plan.importPreset preset ∈ Plan.steps options :=
  mem_steps_iff.2 (.inr (.inr (.inr (.inr (.inr (.inl ⟨preset, h, .inl rfl⟩))))))

theorem polyfillEntry_mem_steps (h : options.polyfill = true) (hscript : options.typescript = false) :
    Plan.polyfillEntry ∈ Plan.steps options :=
  mem_steps_iff.2 (.inr (.inl ⟨h, hscript, .inl rfl⟩))

theorem textThrough_main : textThrough options.mainFile (Plan.steps options) text? =
    if options.polyfill && options.patchesBabel then
      (Plan.importPolyfill options).edit.textAfter ((Plan.importPlugin options).edit.textAfter text?)
    else (Plan.importPlugin options).edit.textAfter text? := by
  rw [← textThrough_filter, (filter_steps options).1]
  split_ifs <;> simp [textThrough, Plan.importPlugin, Plan.importPolyfill, Step.textAfter]

theorem textThrough_page : textThrough Plan.indexPage (Plan.steps options) text? =
    if options.fonts.isEmpty then Plan.linkIconFont.edit.textAfter text?
    else (Plan.linkFonts options.fonts).edit.textAfter (Plan.linkIconFont.edit.textAfter text?) := by
  rw [← textThrough_filter, (filter_steps options).2.1]
  split_ifs <;> simp [textThrough, Plan.linkIconFont, Plan.linkFonts, Step.textAfter]

theorem textThrough_plugin {preset text : String} (h : options.preset = some preset) :
    textThrough Plan.pluginFile (Plan.steps options) (some text) =
      Plan.usePreset.edit.textAfter ((Plan.importPreset preset).edit.textAfter (some text)) := by
  rw [← textThrough_filter, (filter_steps options).2.2.1, h]
  obtain ⟨new, hnew⟩ := (Plan.importPreset preset).edit.exists_textAfter text
  have hfirst : (Plan.importPreset preset).file = Plan.pluginFile := rfl
  have hsecond : Plan.usePreset.file = Plan.pluginFile := rfl
  dsimp only
  rw [textThrough, List.foldl_cons, if_pos hfirst, List.foldl_cons, if_pos hsecond,
    Step.textAfter_some, hnew, Step.textAfter_some]
  rfl

theorem textThrough_babel : textThrough Plan.babelConfig (Plan.steps options) text? =
    let first := if options.polyfill && options.patchesBabel then
      Plan.polyfillEntry.edit.textAfter text? else text?
    let mid := transformed (options.aLaCarte && options.patchesBabel) first
    if options.storybook then Plan.storybookPresets.edit.textAfter mid else mid := by
  rw [← textThrough_filter, (filter_steps options).2.2.2]
  unfold transformed
  split_ifs <;>
    simp [textThrough, Plan.polyfillEntry, Plan.transformImports, Plan.storybookPresets,
      Step.textAfter]

/-! ### Steps after a pass -/

variable {root : Place} {tree : Tree} {here : List String} {events : List Event} {step : Step}

/-- The pass over the tree comes to its end, applies no step and leaves the tree as it is. -/
def ChangesNothing (root : Place) (options : Options) (tree : Tree) : Prop :=
  (∃ report, (runPass root (Plan.steps options) tree).result = .ok report ∧ report.applied = 0) ∧
    (runPass root (Plan.steps options) tree).tree = tree

theorem changesNothing_iff_rests (hlead : tree.LeadsTo root.parts here) :
    ChangesNothing root options tree ↔ ∀ step ∈ Plan.steps options, step.Rests root tree := by
  rw [← changesNothing_iff (fun _ => file_mem_files) hlead, ChangesNothing, tree_runPass]
  refine and_congr ⟨?_, ?_⟩ Iff.rfl
  · rintro ⟨report, hok, hnone⟩
    refine ⟨report.events, result_runPass_eq_ok_iff.1 hok, fun event hevent happlied => ?_⟩
    exact List.countP_eq_zero.1 hnone event hevent (by simp [happlied])
  · rintro ⟨events, hok, hnone⟩
    refine ⟨⟨events⟩, result_runPass_eq_ok_iff.2 hok, ?_⟩
    rw [Report.applied, List.countP_eq_zero]
    intro event hevent happlied
    exact hnone event hevent (by simpa using happlied)

section

variable (hlead : tree.LeadsTo root.parts here)
  (hok : (runSteps root tree (Plan.steps options)).result = .ok events)

include hlead hok

theorem textOf_after {file : String} (hfile : file ∈ Plan.files)
    (htext : tree.textOf root file = .ok text?) :
    (runSteps root tree (Plan.steps options)).tree.textOf root file =
      .ok (textThrough file (Plan.steps options) text?) :=
  textOf_runSteps (fun _ hs _ => requires_eq hs) (fun _ => file_mem_files) hfile hlead hok htext

/-- A step that needs no file rests after a pass if it leaves the text as it is that the pass
makes. -/
theorem rests_after_iff (hstep : step ∈ Plan.steps options) (hreq : step.requires = none) :
    ∃ text?, tree.textOf root step.file = .ok text? ∧
      (step.Rests root (runSteps root tree (Plan.steps options)).tree ↔
        step.edit.Idle (textThrough step.file (Plan.steps options) text?)) := by
  have hfile := file_mem_files hstep
  rcases textOf_or_lacks (fun _ hs _ => requires_eq hs) (fun _ => file_mem_files) hlead hok hstep
    with ⟨text?, htext⟩ | ⟨hsome, -⟩
  · refine ⟨text?, htext, ?_⟩
    rw [rests_iff (leadsTo_runSteps (fun _ => file_mem_files) hlead) hfile
      (fun _ => requires_eq hstep) (textOf_after hlead hok hfile htext), hreq]
    simp
  · rw [hreq] at hsome
    cases hsome

theorem rests_after_iff_of_there {text : String} (hstep : step ∈ Plan.steps options)
    (htext : tree.textOf root step.file = .ok (some text)) :
    step.Rests root (runSteps root tree (Plan.steps options)).tree ↔
      step.edit.Idle (textThrough step.file (Plan.steps options) (some text)) := by
  have hfile := file_mem_files hstep
  obtain ⟨new, hnew⟩ := exists_textThrough step.file (Plan.steps options) text
  rw [rests_iff (leadsTo_runSteps (fun _ => file_mem_files) hlead) hfile
    (fun _ => requires_eq hstep) (textOf_after hlead hok hfile htext), hnew]
  simp

theorem rests_importPlugin :
    (Plan.importPlugin options).Rests root (runSteps root tree (Plan.steps options)).tree := by
  have hstep : Plan.importPlugin options ∈ Plan.steps options := mem_steps_iff.2 (.inl rfl)
  obtain ⟨text?, -, hiff⟩ := rests_after_iff hlead hok hstep rfl
  rw [hiff]
  show (Plan.importPlugin options).edit.Idle
    (textThrough options.mainFile (Plan.steps options) text?)
  rw [textThrough_main]
  split_ifs
  · exact idle_importPlugin
  · exact idle_textAfter fun _ => inPlace_of_rewritten lasting_importPlugin

theorem rests_importPolyfill (hpolyfill : options.polyfill = true)
    (hscript : options.typescript = false) :
    (Plan.importPolyfill options).Rests root (runSteps root tree (Plan.steps options)).tree := by
  have hstep : Plan.importPolyfill options ∈ Plan.steps options :=
    mem_steps_iff.2 (.inr (.inl ⟨hpolyfill, hscript, .inr rfl⟩))
  obtain ⟨text?, -, hiff⟩ := rests_after_iff hlead hok hstep rfl
  rw [hiff]
  show (Plan.importPolyfill options).edit.Idle
    (textThrough options.mainFile (Plan.steps options) text?)
  rw [textThrough_main, hpolyfill, Options.patchesBabel, hscript]
  exact idle_textAfter fun _ => inPlace_of_rewritten lasting_importPolyfill

theorem rests_linkIconFont_iff (hone : options.OneLine) :
    Plan.linkIconFont.Rests root (runSteps root tree (Plan.steps options)).tree ↔
      ¬ (options.fonts ≠ [] ∧ ∃ text?, tree.textOf root Plan.indexPage = .ok text? ∧
        LateLink options.fonts text?) := by
  obtain ⟨text?, htext, hiff⟩ := rests_after_iff hlead hok (linkIconFont_mem_steps options) rfl
  have hpage : tree.textOf root Plan.indexPage = .ok text? := htext
  have hlate : (options.fonts ≠ [] ∧ ∃ text?, tree.textOf root Plan.indexPage = .ok text? ∧
      LateLink options.fonts text?) ↔ options.fonts ≠ [] ∧ LateLink options.fonts text? := by
    rw [hpage]
    simp
  have hafter : textThrough Plan.linkIconFont.file (Plan.steps options) text? =
      textThrough Plan.indexPage (Plan.steps options) text? := rfl
  rw [hiff, hlate, hafter, textThrough_page]
  split_ifs with hempty
  · have hfonts : options.fonts = [] := List.isEmpty_iff.1 hempty
    refine iff_of_true ?_ fun h => h.1 hfonts
    exact idle_textAfter fun _ => inPlace_of_rewritten lasting_linkIconFont
  · have hfonts : options.fonts ≠ [] := fun h => hempty (List.isEmpty_iff.2 h)
    rw [idle_linkIconFont_iff hone.fonts, and_iff_right hfonts]

theorem rests_linkFonts (hone : options.OneLine) (hfonts : options.fonts ≠ []) :
    (Plan.linkFonts options.fonts).Rests root
      (runSteps root tree (Plan.steps options)).tree := by
  have hstep : Plan.linkFonts options.fonts ∈ Plan.steps options :=
    mem_steps_iff.2 (.inr (.inr (.inr (.inr (.inl ⟨hfonts, rfl⟩)))))
  obtain ⟨text?, -, hiff⟩ := rests_after_iff hlead hok hstep rfl
  have hempty : options.fonts.isEmpty = false := List.isEmpty_eq_false_iff.2 hfonts
  have hafter : textThrough (Plan.linkFonts options.fonts).file (Plan.steps options) text? =
      textThrough Plan.indexPage (Plan.steps options) text? := rfl
  rw [hiff, hafter, textThrough_page, hempty]
  exact idle_textAfter fun _ => inPlace_of_rewritten (lasting_linkFonts hone.fonts)

/-- The plugin module is there before the pass, or it is there neither before nor after it. -/
theorem plugin_cases (hstep : step ∈ Plan.steps options) (hfile : step.file = Plan.pluginFile) :
    (∃ text, tree.textOf root Plan.pluginFile = .ok (some text)) ∨
      (tree.has (root.resolve Plan.pluginFile).parts = false ∧
        (runSteps root tree (Plan.steps options)).tree.has
          (root.resolve Plan.pluginFile).parts = false) := by
  have hmem : Plan.pluginFile ∈ Plan.files := by decide
  have hreq : ∀ s ∈ Plan.steps options, s.file = Plan.pluginFile → s.requires = some s.file := by
    intro s hs hplugin
    obtain ⟨preset, -, rfl | rfl⟩ := plugin_step hs hplugin <;> rfl
  have hgone : tree.has (root.resolve Plan.pluginFile).parts = false →
      tree.has (root.resolve Plan.pluginFile).parts = false ∧
        (runSteps root tree (Plan.steps options)).tree.has
          (root.resolve Plan.pluginFile).parts = false :=
    fun hbefore => ⟨hbefore, has_runSteps hmem (fun _ => file_mem_files) hreq hlead hbefore⟩
  rcases textOf_or_lacks (fun _ hs _ => requires_eq hs) (fun _ => file_mem_files) hlead hok hstep
    with ⟨text?, htext⟩ | ⟨-, hlacks⟩
  · rw [hfile] at htext
    cases text? with
    | some text => exact .inl ⟨text, htext⟩
    | none => exact .inr (hgone (Tree.has_of_textOf htext))
  · rw [hfile] at hlacks
    exact .inr (hgone hlacks)

theorem rests_importPreset_iff (hone : options.OneLine) {preset : String}
    (hpreset : options.preset = some preset) :
    (Plan.importPreset preset).Rests root (runSteps root tree (Plan.steps options)).tree ↔
      ¬ ∃ text, tree.textOf root Plan.pluginFile = .ok (some text) ∧
        LostImport preset (some text) := by
  have hstep := importPreset_mem_steps hpreset
  rcases plugin_cases hlead hok hstep rfl with ⟨text, htext⟩ | ⟨hbefore, hgone⟩
  · have hfile : (Plan.importPreset preset).file = Plan.pluginFile := rfl
    have hlost : (∃ text, tree.textOf root Plan.pluginFile = .ok (some text) ∧
        LostImport preset (some text)) ↔ LostImport preset (some text) := by
      rw [htext]
      simp
    rw [rests_after_iff_of_there hlead hok hstep htext, hlost, hfile, textThrough_plugin hpreset]
    exact idle_importPreset_iff (hone.preset preset hpreset)
  · refine iff_of_true (rests_of_lacks ⟨rfl, hgone⟩) ?_
    rintro ⟨text, htext, -⟩
    have hthere := Tree.has_of_textOf htext
    rw [hbefore] at hthere
    cases hthere

theorem rests_usePreset {preset : String} (hpreset : options.preset = some preset) :
    Plan.usePreset.Rests root (runSteps root tree (Plan.steps options)).tree := by
  have hstep : Plan.usePreset ∈ Plan.steps options :=
    mem_steps_iff.2 (.inr (.inr (.inr (.inr (.inr (.inl ⟨preset, hpreset, .inr rfl⟩))))))
  rcases plugin_cases hlead hok hstep rfl with ⟨text, htext⟩ | ⟨-, hgone⟩
  · have hfile : Plan.usePreset.file = Plan.pluginFile := rfl
    rw [rests_after_iff_of_there hlead hok hstep htext, hfile, textThrough_plugin hpreset]
    exact idle_textAfter fun _ => inPlace_of_keyEdit
  · exact rests_of_lacks ⟨rfl, hgone⟩

theorem rests_transformImports (hcarte : options.aLaCarte = true)
    (hscript : options.typescript = false) :
    Plan.transformImports.Rests root (runSteps root tree (Plan.steps options)).tree := by
  have hstep : Plan.transformImports ∈ Plan.steps options :=
    mem_steps_iff.2 (.inr (.inr (.inl ⟨hcarte, hscript, rfl⟩)))
  obtain ⟨text?, -, hiff⟩ := rests_after_iff hlead hok hstep rfl
  have hfile : Plan.transformImports.file = Plan.babelConfig := rfl
  have hsettling := settling_of_isBabelEdit .transform
  rw [hiff, hfile, textThrough_babel, hcarte, Options.patchesBabel, hscript]
  cases options.storybook with
  | false => exact idle_textAfter_config hsettling
  | true =>
    exact idle_textAfter_config_of_ne hsettling (settling_of_isBabelEdit .storybook) (by decide)
      (idle_textAfter_config hsettling)

theorem rests_storybookPresets (hstorybook : options.storybook = true) :
    Plan.storybookPresets.Rests root (runSteps root tree (Plan.steps options)).tree := by
  have hstep : Plan.storybookPresets ∈ Plan.steps options :=
    mem_steps_iff.2 (.inr (.inr (.inr (.inr (.inr (.inr ⟨hstorybook, rfl⟩))))))
  obtain ⟨text?, -, hiff⟩ := rests_after_iff hlead hok hstep rfl
  have hfile : Plan.storybookPresets.file = Plan.babelConfig := rfl
  rw [hiff, hfile, textThrough_babel, hstorybook]
  exact idle_textAfter_config (settling_of_isBabelEdit .storybook)

theorem rests_polyfillEntry_iff (hpolyfill : options.polyfill = true)
    (hscript : options.typescript = false) :
    Plan.polyfillEntry.Rests root (runSteps root tree (Plan.steps options)).tree ↔
      ¬ (options.storybook = true ∧ ∃ text? after?,
        tree.textOf root Plan.babelConfig = .ok text? ∧
        (runSteps root tree (Plan.steps options)).tree.textOf root Plan.babelConfig = .ok after? ∧
        LateList text? after?) := by
  obtain ⟨text?, htext, hiff⟩ :=
    rests_after_iff hlead hok (polyfillEntry_mem_steps hpolyfill hscript) rfl
  have hfile : Plan.polyfillEntry.file = Plan.babelConfig := rfl
  rw [hfile] at htext
  have hlate : (∃ text? after?, tree.textOf root Plan.babelConfig = .ok text? ∧
      (runSteps root tree (Plan.steps options)).tree.textOf root Plan.babelConfig = .ok after? ∧
      LateList text? after?) ↔
      LateList text? (textThrough Plan.babelConfig (Plan.steps options) text?) := by
    rw [textOf_after hlead hok (by decide) htext, htext]
    simp
  rw [hiff, hlate, hfile, textThrough_babel, hpolyfill, Options.patchesBabel, hscript]
  cases options.storybook with
  | false =>
    refine iff_of_true (idle_transformed ?_) fun h => absurd h.1 (by simp)
    exact idle_textAfter_config (settling_of_isBabelEdit .polyfill)
  | true =>
    rw [and_iff_right rfl]
    exact idle_polyfillEntry_iff

end

/-! ### Two passes -/

theorem ok_of_isSome {α : Type} {result : Except Failure α}
    (h : result.toOption.isSome = true) : ∃ value, result = .ok value := by
  cases result with
  | error failure => cases h
  | ok value => exact ⟨value, rfl⟩

/-- What a pass leaves to be done by a second one. -/
inductive Unsettled (root : Place) (options : Options) (tree after : Tree) : Prop where
  /-- The icon font, as the page had no link to put it below. -/
  | page {text? : Option String} : options.fonts ≠ [] →
    tree.textOf root Plan.indexPage = .ok text? → LateLink options.fonts text? →
    Unsettled root options tree after
  /-- The import of the preset, which was lost when the preset was passed to the framework. -/
  | plugin {preset text : String} : options.preset = some preset →
    tree.textOf root Plan.pluginFile = .ok (some text) → LostImport preset (some text) →
    Unsettled root options tree after
  /-- The use of the polyfill, as the config had no presets. -/
  | babel {text? after? : Option String} : options.polyfill = true → options.typescript = false →
    options.storybook = true → tree.textOf root Plan.babelConfig = .ok text? →
    after.textOf root Plan.babelConfig = .ok after? → LateList text? after? →
    Unsettled root options tree after

/-- **A second pass changes nothing** after one that came to its end, but where that put in the first
link of the page, or the presets of the Babel configuration, after it had looked for them, or lost
the import of the preset.  The root of the project is a directory, or names below one lead to it. -/
theorem changesNothing_iff_of_pass {report : Report} (hlead : tree.LeadsTo root.parts here)
    (hone : options.OneLine) (hpass : (runPass root (Plan.steps options) tree).result = .ok report) :
    ChangesNothing root options (runPass root (Plan.steps options) tree).tree ↔
      ¬ Unsettled root options tree (runPass root (Plan.steps options) tree).tree := by
  have hok := result_runPass_eq_ok_iff.1 hpass
  rw [tree_runPass, changesNothing_iff_rests (leadsTo_runSteps (fun _ => file_mem_files) hlead)]
  constructor
  · rintro hall (⟨hfonts, htext, hlate⟩ | ⟨hpreset, htext, hlost⟩ |
      ⟨hpolyfill, hscript, hstorybook, htext, hafter, hlate⟩)
    · have hrest := hall Plan.linkIconFont (linkIconFont_mem_steps options)
      exact (rests_linkIconFont_iff hlead hok hone).1 hrest ⟨hfonts, _, htext, hlate⟩
    · have hrest := hall (Plan.importPreset _) (importPreset_mem_steps hpreset)
      exact (rests_importPreset_iff hlead hok hone hpreset).1 hrest ⟨_, htext, hlost⟩
    · have hrest := hall Plan.polyfillEntry (polyfillEntry_mem_steps hpolyfill hscript)
      exact (rests_polyfillEntry_iff hlead hok hpolyfill hscript).1 hrest
        ⟨hstorybook, _, _, htext, hafter, hlate⟩
  · intro hsettled step hstep
    rcases mem_steps_iff.1 hstep with
      rfl | ⟨hpolyfill, hscript, rfl | rfl⟩ | ⟨hcarte, hscript, rfl⟩ | rfl | ⟨hfonts, rfl⟩ |
      ⟨preset, hpreset, rfl | rfl⟩ | ⟨hstorybook, rfl⟩
    · exact rests_importPlugin hlead hok
    · refine (rests_polyfillEntry_iff hlead hok hpolyfill hscript).2 ?_
      rintro ⟨hstorybook, text?, after?, htext, hafter, hlate⟩
      exact hsettled (.babel hpolyfill hscript hstorybook htext hafter hlate)
    · exact rests_importPolyfill hlead hok hpolyfill hscript
    · exact rests_transformImports hlead hok hcarte hscript
    · refine (rests_linkIconFont_iff hlead hok hone).2 ?_
      rintro ⟨hfonts, text?, htext, hlate⟩
      exact hsettled (.page hfonts htext hlate)
    · exact rests_linkFonts hlead hok hone hfonts
    · refine (rests_importPreset_iff hlead hok hone hpreset).2 ?_
      rintro ⟨text, htext, hlost⟩
      exact hsettled (.plugin hpreset htext hlost)
    · exact rests_usePreset hlead hok hpreset
    · exact rests_storybookPresets hlead hok hstorybook

theorem changesNothing_of_pass_scripts :
    ChangesNothing ⟨".", []⟩ {} (runPass ⟨".", []⟩ (Plan.steps {}) scriptTree).tree := by
  have hlead : scriptTree.LeadsTo (Place.parts ⟨".", []⟩) [] := Tree.leadsTo_of_follow rfl rfl
  have hone : ({} : Options).OneLine := ⟨by simp, by simp⟩
  obtain ⟨report, hpass⟩ : ∃ report, (runPass ⟨".", []⟩ (Plan.steps {}) scriptTree).result =
      .ok report := ok_of_isSome (by decide +kernel)
  refine (changesNothing_iff_of_pass hlead hone hpass).2 ?_
  rintro (⟨hfonts, -, -⟩ | ⟨hpreset, -, -⟩ | ⟨hpolyfill, -, -, -, -, -⟩)
  · exact hfonts rfl
  · cases hpreset
  · cases hpolyfill

/-- A project whose page has no link. -/
def pageTree : Tree :=
  .directory [("public", .directory [("index.html", .file (.text "</head>"))])]

/-- The link to the fonts is the first one of the page, and a second pass links the icon font below
it. -/
theorem not_changesNothing_of_page :
    pageTree.LeadsTo (Place.parts ⟨".", []⟩) [] ∧ ({ fonts := ["Lato"] } : Options).OneLine ∧
      (∃ report, (runPass ⟨".", []⟩ (Plan.steps { fonts := ["Lato"] }) pageTree).result =
        .ok report) ∧
      ¬ ChangesNothing ⟨".", []⟩ { fonts := ["Lato"] }
        (runPass ⟨".", []⟩ (Plan.steps { fonts := ["Lato"] }) pageTree).tree := by
  have hlead : pageTree.LeadsTo (Place.parts ⟨".", []⟩) [] := Tree.leadsTo_of_follow rfl rfl
  have hone : ({ fonts := ["Lato"] } : Options).OneLine := ⟨by simp, by decide⟩
  obtain ⟨events, hok⟩ : ∃ events,
      (runSteps ⟨".", []⟩ pageTree (Plan.steps { fonts := ["Lato"] })).result = .ok events :=
    ok_of_isSome (by decide +kernel)
  refine ⟨hlead, hone, ⟨⟨events⟩, result_runPass_eq_ok_iff.2 hok⟩, fun hnothing => ?_⟩
  rw [tree_runPass] at hnothing
  have hrest := (changesNothing_iff_rests (leadsTo_runSteps (fun _ => file_mem_files) hlead)).1
    hnothing Plan.linkIconFont (linkIconFont_mem_steps _)
  have htext : pageTree.textOf ⟨".", []⟩ Plan.indexPage = .ok (some "</head>") := by rfl
  refine (rests_linkIconFont_iff hlead hok hone).1 hrest ⟨by simp, _, htext, ?_⟩
  refine ⟨by decide +kernel, by decide +kernel, by decide +kernel, by decide +kernel, ?_⟩
  rw [← Text.occursIn_iff]
  decide +kernel

end ProjectSetup
