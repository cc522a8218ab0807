import ProjectSetup.Proofs.Completion
import ProjectSetup.Proofs.Landing
import ProjectSetup.Proofs.SecondPass

/-!
# The plugin module after a setup

A setup writes the plugin module anew and then lets the two steps of a preset edit it.  Neither the
old module nor the rest of the tree has a part in this: what a setup that comes to its end leaves
there, and what it reports of it, follow from the options.

* `rewritten_importPreset`, `rewritten_usePreset`: what the two steps make of the new module.
* `written_of_parts`: the module that the steps find.
* `pluginModule_of_setup`: the module in the end.
-/

namespace ProjectSetup

open Text

variable {options : Options} {preset : String}

/-! ### The lines of the module -/

namespace Template

/-- The imports of the module above the last one. -/
def firstImports (options : Options) : List String :=
  ["import Vue from 'vue'"] ++
  (if options.typescript then ["// @ts-ignore: vuetify ships its own declarations"] else []) ++
  if options.aLaCarte then [] else ["import Vuetify from 'vuetify'"]

/-- The last import of the module. -/
def lastImport (options : Options) : String :=
  if options.aLaCarte then "import Vuetify from 'vuetify/lib'"
  else "import 'vuetify/dist/vuetify.min.css'"

/-- The lines between the imports and the call of the framework. -/
def registration : List String :=
  ["", "Vue.use(Vuetify)", ""]

/-- The line with the call of the framework. -/
def exportLine : String :=
  "export default new Vuetify(\x7b"

/-- The lines below the call of the framework. -/
def icons : List String :=
  ["  icons: \x7b", "    iconfont: 'mdi',", "  \x7d,", "\x7d)", ""]

theorem pluginLines_eq (options : Options) :
    pluginLines options =
      firstImports options ++ lastImport options :: (registration ++ exportLine :: icons) := by
  unfold pluginLines firstImports lastImport
  split_ifs <;> rfl

/-- Every line that the module has for some options. -/
def everyLine : List String :=
  pluginLines { typescript := true, aLaCarte := true } ++ pluginLines { typescript := true }

/-- The options choose among few lines. -/
theorem pluginLines_subset (options : Options) : pluginLines options ⊆ everyLine := by
  have hall : ∀ typescript aLaCarte : Bool,
      pluginLines { typescript := typescript, aLaCarte := aLaCarte } ⊆ everyLine := by
    decide
  exact hall options.typescript options.aLaCarte

theorem firstImports_subset (options : Options) : firstImports options ⊆ everyLine := by
  refine List.Subset.trans ?_ (pluginLines_subset options)
  rw [pluginLines_eq]
  exact List.subset_append_left _ _

end Template

open Template

/-- The lines of a module with a preset: the import of the preset stands right below the last import,
and its key right below the call of the framework. -/
inductive PresetAdded (preset : String) : List String → List String → Prop where
  | intro {above middle below : List String} {last : String} :
    Plan.anyImport.occursIn last = true →
    (∀ line ∈ middle ++ exportLine :: below, Plan.anyImport.occursIn line = false) →
    PresetAdded preset (above ++ last :: (middle ++ exportLine :: below))
      (above ++ last :: Plan.presetImport preset :: (middle ++ exportLine :: "  preset," :: below))

/-- A preset whose name is on one line and has nothing in it that the use of a preset looks for. -/
structure CleanPreset (preset : String) : Prop where
  oneLine : '\n' ∉ preset.toList
  noComma : ¬ "preset,".toList <:+: preset.toList
  noColon : ¬ "preset:".toList <:+: preset.toList
  noCall : ¬ Plan.vuetifyCall.toList <:+: preset.toList

/-- The import of a preset has nothing in it that the use of a preset looks for, either. -/
theorem not_infix_of_clean (h : CleanPreset preset) {needle : String}
    (hneedle : needle ∈ ["preset,", "preset:", Plan.vuetifyCall]) :
    ¬ needle.toList <:+: (Plan.presetImport preset).toList := by
  have hclosed : ∀ needle ∈ ["preset,", "preset:", Plan.vuetifyCall],
      '-' ∉ needle.toList ∧ '/' ∉ needle.toList ∧
        occursIn needle.toList Plan.presetFront.toList = false ∧
        occursIn needle.toList "/preset'".toList = false := by decide +kernel
  obtain ⟨hhyphen, hslash, hfront, hback⟩ := hclosed needle hneedle
  rw [occursIn_eq_false_iff] at hfront hback
  refine not_infix_presetImport_of hhyphen hslash hfront hback ?_
  simp only [List.mem_cons, List.not_mem_nil, or_false] at hneedle
  rcases hneedle with rfl | rfl | rfl
  · exact h.noComma
  · exact h.noColon
  · exact h.noCall

/-! ### Written lines are read again -/

theorem noEnding_of_mem_everyLine {line : String} (h : line ∈ everyLine) :
    '\n' ∉ line.toList ∧ line.toList.getLast? ≠ some '\r' := by
  revert line
  decide +kernel

theorem noEnding_presetImport (h : CleanPreset preset) :
    '\n' ∉ (Plan.presetImport preset).toList ∧
      (Plan.presetImport preset).toList.getLast? ≠ some '\r' := by
  rw [toList_presetImport]
  constructor
  · rw [List.mem_append, List.mem_append, not_or, not_or]
    exact ⟨by decide, h.oneLine, by decide⟩
  · rw [← List.append_assoc, List.getLast?_append_of_ne_nil _ (by decide)]
    decide

theorem linesOf_plugin (options : Options) :
    linesOf (some (Template.plugin options)) = pluginLines options := by
  refine linesOf_joinLines_self ?_ fun line hline =>
    noEnding_of_mem_everyLine (pluginLines_subset options hline)
  rw [pluginLines_eq]
  simp

/-! ### The steps of a preset -/

/-- The lines of the module with the import of a preset. -/
def importLines (options : Options) (preset : String) : List String :=
  firstImports options ++ lastImport options :: Plan.presetImport preset ::
    (registration ++ exportLine :: icons)

/-- The lines of the module with the import of a preset and its key. -/
def presetLines (options : Options) (preset : String) : List String :=
  firstImports options ++ lastImport options :: Plan.presetImport preset ::
    (registration ++ exportLine :: "  preset," :: icons)

theorem anyImport_lastImport (options : Options) :
    Plan.anyImport.occursIn (lastImport options) = true := by
  unfold lastImport
  split_ifs <;> decide

theorem anyImport_below :
    ∀ line ∈ registration ++ exportLine :: icons, Plan.anyImport.occursIn line = false := by
  decide

theorem presetAdded (options : Options) (preset : String) :
    PresetAdded preset (pluginLines options) (presetLines options preset) := by
  rw [pluginLines_eq]
  exact .intro (anyImport_lastImport options) anyImport_below

/-- The new module has no import of a preset. -/
theorem foundIn_pluginLines (options : Options) (preset : String) :
    (Matcher.substring (Plan.presetImport preset)).foundIn (pluginLines options) = false := by
  have hnone : ∀ line ∈ everyLine, occursIn Plan.presetFront.toList line.toList = false := by
    decide
  rw [Matcher.foundIn_eq_false_iff]
  intro line hline
  have hfront := hnone line (pluginLines_subset options hline)
  rw [occursIn_eq_false_iff] at hfront
  rw [Matcher.accepts, occursIn_eq_false_iff, toList_presetImport]
  exact fun hin => hfront ((List.prefix_append _ _).isInfix.trans hin)

/-- The step that imports a preset finds the last import. -/
theorem rewritten_importPreset (options : Options) (preset : String) :
    (Plan.importPreset preset).edit.onText (some (Template.plugin options)) =
      .rewritten (joinLines (importLines options preset)) := by
  have hedit : (Plan.importPreset preset).edit = .lines (.insertImport
      ⟨.pattern Plan.anyImport, .backward⟩ (Plan.presetImport preset)) := rfl
  have hfind : Anchor.find? ⟨.pattern Plan.anyImport, .backward⟩ (pluginLines options) =
      some (firstImports options).length := by
    rw [pluginLines_eq]
    exact lastIdx?_there (anyImport_lastImport options) anyImport_below
  rw [hedit]
  refine onText_lines_eq_rewritten_iff.2 ⟨importLines options preset, ?_, rfl⟩
  rw [linesOf_plugin, LineEdit.apply, LineEdit.applyLine, foundIn_pluginLines,
    if_neg Bool.false_ne_true, hfind]
  dsimp only
  rw [LineEdit.place, pluginLines_eq, insertIdx_below, importLines]

theorem mem_importLines {line : String} (h : line ∈ importLines options preset) :
    line ∈ everyLine ∨ line = Plan.presetImport preset := by
  have hsub := pluginLines_subset options
  rw [pluginLines_eq] at hsub
  rw [importLines, List.mem_append, List.mem_cons, List.mem_cons] at h
  rcases h with h | rfl | rfl | h
  · exact .inl (firstImports_subset options h)
  · exact .inl (hsub (List.mem_append_right _ List.mem_cons_self))
  · exact .inr rfl
  · exact .inl (hsub (List.mem_append_right _ (List.mem_cons_of_mem _ h)))

theorem linesOf_importLines (h : CleanPreset preset) :
    linesOf (some (joinLines (importLines options preset))) = importLines options preset := by
  refine linesOf_joinLines_self (by simp [importLines]) fun line hline => ?_
  rcases mem_importLines hline with hmem | rfl
  · exact noEnding_of_mem_everyLine hmem
  · exact noEnding_presetImport h

/-- No line above the call of the framework has the call. -/
theorem not_call_above (h : CleanPreset preset) :
    ∀ line ∈ firstImports options ++ lastImport options :: Plan.presetImport preset :: registration,
      (Matcher.substring Plan.vuetifyCall).accepts line = false := by
  have himports : ∀ options : Options, ∀ line ∈ firstImports options ++ lastImport options ::
      registration, occursIn Plan.vuetifyCall.toList line.toList = false := by
    have hclosed : ∀ typescript aLaCarte : Bool,
        let options : Options := { typescript := typescript, aLaCarte := aLaCarte }
        ∀ line ∈ firstImports options ++ lastImport options :: registration,
          occursIn Plan.vuetifyCall.toList line.toList = false := by decide +kernel
    exact fun options => hclosed options.typescript options.aLaCarte
  intro line hline
  by_cases hpreset : line = Plan.presetImport preset
  · subst hpreset
    exact occursIn_eq_false_iff.2 (not_infix_of_clean h (by simp))
  · refine himports options line ?_
    simpa [hpreset] using hline

/-- The step that passes a preset on finds the call of the framework, and its object open. -/
theorem rewritten_usePreset (options : Options) (h : CleanPreset preset) :
    Plan.usePreset.edit.onText (some (joinLines (importLines options preset))) =
      .rewritten (joinLines (presetLines options preset)) := by
  have hedit : Plan.usePreset.edit = .lines (.objectKey Plan.vuetifyCall "preset") := rfl
  have hmarker : containsAny (importLines options preset) ["preset" ++ ",", "preset" ++ ":"] =
      false := by
    have hnone : ∀ line ∈ everyLine, ∀ needle ∈ ["preset,", "preset:"],
        occursIn needle.toList line.toList = false := by decide +kernel
    rw [← Bool.not_eq_true, containsAny_iff]
    rintro ⟨line, hline, needle, hneedle, hin⟩
    rcases mem_importLines hline with hmem | rfl
    · exact occursIn_eq_false_iff.1 (hnone line hmem needle hneedle) hin
    · exact not_infix_of_clean h (List.mem_append_left [Plan.vuetifyCall] hneedle) hin
  have hsplit : importLines options preset =
      (firstImports options ++ lastImport options :: Plan.presetImport preset :: registration) ++
        exportLine :: icons := by
    simp [importLines]
  have hshape : CallShape.classify? exportLine.toList Plan.vuetifyCall.toList =
      some (.multilineObject "export default new Vuetify".toList []) := by decide +kernel
  rw [hedit]
  refine onText_lines_eq_rewritten_iff.2 ⟨presetLines options preset, ?_, rfl⟩
  rw [linesOf_importLines h, LineEdit.apply, LineEdit.applyKey, hmarker,
    if_neg Bool.false_ne_true, hsplit, findIdx?_there (not_call_above h) (by decide +kernel)]
  dsimp only
  rw [List.getD_append_right _ _ _ _ le_rfl, Nat.sub_self, List.getD_cons_zero, hshape]
  dsimp only [LineEdit.placeKey?]
  have hline : String.ofList
      (indent ("export default new Vuetify".toList ++ "(\x7b".toList ++ []) ++ "  ".toList ++
        "preset".toList ++ ",".toList) = "  preset," := by decide +kernel
  rw [insertIdx_below, hline, presetLines]
  simp

/-! ### The module in the end -/

open Setup (files renderFiles writeFiles)

variable {root : Place} {tree : Tree} {report : Report}

/-- The module that the steps of a setup find, in a project that the parts of the root lead to. -/
theorem written_of_parts {extended written : Tree} {changed : Bool}
    (h : Parts root options tree extended written changed report) :
    ∃ here, written.LeadsTo root.parts here ∧
      written.textOf root Plan.pluginFile = .ok (some (Template.plugin options)) := by
  obtain ⟨paths, hpaths⟩ := h.result
  have hok := (result_renderFiles_iff.1 hpaths).1
  have hplugin := Setup.plugin_mem_files options (extended.has (root.resolve Setup.routerFile).parts)
  have hfiles := Setup.file_mem_allFiles options
    (extended.has (root.resolve Setup.routerFile).parts)
  have hnodup := Setup.nodup_files options (extended.has (root.resolve Setup.routerFile).parts)
  rw [← h.tree, tree_renderFiles]
  generalize files options (extended.has (root.resolve Setup.routerFile).parts) = written at *
  cases written with
  | nil => cases hplugin
  | cons first rest =>
    obtain ⟨here, hlead, htexts⟩ := leadsTo_of_writeFiles hfiles hnodup hok
    exact ⟨here, hlead, htexts (Plan.pluginFile, Template.plugin options) hplugin⟩

/-- The text of the module in the end. -/
inductive PluginText (options : Options) : String → Prop where
  | plain : options.preset = none → PluginText options (Template.plugin options)
  | preset {preset : String} {lines : List String} : options.preset = some preset →
    PresetAdded preset (pluginLines options) lines → PluginText options (joinLines lines)

/-- What is reported of the module: both steps of a preset are applied. -/
def pluginEvents (options : Options) : List Event :=
  match options.preset with
  | none => []
  | some preset =>
    [⟨"import preset " ++ preset, Plan.pluginFile, .applied⟩,
      ⟨"preset option", Plan.pluginFile, .applied⟩]

/-- The steps of a preset on the new module. -/
theorem through_steps (hclean : ∀ preset ∈ options.preset, CleanPreset preset) :
    ∃ text, PluginText options text ∧
      textThrough Plan.pluginFile (Plan.steps options) (some (Template.plugin options)) =
        some text ∧
      eventsThrough Plan.pluginFile (Plan.steps options) (some (Template.plugin options)) =
        pluginEvents options := by
  rw [← textThrough_filter, ← eventsThrough_filter, (filter_steps options).2.2.1, pluginEvents]
  cases hpreset : options.preset with
  | none => exact ⟨Template.plugin options, .plain hpreset, by rw [textThrough, List.foldl_nil], rfl⟩
  | some preset =>
    have himport := rewritten_importPreset options preset
    have huse := rewritten_usePreset options (hclean preset hpreset)
    have hfirst : (Plan.importPreset preset).file = Plan.pluginFile := rfl
    have hsecond : Plan.usePreset.file = Plan.pluginFile := rfl
    refine ⟨_, .preset hpreset (presetAdded options preset), ?_, ?_⟩
    · dsimp only
      rw [textThrough, List.foldl_cons, if_pos hfirst, List.foldl_cons, if_pos hsecond,
        Step.textAfter_some, FileEdit.textAfter_of_rewritten himport, Step.textAfter_some,
        FileEdit.textAfter_of_rewritten huse, List.foldl_nil]
    · dsimp only
      rw [eventsThrough, if_pos hfirst, eventsThrough, if_pos hsecond, eventsThrough,
        Step.textAfter_some, FileEdit.textAfter_of_rewritten himport,
        Step.verdictOn_of_rewritten himport, Step.verdictOn_of_rewritten huse]
      rfl

/-- **The plugin module after a setup**: the options tell its text and what is reported of it, in
every place and whatever the tree held before. -/
theorem pluginModule_of_setup (options : Options)
    (hclean : ∀ preset ∈ options.preset, CleanPreset preset) :
    ∃ text, PluginText options text ∧
      ∀ root tree report, (Setup.run root options tree).result = .ok report →
        (Setup.run root options tree).tree.textOf root Plan.pluginFile = .ok (some text) ∧
          report.events.filter (fun event => event.file = Plan.pluginFile) =
            pluginEvents options := by
  obtain ⟨text, htext, hthrough, hevents⟩ := through_steps hclean
  refine ⟨text, htext, fun root tree report hok => ?_⟩
  obtain ⟨extended, written, changed, hparts, hend⟩ := exists_of_run_ok hok
  obtain ⟨here, hlead, hplugin⟩ := written_of_parts hparts
  have hsteps := runSteps_on (fun _ hs _ => requires_eq hs) (fun _ => file_mem_files)
    (by decide) hlead (result_runPass_eq_ok_iff.1 hparts.report) hplugin
  rw [hthrough, hevents] at hsteps
  rw [hend, tree_runPass]
  exact hsteps

/-- A project with an older plugin module. -/
def olderTree : Tree :=
  .directory
    [("src", .directory [("main.js", .file (.text "")), ("plugins", .directory
      [("vuetify.js", .file (.text "export default new Vuetify(\x7b preset \x7d)"))])]),
      ("public", .directory [("index.html", .file (.text ""))])]

/-- Options with a preset alone. -/
def basil : Options :=
  { preset := some "basil" }

theorem pluginModule_of_setup_older :
    CleanPreset "basil" ∧ ∃ text report, PluginText basil text ∧
      (Setup.run ⟨".", []⟩ basil olderTree).result = .ok report ∧
      (Setup.run ⟨".", []⟩ basil olderTree).tree.textOf ⟨".", []⟩ Plan.pluginFile =
        .ok (some text) ∧
      report.events.filter (fun event => event.file = Plan.pluginFile) =
        [⟨"import preset basil", Plan.pluginFile, .applied⟩,
          ⟨"preset option", Plan.pluginFile, .applied⟩] := by
  have hclean : CleanPreset "basil" := by
    refine ⟨by decide, ?_, ?_, ?_⟩ <;> (rw [← occursIn_iff]; decide +kernel)
  obtain ⟨report, hok⟩ : ∃ report, (Setup.run ⟨".", []⟩ basil olderTree).result = .ok report := by
    have hlead : olderTree.LeadsTo (Place.parts ⟨".", []⟩) [] := Tree.leadsTo_of_follow rfl rfl
    obtain ⟨changed, hchanged⟩ : ∃ changed,
        ((Plan.extension basil).extendManifest ⟨".", []⟩ olderTree).2 = .ok changed :=
      ok_of_isSome (by decide +kernel)
    refine setup_ok hlead hchanged (fun router f hf => ?_) fun step hstep => ?_
    · obtain rfl := List.mem_singleton.1 hf
      exact ⟨_, rfl⟩
    · have hsteps : Plan.steps basil = [Plan.importPlugin basil, Plan.linkIconFont,
          Plan.importPreset "basil", Plan.usePreset] := rfl
      rw [hsteps] at hstep
      simp only [List.mem_cons, List.not_mem_nil, or_false] at hstep
      rcases hstep with rfl | rfl | rfl | rfl <;> exact ⟨_, rfl⟩
  obtain ⟨text, htext, hall⟩ := pluginModule_of_setup basil fun preset hpreset => by
    obtain rfl := Option.some.inj hpreset
    exact hclean
  exact ⟨hclean, text, report, htext, hok, hall _ _ _ hok⟩

end ProjectSetup
