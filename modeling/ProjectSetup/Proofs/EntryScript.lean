import ProjectSetup.Proofs.Completion
import ProjectSetup.Proofs.Landing
import ProjectSetup.Proofs.SecondPass
import ProjectSetup.Proofs.Text.LineEnding

/-!
# The entry script after a pass

A pass puts at most two lines into the entry script: the import of the plugin module below the
framework's first one, and the import of the polyfill above all lines.  Whether it does is told by
the lines that the script had, since neither import is asked for by the edit that puts the other one
in.  All other lines stay, and a script that gets neither line is not written.

* `pluginImported_after`, `after_importPolyfill`: what each of the edits makes of lines.
* `entryScript_of_pass`: the script after a pass.
-/

namespace ProjectSetup

open Text

variable {options : Options} {lines mid new : List String}

/-! ### The lines that are put in -/

/-- The line imports the framework, or something whose name starts alike. -/
def ImportsVue (line : String) : Prop :=
  "import Vue".toList <+: line.toList

/-- The line has the import of the plugin module in it. -/
def HasPluginImport (line : String) : Prop :=
  Plan.pluginImport.toList <:+: line.toList

/-- The line starts with an import or a require, and names the polyfill behind that. -/
def LoadsPolyfill (line : String) : Prop :=
  ∃ head rest, (head = "import".toList ∨ head = "require".toList) ∧ line.toList = head ++ rest ∧
    "@babel/polyfill".toList <:+: rest

/-- The lines of a script before and after the plugin module is imported: right below the line that
imports the framework first, unless there is none or the plugin module is imported already. -/
inductive PluginImported : List String → List String → Prop where
  | below {above below : List String} {line : String} : ImportsVue line →
    (∀ l ∈ above, ¬ ImportsVue l) → (∀ l ∈ above ++ line :: below, ¬ HasPluginImport l) →
    PluginImported (above ++ line :: below) (above ++ line :: Plan.pluginImport :: below)
  | kept {lines : List String} : (∀ l ∈ lines, ¬ ImportsVue l) ∨ (∃ l ∈ lines, HasPluginImport l) →
    PluginImported lines lines

/-- The lines `mid` of a script, which were `lines` at first, before and after the polyfill is
imported: above all of them, unless it is not asked for or is loaded already. -/
inductive PolyfillImported (options : Options) (lines mid : List String) : List String → Prop where
  | above : options.polyfill = true → options.typescript = false →
    (∀ l ∈ lines, ¬ LoadsPolyfill l) →
    PolyfillImported options lines mid (Plan.polyfillImport :: mid)
  | kept : options.polyfill = false ∨ options.typescript = true ∨ (∃ l ∈ lines, LoadsPolyfill l) →
    PolyfillImported options lines mid mid

theorem PluginImported.mem_iff (h : PluginImported lines mid) {l : String} :
    l ∈ mid ↔ l ∈ lines ∨ l = Plan.pluginImport ∧ mid ≠ lines := by
  cases h with
  | @below above below line =>
    have hne : above ++ line :: Plan.pluginImport :: below ≠ above ++ line :: below :=
      fun heq => by simpa using congrArg List.length heq
    simp only [List.mem_append, List.mem_cons, hne, and_true, ne_eq, not_false_eq_true]
    tauto
  | kept => simp

theorem PluginImported.sublist (h : PluginImported lines mid) : lines.Sublist mid := by
  cases h with
  | below =>
    exact (List.Sublist.refl _).append (.cons_cons _ (List.sublist_cons_self _ _))
  | kept => exact List.Sublist.refl _

theorem PolyfillImported.sublist (h : PolyfillImported options lines mid new) : mid.Sublist new := by
  cases h with
  | above => exact List.sublist_cons_self _ _
  | kept => exact List.Sublist.refl _

theorem PolyfillImported.mem (h : PolyfillImported options lines mid new) {l : String}
    (hl : l ∈ new) : l ∈ mid ∨ l = Plan.polyfillImport := by
  cases h with
  | above => exact (List.mem_cons.1 hl).symm
  | kept => exact .inl hl

/-! ### The two edits -/

/-- The edit that imports the plugin module. -/
def Plan.pluginEdit : LineEdit :=
  .insertImport ⟨.pattern vueImport, .forward⟩ pluginImport

/-- The edit that imports the polyfill. -/
def Plan.polyfillLine : LineEdit :=
  .prependLine polyfillImport (.pattern polyfillMarker)

/-- What becomes of lines when the plugin module is imported. -/
theorem pluginImported_after (lines : List String) :
    PluginImported lines (Plan.pluginEdit.after lines) := by
  have haccepts : ∀ l, (Matcher.pattern Plan.vueImport).accepts l = true ↔ ImportsVue l :=
    fun _ => vueImport_iff
  have hmarker : ∀ l, (Matcher.substring Plan.pluginImport).accepts l = true ↔ HasPluginImport l :=
    fun _ => occursIn_iff
  have happly : Plan.pluginEdit.apply lines = LineEdit.applyLine ⟨.pattern Plan.vueImport, .forward⟩
      .after Plan.pluginImport (.substring Plan.pluginImport) lines := rfl
  rw [LineEdit.after, happly, LineEdit.applyLine]
  by_cases hfound : (Matcher.substring Plan.pluginImport).foundIn lines = true
  · rw [if_pos hfound]
    obtain ⟨l, hl, hin⟩ := Matcher.foundIn_iff.1 hfound
    exact .kept (.inr ⟨l, hl, (hmarker l).1 hin⟩)
  · rw [if_neg hfound]
    cases hfind : (Anchor.mk (.pattern Plan.vueImport) .forward).find? lines with
    | none =>
      have hnone := Anchor.find?_eq_none_iff.1 hfind
      exact .kept (.inl fun l hl himport => by
        rw [← haccepts, hnone l hl] at himport
        cases himport)
    | some index =>
      obtain ⟨above, line, below, rfl, rfl, hat⟩ := exists_of_find? hfind
      dsimp only
      rw [LineEdit.place, insertIdx_below]
      rw [Bool.not_eq_true, Matcher.foundIn_eq_false_iff] at hfound
      refine .below ((haccepts line).1 hat.accepts) (fun l hl himport => ?_) fun l hl hin => ?_
      · rw [← haccepts, hat.first rfl l hl] at himport
        cases himport
      · rw [← hmarker, hfound l hl] at hin
        cases hin

theorem polyfillMarker_accepts_iff {line : String} (hfeed : '\n' ∉ line.toList) :
    (Matcher.pattern Plan.polyfillMarker).accepts line = true ↔ LoadsPolyfill line := by
  rw [Matcher.accepts, polyfillMarker_iff]
  constructor
  · rintro ⟨head, front, back, hhead, htext, -, -⟩
    exact ⟨head, _, hhead, htext, ⟨front, back, rfl⟩⟩
  · rintro ⟨head, rest, hhead, htext, front, back, rfl⟩
    rw [htext, List.mem_append, List.mem_append, List.mem_append, not_or, not_or, not_or] at hfeed
    exact ⟨head, front, back, hhead, htext, hfeed.2.1.1, hfeed.2.2⟩

/-- What becomes of lines when the polyfill is imported. -/
theorem after_importPolyfill (hlines : AreLines lines) :
    ((∃ l ∈ lines, LoadsPolyfill l) ∧ Plan.polyfillLine.after lines = lines) ∨
      ((∀ l ∈ lines, ¬ LoadsPolyfill l) ∧
        Plan.polyfillLine.after lines = Plan.polyfillImport :: lines) := by
  have happly : Plan.polyfillLine.apply lines =
      LineEdit.applyPrepend Plan.polyfillImport (.pattern Plan.polyfillMarker) lines := rfl
  rw [LineEdit.after, happly, LineEdit.applyPrepend]
  split_ifs with hfound
  · obtain ⟨l, hl, hloads⟩ := Matcher.foundIn_iff.1 hfound
    exact .inl ⟨⟨l, hl, (polyfillMarker_accepts_iff (hlines l hl)).1 hloads⟩, rfl⟩
  · rw [Bool.not_eq_true, Matcher.foundIn_eq_false_iff] at hfound
    refine .inr ⟨fun l hl hloads => ?_, rfl⟩
    rw [← polyfillMarker_accepts_iff (hlines l hl), hfound l hl] at hloads
    cases hloads

/-- The import of the plugin module does not load the polyfill. -/
theorem not_loadsPolyfill_pluginImport : ¬ LoadsPolyfill Plan.pluginImport := by
  rw [← polyfillMarker_accepts_iff (by decide)]
  decide +kernel

/-- The polyfill is looked for in the lines that the script had at first. -/
theorem PluginImported.loadsPolyfill_iff (h : PluginImported lines mid) :
    (∃ l ∈ mid, LoadsPolyfill l) ↔ ∃ l ∈ lines, LoadsPolyfill l := by
  constructor
  · rintro ⟨l, hl, hloads⟩
    rcases h.mem_iff.1 hl with hl | ⟨rfl, -⟩
    · exact ⟨l, hl, hloads⟩
    · exact absurd hloads not_loadsPolyfill_pluginImport
  · rintro ⟨l, hl, hloads⟩
    exact ⟨l, h.mem_iff.2 (.inl hl), hloads⟩

/-- What becomes of lines when the polyfill is imported after the plugin module, if the options ask
for it. -/
theorem polyfillImported_after (options : Options) (h : PluginImported lines mid)
    (hmid : AreLines mid) : PolyfillImported options lines mid
      (if options.polyfill && options.patchesBabel then Plan.polyfillLine.after mid else mid) := by
  have hloads := h.loadsPolyfill_iff
  split_ifs with hasked
  · rw [Bool.and_eq_true, Options.patchesBabel, Bool.not_eq_true'] at hasked
    rcases after_importPolyfill hmid with ⟨hsome, heq⟩ | ⟨hnone, heq⟩
    · rw [heq]
      exact .kept (.inr (.inr (hloads.1 hsome)))
    · rw [heq]
      refine .above hasked.1 hasked.2 fun l hl hl' => ?_
      obtain ⟨l, hl, hl'⟩ := hloads.2 ⟨l, hl, hl'⟩
      exact hnone l hl hl'
  · refine .kept ?_
    rw [Bool.and_eq_true, not_and_or, Options.patchesBabel] at hasked
    rcases hasked with hasked | hasked
    · exact .inl (by simpa using hasked)
    · exact .inr (.inl (by simpa using hasked))

/-! ### The script after a pass -/

variable {root : Place} {tree : Tree} {report : Report} {text : String}

/-- The lines that are put in end no line inside, and all others are lines of the script. -/
theorem noEnding_of_pluginImported (hpaired : PairedReturns text.toList)
    (h : PluginImported (splitLines text) mid) {l : String} (hl : l ∈ mid) :
    '\n' ∉ l.toList ∧ l.toList.getLast? ≠ some '\r' := by
  rcases h.mem_iff.1 hl with hl | ⟨rfl, -⟩
  · exact hpaired.noEnding hl
  · decide

/-- Lines that grow in two steps are the same at the end exactly if no step lets them grow. -/
theorem eq_iff_of_sublist (h : lines.Sublist mid) (h' : mid.Sublist new) :
    new = lines ↔ mid = lines ∧ new = mid := by
  constructor
  · rintro rfl
    exact ⟨h'.antisymm h, h.antisymm h'⟩
  · rintro ⟨rfl, rfl⟩
    rfl

/-- What the steps on the script make of it, and whether one of them is applied. -/
theorem through_script (options : Options) (hpaired : PairedReturns text.toList) :
    ∃ mid new, PluginImported (splitLines text) mid ∧
      PolyfillImported options (splitLines text) mid new ∧
      textThrough options.mainFile (Plan.steps options) (some text) = some (textWith text new) ∧
      ((∃ event ∈ eventsThrough options.mainFile (Plan.steps options) (some text),
        event.verdict = .applied) ↔ new ≠ splitLines text) := by
  have hplugin := pluginImported_after (splitLines text)
  generalize hmid : Plan.pluginEdit.after (splitLines text) = mid at hplugin
  have hclean := fun l (hl : l ∈ mid) => noEnding_of_pluginImported hpaired hplugin hl
  have hpolyfill := polyfillImported_after options hplugin fun l hl => (hclean l hl).1
  have hmarker : Plan.pluginEdit.marker? = _ := lasting_importPlugin.marker?
  have hmarker' : Plan.polyfillLine.marker? = _ := lasting_importPolyfill.marker?
  have hread : splitLines (textWith text mid) = mid := by
    refine splitLines_textWith (fun hnil => ?_) hclean
    have hempty := hplugin.sublist
    rw [hnil, List.sublist_nil] at hempty
    exact pieces_ne_nil _ _ (List.map_eq_nil_iff.1 hempty)
  have hfirst : (Plan.importPlugin options).edit.textAfter (some text) =
      some (textWith text mid) := by
    rw [← hmid]
    exact textAfter_lines hmarker text
  have hsecond : (Plan.importPolyfill options).edit.textAfter (some (textWith text mid)) =
      some (textWith (textWith text mid) (Plan.polyfillLine.after mid)) := by
    have hafter := textAfter_lines hmarker' (textWith text mid)
    rwa [hread] at hafter
  have happlied : (Plan.importPlugin options).verdictOn (some text) = .applied ↔
      mid ≠ splitLines text := by
    rw [← hmid]
    exact verdictOn_lines_iff hmarker rfl text
  have happlied' : (Plan.importPolyfill options).verdictOn (some (textWith text mid)) = .applied ↔
      Plan.polyfillLine.after mid ≠ mid := by
    have hedit : (Plan.importPolyfill options).edit = .lines Plan.polyfillLine := rfl
    have hiff := verdictOn_lines_iff hmarker' hedit (textWith text mid)
    rwa [hread] at hiff
  refine ⟨mid, _, hplugin, hpolyfill, ?_, ?_⟩
  · rw [textThrough_main, hfirst, hsecond]
    split_ifs with hasked
    · rw [if_pos hasked] at hpolyfill
      rw [textWith_textWith hread fun hback =>
        ((eq_iff_of_sublist hplugin.sublist hpolyfill.sublist).1 hback).1]
    · rfl
  · have hmain : (Plan.importPlugin options).file = options.mainFile := rfl
    have hmain' : (Plan.importPolyfill options).file = options.mainFile := rfl
    rw [← eventsThrough_filter, (filter_steps options).1, eventsThrough, if_pos hmain,
      Step.textAfter_some, hfirst]
    split_ifs with hasked
    · rw [if_pos hasked] at hpolyfill
      rw [eventsThrough, if_pos hmain', eventsThrough, Ne,
        eq_iff_of_sublist hplugin.sublist hpolyfill.sublist, not_and_or]
      simp [happlied, happlied']
    · simp [eventsThrough, happlied]

/-- **The entry script after a pass** that comes to its end: the import of the plugin module stands
below the first import of the framework and the import of the polyfill above all lines, where they
were missing; all other lines are those of the script.  It is not written if neither is put in, and
with line feeds at the ends of its lines if one is. -/
theorem entryScript_of_pass (hok : (runPass root (Plan.steps options) tree).result = .ok report)
    (htext : tree.textOf root options.mainFile = .ok (some text))
    (hpaired : PairedReturns text.toList) :
    ∃ mid new, PluginImported (splitLines text) mid ∧
      PolyfillImported options (splitLines text) mid new ∧ (splitLines text).Sublist new ∧
      (joinLines (splitLines text)).toList = normalEndings text.toList ∧
      (runPass root (Plan.steps options) tree).tree.textOf root options.mainFile =
        .ok (some (if new = splitLines text then text else joinLines new)) ∧
      ((∃ event ∈ report.events, event.file = options.mainFile ∧ event.verdict = .applied) ↔
        new ≠ splitLines text) := by
  have hfile : options.mainFile ∈ Plan.files :=
    file_mem_files (mem_steps_iff.2 (.inl rfl) : Plan.importPlugin options ∈ Plan.steps options)
  obtain ⟨hafter, hevents⟩ := runPass_on hfile htext hok
  obtain ⟨mid, new, hplugin, hpolyfill, hthrough, happlied⟩ := through_script options hpaired
  rw [hthrough] at hafter
  refine ⟨mid, new, hplugin, hpolyfill, hplugin.sublist.trans hpolyfill.sublist,
    hpaired.toList_joinLines, hafter, ?_⟩
  rw [← happlied, ← hevents]
  simp [and_assoc]

/-- Options with the polyfill alone. -/
def polyfilled : Options :=
  { polyfill := true }

/-- An entry script with line endings of two characters. -/
def scriptText : String :=
  "import App from './App.vue'\r\nimport Vue from 'vue'\r\n\r\nnew Vue(App)\r\n"

/-- A project with the script, a page and a Babel configuration. -/
def scriptProject : Tree :=
  .directory
    [("src", .directory [("main.js", .file (.text scriptText))]),
      ("public", .directory [("index.html", .file (.text ""))]),
      ("babel.config.js", .file (.text ""))]

theorem entryScript_of_pass_polyfilled :
    ∃ report, (runPass ⟨".", []⟩ (Plan.steps polyfilled) scriptProject).result = .ok report ∧
      scriptProject.textOf ⟨".", []⟩ polyfilled.mainFile = .ok (some scriptText) ∧
      PairedReturns scriptText.toList ∧
      ∃ mid new, PluginImported (splitLines scriptText) mid ∧
        PolyfillImported polyfilled (splitLines scriptText) mid new ∧
        (splitLines scriptText).Sublist new ∧
        (joinLines (splitLines scriptText)).toList = normalEndings scriptText.toList ∧
        (runPass ⟨".", []⟩ (Plan.steps polyfilled) scriptProject).tree.textOf ⟨".", []⟩
          polyfilled.mainFile =
            .ok (some (if new = splitLines scriptText then scriptText else joinLines new)) ∧
        ((∃ event ∈ report.events, event.file = polyfilled.mainFile ∧ event.verdict = .applied) ↔
          new ≠ splitLines scriptText) := by
  have hlead : scriptProject.LeadsTo (Place.parts ⟨".", []⟩) [] := Tree.leadsTo_of_follow rfl rfl
  have hthere : ∀ step ∈ Plan.steps polyfilled,
      ∃ text, scriptProject.textOf ⟨".", []⟩ step.file = .ok (some text) := by
    intro step hstep
    have hsteps : Plan.steps polyfilled = [Plan.importPlugin polyfilled, Plan.polyfillEntry,
        Plan.importPolyfill polyfilled, Plan.linkIconFont] := rfl
    rw [hsteps] at hstep
    simp only [List.mem_cons, List.not_mem_nil, or_false] at hstep
    rcases hstep with rfl | rfl | rfl | rfl <;> exact ⟨_, rfl⟩
  obtain ⟨events, hevents⟩ :=
    runSteps_ok hlead (fun _ hs _ => requires_eq hs) (fun _ => file_mem_files) hthere
  have hok : (runPass ⟨".", []⟩ (Plan.steps polyfilled) scriptProject).result = .ok ⟨events⟩ :=
    result_runPass_eq_ok_iff.2 hevents
  have htext : scriptProject.textOf ⟨".", []⟩ polyfilled.mainFile = .ok (some scriptText) := rfl
  have hpaired : PairedReturns scriptText.toList := by decide +kernel
  exact ⟨⟨events⟩, hok, htext, hpaired, entryScript_of_pass hok htext hpaired⟩

end ProjectSetup
