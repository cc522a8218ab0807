import ProjectSetup.Proofs.ConfigFile
import ProjectSetup.Proofs.LineFile

/-!
# The edits of a plan

Every edit of a plan is done once it was applied, and two edits of plans on the same file do not
undo each other, unless a preset has the call of the framework in its name.

* `lasting_importPlugin` and so on: the edits that put a line in.
* `settling_of_isBabelEdit`, `keptBy_of_isBabelEdit`: the edits on the Babel configuration.
* `foundIn_of_keyEdit`, `hasKey_of_importPreset`: the import of a preset and its use.
-/

namespace ProjectSetup

open Text

/-! ### Patterns and carriage returns -/

/-- The pattern that a longer line is accepted by is one on the start of the line. -/
theorem accepts_of_reload {pattern : Pattern} {line : String}
    (hmono : ∀ {line line' : String}, line.toList <+: line'.toList →
      pattern.occursIn line = true → pattern.occursIn line' = true)
    (h : (Matcher.pattern pattern).accepts (reload line) = true) :
    (Matcher.pattern pattern).accepts line = true := by
  refine hmono ?_ h
  rw [toList_reload]
  exact dropReturn_isPrefix _

theorem vueImport_of_reload {line : String}
    (h : (Matcher.pattern Plan.vueImport).accepts (reload line) = true) :
    (Matcher.pattern Plan.vueImport).accepts line = true := by
  refine accepts_of_reload (fun hpre h => ?_) h
  rw [vueImport_iff] at h ⊢
  exact h.trans hpre

theorem anyImport_of_isPrefix {line line' : String} {front : List Char} (hlong : 7 ≤ front.length)
    (hfront : front <+: line'.toList) (hline : front <+: line.toList)
    (h : Plan.anyImport.occursIn line = true) : Plan.anyImport.occursIn line' = true := by
  rw [anyImport_iff] at h ⊢
  obtain ⟨c, rest, htext, hc⟩ := h
  have hword : "import".toList ++ [c] <+: line.toList := ⟨rest, by rw [htext]; simp⟩
  have hin : "import".toList ++ [c] <+: front :=
    List.prefix_of_prefix_length_le hword hline (by simpa using hlong)
  obtain ⟨rest', hrest'⟩ := hin.trans hfront
  exact ⟨c, rest', by rw [← hrest']; simp, hc⟩

theorem anyImport_of_reload {line : String}
    (h : (Matcher.pattern Plan.anyImport).accepts (reload line) = true) :
    (Matcher.pattern Plan.anyImport).accepts line = true := by
  refine accepts_of_reload (fun {line line'} hpre h => ?_) h
  rw [anyImport_iff] at h ⊢
  obtain ⟨c, rest, htext, hc⟩ := h
  obtain ⟨more, hmore⟩ := hpre
  exact ⟨c, rest ++ more, by rw [← hmore, htext]; simp, hc⟩

theorem steady_linkTag : (Matcher.pattern LineEdit.linkTag).Steady := by
  intro line
  have hiff : LineEdit.linkTag.occursIn (reload line) = true ↔
      LineEdit.linkTag.occursIn line = true := by
    rw [linkTag_iff, linkTag_iff, toList_reload]
    constructor
    · rintro ⟨blanks, rest, htext, hblanks⟩
      obtain ⟨more, hmore⟩ := dropReturn_isPrefix line.toList
      exact ⟨blanks, rest ++ more, by rw [← hmore, htext]; simp, hblanks⟩
    · rintro ⟨blanks, rest, htext, hblanks⟩
      have hlast : (blanks ++ "<link".toList).getLast? ≠ some '\r' := by
        rw [List.getLast?_append_of_ne_nil _ (by simp)]
        decide
      refine ⟨blanks, dropReturn rest, ?_, hblanks⟩
      rw [htext, dropReturn_append hlast]
  exact Bool.eq_iff_iff.2 hiff

theorem steady_polyfillMarker : (Matcher.pattern Plan.polyfillMarker).Steady := by
  intro line
  have hiff : Plan.polyfillMarker.occursIn (reload line) = true ↔
      Plan.polyfillMarker.occursIn line = true := by
    rw [polyfillMarker_iff, polyfillMarker_iff, toList_reload]
    constructor
    · rintro ⟨head, mid, rest, hhead, htext, hmid, hrest⟩
      rcases dropReturn_cases line.toList with hdrop | hdrop
      · exact ⟨head, mid, rest, hhead, by rw [← hdrop, htext], hmid, hrest⟩
      · exact ⟨head, mid, rest ++ ['\r'], hhead, by rw [hdrop, htext]; simp, hmid, by simp [hrest]⟩
    · rintro ⟨head, mid, rest, hhead, htext, hmid, hrest⟩
      have hlast : (head ++ (mid ++ "@babel/polyfill".toList)).getLast? ≠ some '\r' := by
        rw [← List.append_assoc, List.getLast?_append_of_ne_nil _ (by simp)]
        decide
      refine ⟨head, mid, dropReturn rest, hhead, ?_, hmid,
        fun hfeed => hrest ((dropReturn_isPrefix rest).mem hfeed)⟩
      rw [htext, ← List.append_assoc head, dropReturn_append hlast, List.append_assoc head]
  exact Bool.eq_iff_iff.2 hiff

/-! ### Edits that put a line in -/

theorem accepts_substring {indent : List Char} {text : String} :
    (Matcher.substring text).accepts (String.ofList (indent ++ text.toList)) = true := by
  rw [Matcher.accepts, String.toList_ofList, occursIn_iff]
  exact List.infix_append_right

theorem lasting_insertImport {anchor : Anchor} {text : String} (hfeed : '\n' ∉ text.toList)
    (hlast : text.toList.getLast? ≠ some '\r') :
    (LineEdit.insertImport anchor text).Lasting (.substring text) :=
  ⟨rfl, Matcher.steady_substring hlast, hfeed, fun _ _ _ => accepts_substring⟩

theorem lasting_insertLink {link : String} {placement : LinkPlacement} (hfeed : '\n' ∉ link.toList)
    (hlast : link.toList.getLast? ≠ some '\r') :
    (LineEdit.insertLink link placement).Lasting (.substring link) :=
  ⟨rfl, Matcher.steady_substring hlast, hfeed, fun _ _ _ => accepts_substring⟩

theorem lasting_importPlugin :
    (LineEdit.insertImport ⟨.pattern Plan.vueImport, .forward⟩ Plan.pluginImport).Lasting
      (.substring Plan.pluginImport) :=
  lasting_insertImport (by decide) (by decide)

theorem lasting_importPolyfill :
    (LineEdit.prependLine Plan.polyfillImport (.pattern Plan.polyfillMarker)).Lasting
      (.pattern Plan.polyfillMarker) where
  marker? := rfl
  steady := steady_polyfillMarker
  noFeed := by decide
  accepts lines indent hindent := by
    obtain rfl : indent = [] := hindent
    rw [Matcher.accepts, polyfillMarker_iff, String.toList_ofList]
    exact ⟨"import".toList, " '".toList, "'".toList, .inl rfl, by decide, by decide, by decide⟩

theorem lasting_linkIconFont :
    (LineEdit.insertLink Plan.iconFontLink .afterLastLink).Lasting
      (.substring Plan.iconFontLink) :=
  lasting_insertLink (by decide +kernel) (by decide +kernel)

theorem toList_append_around (a b text c : String) :
    (a ++ (b ++ text) ++ c).toList = (a ++ b).toList ++ (text.toList ++ c.toList) := by
  simp only [String.toList_append, List.append_assoc]

/-- What a link to the fonts starts with. -/
def Plan.fontFront : String :=
  "<link rel=\"stylesheet\" href=\"" ++ "https://fonts.googleapis.com/css?family="

theorem toList_fontLink (fonts : List String) :
    (Plan.fontLink fonts).toList =
      Plan.fontFront.toList ++ (("|".intercalate (fonts.map Plan.fontFamily)).toList ++
        "&display=swap\">".toList) :=
  toList_append_around _ _ _ _

theorem not_mem_intercalate {c : Char} {separator : List Char} {parts : List (List Char)}
    (hsep : c ∉ separator) (h : ∀ part ∈ parts, c ∉ part) : c ∉ separator.intercalate parts := by
  induction parts with
  | nil => simp [List.intercalate]
  | cons part rest ih =>
    have hrest := ih fun p hp => h p (List.mem_cons_of_mem _ hp)
    cases rest with
    | nil => simpa [List.intercalate] using h part (by simp)
    | cons next rest =>
      rw [List.intercalate_cons_cons, List.mem_append, List.mem_append, not_or, not_or]
      exact ⟨⟨h part (by simp), hsep⟩, hrest⟩

theorem not_mem_fontFamilies {c : Char} {fonts : List String} (hsep : c ∉ "|".toList)
    (hweights : c ∉ (":" ++ Plan.defaultWeights).toList) (h : ∀ font ∈ fonts, c ∉ font.toList) :
    c ∉ ("|".intercalate (fonts.map Plan.fontFamily)).toList := by
  rw [String.toList_intercalate]
  refine not_mem_intercalate hsep fun part hpart => ?_
  obtain ⟨family, hmem, rfl⟩ := List.mem_map.1 hpart
  obtain ⟨font, hfont, rfl⟩ := List.mem_map.1 hmem
  unfold Plan.fontFamily
  split_ifs
  · exact h font hfont
  · rw [String.append_assoc, String.toList_append, List.mem_append, not_or]
    exact ⟨h font hfont, hweights⟩

theorem lasting_linkFonts {fonts : List String} (h : ∀ font ∈ fonts, '\n' ∉ font.toList) :
    (LineEdit.insertLink (Plan.fontLink fonts) .beforeClosingHead).Lasting
      (.substring (Plan.fontLink fonts)) := by
  refine lasting_insertLink ?_ ?_
  · rw [toList_fontLink, List.mem_append, List.mem_append, not_or, not_or]
    exact ⟨by decide, not_mem_fontFamilies (by decide) (by decide) h,
      by decide +kernel⟩
  · rw [toList_fontLink, ← List.append_assoc, List.getLast?_append_of_ne_nil _ (by decide)]
    decide

/-! ### The import of a preset -/

/-- The text that imports a preset. -/
def Plan.presetImport (preset : String) : String :=
  "import \x7b preset \x7d from '" ++ presetPackage preset ++ "/preset'"

/-- The call that a preset is passed to. -/
def Plan.vuetifyCall : String :=
  "new Vuetify("

theorem isCall_vuetifyCall : IsCall Plan.vuetifyCall.toList "new Vuetify".toList :=
  ⟨by decide, by decide⟩

/-- What the import of a preset starts with. -/
def Plan.presetFront : String :=
  "import \x7b preset \x7d from '" ++ "vue-cli-plugin-vuetify-preset-"

theorem toList_presetImport (preset : String) :
    (Plan.presetImport preset).toList =
      Plan.presetFront.toList ++ (preset.toList ++ "/preset'".toList) :=
  toList_append_around _ _ _ _

theorem lasting_importPreset {preset : String} (h : '\n' ∉ preset.toList) :
    (LineEdit.insertImport ⟨.pattern Plan.anyImport, .backward⟩ (Plan.presetImport preset)).Lasting
      (.substring (Plan.presetImport preset)) := by
  refine lasting_insertImport ?_ ?_
  · rw [toList_presetImport, List.mem_append, List.mem_append, not_or, not_or]
    exact ⟨by decide, h, by decide⟩
  · rw [toList_presetImport, ← List.append_assoc, List.getLast?_append_of_ne_nil _ (by decide)]
    decide

/-- The text around the name of a preset makes up nothing with it that has no hyphen and no slash. -/
theorem not_infix_presetImport_of {needle : List Char} {preset : String} (hhyphen : '-' ∉ needle)
    (hslash : '/' ∉ needle) (hfront : ¬ needle <:+: Plan.presetFront.toList)
    (hback : ¬ needle <:+: "/preset'".toList) (h : ¬ needle <:+: preset.toList) :
    ¬ needle <:+: (Plan.presetImport preset).toList := by
  have hne : needle ≠ [] := by
    rintro rfl
    exact h List.nil_infix
  have hcut : (Plan.presetImport preset).toList = Plan.presetFront.toList.dropLast ++
      '-' :: (preset.toList ++ '/' :: "preset'".toList) := by
    rw [toList_presetImport]
    rfl
  rw [hcut]
  intro hin
  rcases infix_or_infix_of_notMem hne hin hhyphen with hin | hin
  · exact hfront (hin.trans (List.dropLast_prefix _).isInfix)
  · rcases infix_or_infix_of_notMem hne hin hslash with hin | hin
    · exact h hin
    · exact hback (hin.trans (List.suffix_cons '/' _).isInfix)

/-- The text around the name of a preset cannot make up the call with it. -/
theorem not_infix_presetImport {preset : String}
    (h : ¬ Plan.vuetifyCall.toList <:+: preset.toList) :
    ¬ Plan.vuetifyCall.toList <:+: (Plan.presetImport preset).toList := by
  refine not_infix_presetImport_of (by decide) (by decide) ?_ ?_ h
  · rw [← occursIn_iff]
    decide
  · rw [← occursIn_iff]
    decide

/-- The import of a preset shares nothing with the call. -/
theorem clear_presetImport (preset : String) {tail : List Char}
    (htail : tail <:+ Plan.vuetifyCall.toList) (hne : tail ≠ []) :
    ¬ tail <+: (Plan.presetImport preset).toList ∧
      ¬ (Plan.presetImport preset).toList <+: tail := by
  have hshort : tail.length ≤ 12 := htail.length_le
  have hstart : "import \x7b pre".toList <+: (Plan.presetImport preset).toList := by
    have hfront : "import \x7b pre".toList <+: Plan.presetFront.toList := by decide
    rw [toList_presetImport]
    exact hfront.trans (List.prefix_append _ _)
  have hnone : ∀ tail ∈ Plan.vuetifyCall.toList.tails, tail ≠ [] →
      ¬ tail <+: "import \x7b pre".toList := by decide
  constructor
  · intro hp
    have hin : tail <+: "import \x7b pre".toList := List.prefix_of_prefix_length_le hp hstart hshort
    exact hnone tail ((List.mem_tails _ _).2 htail) hne hin
  · intro hp
    have hlong := hp.length_le
    rw [toList_presetImport, List.length_append] at hlong
    have hfront : Plan.presetFront.toList.length = 54 := by decide
    omega

/-! ### The use of a preset -/

/-- The edit that passes a preset to the framework. -/
def Plan.keyEdit : LineEdit :=
  .objectKey vuetifyCall "preset"

variable {preset : String} {text? : Option String} {text : String}

theorem inPlace_keyEdit_iff :
    (FileEdit.lines Plan.keyEdit).onText text? = .alreadyApplied ↔
      HasKey Plan.vuetifyCall "preset" (linesOf text?) := by
  rw [onText_lines_eq_alreadyApplied_iff, Plan.keyEdit, LineEdit.apply]
  have hout := applyKey_cases isCall_vuetifyCall "preset" (linesOf text?)
  generalize LineEdit.applyKey Plan.vuetifyCall "preset" (linesOf text?) = edited at hout
  cases hout with
  | inPlace hkey => simp [hkey]
  | skipped hnot => simp [hnot]
  | changed hnot => simp [hnot]
  | added hnot => simp [hnot]

/-- What the edit writes that passes a preset to the framework. -/
theorem linesOf_keyEdit
    (hrew : (FileEdit.lines Plan.keyEdit).onText text? = .rewritten text) :
    ∃ new, LineEdit.applyKey Plan.vuetifyCall "preset" (linesOf text?) = .rewritten new ∧
      linesOf (some text) = new.map reload := by
  obtain ⟨new, hnew, rfl⟩ := onText_lines_eq_rewritten_iff.1 hrew
  obtain ⟨hlines, hne⟩ := areLines_of_applyKey isCall_vuetifyCall (by decide)
    (areLines_linesOf text?) hnew
  exact ⟨new, hnew, linesOf_joinLines hlines hne⟩

theorem inPlace_of_keyEdit
    (hrew : (FileEdit.lines Plan.keyEdit).onText text? = .rewritten text) :
    (FileEdit.lines Plan.keyEdit).onText (some text) = .alreadyApplied := by
  obtain ⟨new, hnew, hlines⟩ := linesOf_keyEdit hrew
  have hword : ∀ c ∈ "preset".toList, isWordChar c = true :=
    List.all_eq_true.1 (by decide)
  rw [inPlace_keyEdit_iff, hlines]
  exact hasKey_reload isCall_vuetifyCall (hasKey_of_rewritten isCall_vuetifyCall hword hnew)

theorem exists_presetImport_cons (preset : String) :
    ∃ more, (Plan.presetImport preset).toList = 'i' :: more := by
  rw [toList_presetImport]
  exact ⟨_, rfl⟩

/-- The import of a preset stays on its line when the preset is passed to the framework. -/
theorem presetImport_of_applyKey {lines new : List String}
    (h : ¬ Plan.vuetifyCall.toList <:+: preset.toList)
    (hnew : LineEdit.applyKey Plan.vuetifyCall "preset" lines = .rewritten new)
    (hfound : (Matcher.substring (Plan.presetImport preset)).foundIn lines = true) :
    (Matcher.substring (Plan.presetImport preset)).foundIn new = true := by
  obtain ⟨more, hmore⟩ := exists_presetImport_cons preset
  have hfill : ¬ IsFill 'i' := by
    unfold IsFill
    decide
  exact foundIn_of_applyKey isCall_vuetifyCall (not_infix_presetImport h)
    (fun _ htail hne => clear_presetImport preset htail hne) hmore hfill hnew hfound

/-- The import of a preset stays when the preset is passed to the framework. -/
theorem foundIn_of_keyEdit (h : ¬ Plan.vuetifyCall.toList <:+: preset.toList)
    (hfeed : '\n' ∉ preset.toList)
    (hrew : (FileEdit.lines Plan.keyEdit).onText text? = .rewritten text)
    (hfound : (Matcher.substring (Plan.presetImport preset)).foundIn (linesOf text?) = true) :
    (Matcher.substring (Plan.presetImport preset)).foundIn (linesOf (some text)) = true := by
  obtain ⟨new, hnew, hlines⟩ := linesOf_keyEdit hrew
  rw [hlines, Matcher.foundIn_reload (lasting_importPreset hfeed).steady]
  exact presetImport_of_applyKey h hnew hfound

/-- The use of a preset stays when a preset is imported. -/
theorem hasKey_of_importPreset (h : ¬ Plan.vuetifyCall.toList <:+: preset.toList)
    (hfeed : '\n' ∉ preset.toList)
    (hrew : (FileEdit.lines (.insertImport ⟨.pattern Plan.anyImport, .backward⟩
      (Plan.presetImport preset))).onText text? = .rewritten text)
    (hkey : HasKey Plan.vuetifyCall "preset" (linesOf text?)) :
    HasKey Plan.vuetifyCall "preset" (linesOf (some text)) := by
  obtain ⟨indent, new, hput⟩ := linePut_of_onText (lasting_importPreset hfeed) hrew
  have hline : (Matcher.substring Plan.vuetifyCall).accepts
      (String.ofList (indent ++ (Plan.presetImport preset).toList)) = false := by
    obtain rfl : indent = [] := hput.isIndent
    rw [Matcher.accepts, List.nil_append, String.toList_ofList, occursIn_eq_false_iff]
    exact not_infix_presetImport h
  rw [hput.lines]
  exact hasKey_reload isCall_vuetifyCall (hasKey_of_inserted hput.inserted hline hkey)

/-- The edit that passes a preset to the framework puts in no import. -/
theorem anyImport_of_keyEdit
    (hrew : (FileEdit.lines Plan.keyEdit).onText text? = .rewritten text)
    (hnone : (Matcher.pattern Plan.anyImport).foundIn (linesOf text?) = false) :
    (Matcher.pattern Plan.anyImport).foundIn (linesOf (some text)) = false := by
  obtain ⟨new, hnew, hlines⟩ := linesOf_keyEdit hrew
  rw [Matcher.foundIn_eq_false_iff] at hnone ⊢
  intro reloaded hreloaded
  rw [hlines] at hreloaded
  obtain ⟨line, hline, rfl⟩ := List.mem_map.1 hreloaded
  rw [← Bool.not_eq_true]
  intro haccepts
  have himport : Plan.anyImport.occursIn line = true := anyImport_of_reload haccepts
  rcases mem_of_applyKey isCall_vuetifyCall hnew hline with
    ⟨old, hold, front, hlong, hfront, hfront'⟩ | hold | ⟨c, rest, htext, hc⟩
  · have hseven : 7 ≤ front.length := le_trans (by decide) hlong
    have := anyImport_of_isPrefix hseven hfront hfront' himport
    exact absurd this (by rw [Bool.not_eq_true]; exact hnone old hold)
  · exact absurd himport (by rw [Bool.not_eq_true]; exact hnone line hold)
  · obtain ⟨d, rest', htext', -⟩ := anyImport_iff.1 himport
    rw [htext] at htext'
    have hi : c = 'i' := (List.cons.inj htext').1
    rw [hi] at hc
    exact absurd hc (by decide)

/-! ### Edits on the Babel configuration -/

namespace Plan

open Json (Value)

/-- The edit that takes built-ins from the polyfill. -/
def polyfillEdit : ConfigEdit :=
  .upsertTagged "presets" "@vue/app" [("useBuiltIns", .string "entry")] .skip

/-- The option of the plugin that imports components one by one. -/
def transformOption : Value :=
  .object [("transform", .string "vuetify/es5/components/$\x7bmember\x7d"),
    ("preventFullImport", .bool true)]

/-- The edit that imports components one by one. -/
def transformEdit : ConfigEdit :=
  .upsertTagged "plugins" "transform-imports" [("vuetify", transformOption)] .create

/-- The edit that adds the presets of the component explorer. -/
def storybookEdit : ConfigEdit :=
  .ensureEntries "presets" ["@babel/preset-env", "@babel/preset-react"] .create

/-- The edits of plans on the Babel configuration. -/
inductive IsBabelEdit : ConfigEdit → Prop where
  | polyfill : IsBabelEdit polyfillEdit
  | transform : IsBabelEdit transformEdit
  | storybook : IsBabelEdit storybookEdit

end Plan

theorem settling_of_isBabelEdit {edit : ConfigEdit} (h : Plan.IsBabelEdit edit) :
    edit.Settling := by
  cases h with
  | polyfill => exact ConfigEdit.settling_upsert _ _ _ _ ⟨by decide, trivial, trivial⟩
  | transform =>
    have hkeys : Plan.transformOption.WellKeyed := ⟨by decide, trivial, trivial, trivial⟩
    have hfloats : Plan.transformOption.EveryFloat fun _ => False := ⟨trivial, trivial, trivial⟩
    exact ConfigEdit.settling_upsert _ _ _ _ ⟨by decide, hkeys, hfloats⟩
  | storybook => exact ConfigEdit.settling_ensure _ _ _

theorem keptBy_of_isBabelEdit {edit other : ConfigEdit} (h : Plan.IsBabelEdit edit)
    (h' : Plan.IsBabelEdit other) (hfield : edit.field = other.field) : edit.KeptBy other := by
  have hself : ∀ {e : ConfigEdit}, Plan.IsBabelEdit e → e.KeptBy e :=
    fun he _ _ hlisted _ _ => (settling_of_isBabelEdit he).again hlisted
  cases h with
  | polyfill =>
    cases h' with
    | polyfill => exact hself .polyfill
    | transform => exact absurd hfield (by decide)
    | storybook => exact ConfigEdit.upsert_keptBy_ensure _ _ _ _ _ _ _ _
  | transform =>
    cases h' with
    | polyfill => exact absurd hfield (by decide)
    | transform => exact hself .transform
    | storybook => exact absurd hfield (by decide)
  | storybook =>
    cases h' with
    | polyfill => exact ConfigEdit.ensure_keptBy_upsert _ _ _ _ _ _ _
    | transform => exact absurd hfield (by decide)
    | storybook => exact hself .storybook

end ProjectSetup
