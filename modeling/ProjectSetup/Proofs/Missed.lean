import ProjectSetup.Proofs.LostImport

/-!
# What a pass misses

Each edit of a plan leaves a file as it is that it has been applied to.  But a file that an edit did
not find its place in can get that place from a later edit of the same plan, and a later edit can
rewrite the line that an earlier one asks for.

* `idle_linkIconFont_iff`: the icon font goes below a link, and the first link may come later.
* `idle_importPreset_iff`: the import of a preset can be rewritten by the use of the preset.
* `idle_polyfillEntry_iff`: the polyfill goes to a preset of Babel, and the presets may come later.
-/

namespace ProjectSetup

open Json (Members Value)
open Text (isBlank)

variable {options : Options} {text? : Option String}

/-! ### The entry script -/

/-- No import of the framework is put in above the others. -/
theorem idle_importPlugin :
    (Plan.importPlugin options).edit.Idle
      ((Plan.importPolyfill options).edit.textAfter
        ((Plan.importPlugin options).edit.textAfter text?)) := by
  refine idle_textAfter_of_idle lasting_importPlugin rfl lasting_importPolyfill
    (fun _ => vueImport_of_reload) ?_ (idle_textAfter fun _ => inPlace_of_rewritten lasting_importPlugin)
  intro indent hindent
  obtain rfl : indent = [] := hindent
  decide

/-! ### The page -/

/-- The page has no link, and gets one to the fonts, below which the icon font is not linked. -/
structure LateLink (fonts : List String) (text? : Option String) : Prop where
  noLink : (Matcher.pattern LineEdit.linkTag).foundIn (linesOf text?) = false
  head : (Matcher.pattern LineEdit.closingHead).foundIn (linesOf text?) = true
  noFonts : (Matcher.substring (Plan.fontLink fonts)).foundIn (linesOf text?) = false
  noIcons : (Matcher.substring Plan.iconFontLink).foundIn (linesOf text?) = false
  apart : ¬ Plan.iconFontLink.toList <:+: (Plan.fontLink fonts).toList

/-- A text that starts with a tag occurs in a line if it does in the line without an indentation. -/
theorem infix_of_infix_indent {needle indent line : List Char} (htag : "<".toList <+: needle)
    (hindent : ∀ c ∈ indent, isBlank c = true) (h : needle <:+: indent ++ line) :
    needle <:+: line := by
  rcases Text.infix_append_cases h with ⟨tail, htail, hne, hpre⟩ | h
  · obtain ⟨c, tail, rfl⟩ := List.exists_cons_of_ne_nil hne
    obtain rfl : '<' = c := (List.cons_prefix_cons.1 (htag.trans hpre)).1
    have hblank := hindent '<' (htail.mem (by simp))
    exact absurd hblank (by decide)
  · exact h

/-- Behind an indentation the icon font is linked if it is without one. -/
theorem iconFontLink_infix_indent {indent line : List Char}
    (hindent : ∀ c ∈ indent, isBlank c = true)
    (h : Plan.iconFontLink.toList <:+: indent ++ line) : Plan.iconFontLink.toList <:+: line :=
  infix_of_infix_indent (by decide +kernel) hindent h

/-- The link to the fonts is a link, and the icon font is linked by it if it is part of it. -/
theorem links_of_linkFonts {fonts : List String} {text : String}
    (hfonts : ∀ font ∈ fonts, '\n' ∉ font.toList)
    (hrew : (Plan.linkFonts fonts).edit.onText text? = .rewritten text)
    (hnone : (Matcher.substring Plan.iconFontLink).foundIn (linesOf text?) = false) :
    (Matcher.pattern LineEdit.linkTag).foundIn (linesOf (some text)) = true ∧
      ((Matcher.substring Plan.iconFontLink).foundIn (linesOf (some text)) = true ↔
        Plan.iconFontLink.toList <:+: (Plan.fontLink fonts).toList) := by
  obtain ⟨indent, new, hput⟩ := linePut_of_onText (lasting_linkFonts hfonts) hrew
  have hblank : ∀ c ∈ indent, isBlank c = true := fun c hc => (hput.isIndent c hc).1
  have hmem : String.ofList (indent ++ (Plan.fontLink fonts).toList) ∈ new :=
    hput.inserted.mem_iff.2 (.inl rfl)
  rw [hput.lines, Matcher.foundIn_reload steady_linkTag,
    Matcher.foundIn_reload lasting_linkIconFont.steady, Matcher.foundIn_iff, Matcher.foundIn_iff]
  refine ⟨⟨_, hmem, linkTag_iff.2 ?_⟩, ?_, fun hin => ⟨_, hmem, ?_⟩⟩
  · have hstart : "<link".toList <+: Plan.fontFront.toList := by decide
    have hlink : "<link".toList <+: (Plan.fontLink fonts).toList := by
      rw [toList_fontLink]
      exact hstart.trans (List.prefix_append _ _)
    obtain ⟨more, hmore⟩ := hlink
    refine ⟨indent, more, ?_, hblank⟩
    rw [String.toList_ofList, ← hmore, List.append_assoc]
  · rintro ⟨line, hline, haccepts⟩
    rcases hput.inserted.mem_iff.1 hline with rfl | hline
    · rw [Matcher.accepts, Text.occursIn_iff, String.toList_ofList] at haccepts
      exact iconFontLink_infix_indent hblank haccepts
    · rw [Matcher.foundIn_eq_false_iff.1 hnone line hline] at haccepts
      cases haccepts
  · rw [Matcher.accepts, Text.occursIn_iff, String.toList_ofList]
    exact List.infix_append_of_infix_right hin

/-- The icon font is linked, or need not be, unless the page gets its first link too late. -/
theorem idle_linkIconFont_iff {fonts : List String} (hfonts : ∀ font ∈ fonts, '\n' ∉ font.toList) :
    Plan.linkIconFont.edit.Idle
        ((Plan.linkFonts fonts).edit.textAfter (Plan.linkIconFont.edit.textAfter text?)) ↔
      ¬ LateLink fonts text? := by
  have hlink := lasting_linkFonts hfonts
  have hicon := lasting_linkIconFont
  have hidle {text? : Option String} : Plan.linkIconFont.edit.Idle text? ↔
      (Matcher.substring Plan.iconFontLink).foundIn (linesOf text?) = true ∨
        (Matcher.pattern LineEdit.linkTag).foundIn (linesOf text?) = false :=
    idle_lines_iff hicon.marker? rfl
  have hrewritten {text? : Option String} :
      (∃ text, (Plan.linkFonts fonts).edit.onText text? = .rewritten text) ↔
        (Matcher.substring (Plan.fontLink fonts)).foundIn (linesOf text?) = false ∧
          (Matcher.pattern LineEdit.closingHead).foundIn (linesOf text?) = true :=
    rewritten_iff hlink.marker? rfl
  by_cases hfound : (Matcher.substring Plan.iconFontLink).foundIn
      (linesOf (Plan.linkIconFont.edit.textAfter text?)) = true
  · -- the icon font is linked by the first step or was before
    refine iff_of_true (hidle.2 (.inl (foundIn_textAfter hlink hicon.steady hfound))) fun hlate => ?_
    have hsame : Plan.linkIconFont.edit.textAfter text? = text? :=
      (hidle.2 (.inr hlate.noLink)).textAfter
    rw [hsame, hlate.noIcons] at hfound
    cases hfound
  · -- the first step leaves a page without links as it is
    have hafter : Plan.linkIconFont.edit.Idle (Plan.linkIconFont.edit.textAfter text?) :=
      idle_textAfter fun _ => inPlace_of_rewritten hicon
    have hsame : Plan.linkIconFont.edit.textAfter text? = text? :=
      textAfter_of_not_foundIn hicon hfound
    rw [hsame] at hafter hfound ⊢
    have hnoLink := (hidle.1 hafter).resolve_left hfound
    rw [Bool.not_eq_true] at hfound
    by_cases hrew : ∃ text, (Plan.linkFonts fonts).edit.onText text? = .rewritten text
    · obtain ⟨hnoFonts, hhead⟩ := hrewritten.1 hrew
      obtain ⟨text, hrew⟩ := hrew
      obtain ⟨hlinked, hicons⟩ := links_of_linkFonts hfonts hrew hfound
      rw [FileEdit.textAfter_of_rewritten hrew, hidle, hlinked, hicons]
      constructor
      · rintro (hin | hnone) hlate
        · exact hlate.apart hin
        · cases hnone
      · intro hlate
        by_contra hnot
        exact hlate ⟨hnoLink, hhead, hnoFonts, hfound, fun hin => hnot (.inl hin)⟩
    · have hsame' : (Plan.linkFonts fonts).edit.Idle text? :=
        fun text htext => hrew ⟨text, htext⟩
      rw [hsame'.textAfter]
      exact iff_of_true hafter fun hlate => hrew (hrewritten.2 ⟨hlate.noFonts, hlate.head⟩)

/-! ### The plugin module -/

/-- The import of the preset is lost when the preset is passed to the framework, and another import
is left. -/
inductive LostImport (preset : String) (text? : Option String) : Prop where
  /-- The import that is put in.  The last import of the text is left above it. -/
  | put {above below : List String} {last : String} : linesOf text? = above ++ last :: below →
    PutLost preset above last below → LostImport preset text?
  /-- The import that the text has.  A carriage return at the end of a line is not written. -/
  | found {above below : List String} {line : String} : linesOf text? = above ++ line :: below →
    FoundLost preset above line below →
    (Matcher.pattern Plan.anyImport).foundIn ((linesOf text?).map Text.reload) = true →
    LostImport preset text?

theorem anyImport_textAfter
    (hnone : (Matcher.pattern Plan.anyImport).foundIn (linesOf text?) = false) :
    (Matcher.pattern Plan.anyImport).foundIn
      (linesOf (Plan.usePreset.edit.textAfter text?)) = false := by
  rw [FileEdit.textAfter]
  cases hrew : Plan.usePreset.edit.onText text? with
  | rewritten text => exact anyImport_of_keyEdit hrew hnone
  | alreadyApplied => exact hnone
  | skipped => exact hnone

/-- The preset is imported, or cannot be, unless its import was lost. -/
theorem idle_importPreset_iff {preset : String} (hfeed : '\n' ∉ preset.toList) :
    (Plan.importPreset preset).edit.Idle
        (Plan.usePreset.edit.textAfter ((Plan.importPreset preset).edit.textAfter text?)) ↔
      ¬ LostImport preset text? := by
  have himport := lasting_importPreset hfeed
  have hidle {text? : Option String} : (Plan.importPreset preset).edit.Idle text? ↔
      (Matcher.substring (Plan.presetImport preset)).foundIn (linesOf text?) = true ∨
        (Matcher.pattern Plan.anyImport).foundIn (linesOf text?) = false :=
    idle_lines_iff himport.marker? rfl
  by_cases hfound : (Matcher.substring (Plan.presetImport preset)).foundIn (linesOf text?) = true
  · -- the import is there, and not put in again
    have hsame : (Plan.importPreset preset).edit.textAfter text? = text? :=
      (hidle.2 (.inl hfound)).textAfter
    rw [hsame, ← not_iff_not, not_not, not_idle_of_found_iff hfeed hfound]
    constructor
    · rintro ⟨⟨above, line, below, hlines, hlost⟩, hleft⟩
      exact .found hlines hlost hleft
    · rintro (⟨hlines, hlost⟩ | ⟨hlines, hlost, hleft⟩)
      · rw [hlines, hlost.notFound] at hfound
        cases hfound
      · exact ⟨⟨_, _, _, hlines, hlost⟩, hleft⟩
  · rw [Bool.not_eq_true] at hfound
    by_cases hany : (Matcher.pattern Plan.anyImport).foundIn (linesOf text?) = true
    · -- the import is put in below the last one
      obtain ⟨above, last, below, hlines, hfind, hanchor⟩ :=
        @exists_find?_of_foundIn ⟨.pattern Plan.anyImport, .backward⟩ _ hany
      rw [← not_iff_not, not_not]
      constructor
      · exact fun hnot =>
          .put hlines ((not_idle_of_put_iff hfeed hlines hanchor hfound).1 hnot)
      · rintro (⟨hlines, hlost⟩ | ⟨hlines, hlost, -⟩)
        · exact (not_idle_of_put_iff hfeed hlines hlost.anchor hfound).2 hlost
        · rw [hlines, hlost.foundIn] at hfound
          cases hfound
    · -- there is no place for it
      rw [Bool.not_eq_true] at hany
      have hsame : (Plan.importPreset preset).edit.textAfter text? = text? :=
        (hidle.2 (.inr hany)).textAfter
      rw [hsame]
      refine iff_of_true (hidle.2 (.inr (anyImport_textAfter hany))) ?_
      rintro (⟨hlines, hlost⟩ | ⟨hlines, hlost, -⟩)
      · rw [Matcher.foundIn_eq_false_iff, hlines] at hany
        exact absurd hlost.anchor.accepts (by rw [hany _ (by simp)]; decide)
      · rw [hlines, hlost.foundIn] at hfound
        cases hfound

/-! ### The Babel configuration -/

/-- The config has no presets, and gets some that do not take built-ins from the polyfill. -/
structure LateList (text? after? : Option String) : Prop where
  noPresets : ∃ members, configOf text? = .ok (.object members) ∧
    Members.get? "presets" members = none
  readable : ∃ value, configOf after? = .ok value

/-- The text of the Babel configuration after the step that imports components one by one, if that
is taken. -/
def transformed (taken : Bool) (text? : Option String) : Option String :=
  if taken then Plan.transformImports.edit.textAfter text? else text?

theorem presets_of_transformed {taken : Bool} {members' : Members}
    (h : configOf (transformed taken text?) = .ok (.object members')) :
    ∃ members, configOf text? = .ok (.object members) ∧
      (Members.get? "presets" members' = none ↔ Members.get? "presets" members = none) ∧
      (Plan.polyfillEdit.AtRest members → Plan.polyfillEdit.AtRest members') := by
  have hsettling := settling_of_isBabelEdit .polyfill
  have hother := settling_of_isBabelEdit .transform
  cases taken with
  | false => exact ⟨members', h, Iff.rfl, id⟩
  | true =>
    obtain ⟨members, hconfig, hafter⟩ := after_of_textAfter hother h
    refine ⟨members, hconfig, hafter.get?_eq_none_iff (by decide), ?_⟩
    exact hafter.atRest_of_ne hsettling hother (by decide) (isConfig_of_configOf_object hconfig)
      (isConfig_of_configOf_object h)

theorem idle_transformed {taken : Bool} (h : Plan.polyfillEntry.edit.Idle text?) :
    Plan.polyfillEntry.edit.Idle (transformed taken text?) := by
  cases taken with
  | false => exact h
  | true =>
    exact idle_textAfter_config_of_ne (settling_of_isBabelEdit .polyfill)
      (settling_of_isBabelEdit .transform) (by decide) h

/-- Without presets there is none to take built-ins from the polyfill. -/
theorem atRest_polyfillEdit {members : Members} (h : Members.get? "presets" members = none) :
    Plan.polyfillEdit.AtRest members := by
  refine .inr fun items hlist => ?_
  rcases hlist with hget | ⟨-, hcreate, -⟩
  · have hnone : Members.get? Plan.polyfillEdit.field members = none := h
    rw [hnone] at hget
    cases hget
  · cases hcreate

/-- The presets that are put into a config without any do not take built-ins from the polyfill. -/
theorem not_atRest_of_created {members members' : Members}
    (hnone : Members.get? "presets" members = none)
    (h : After Plan.storybookEdit members members') : ¬ Plan.polyfillEdit.AtRest members' := by
  have hfield : Members.get? Plan.storybookEdit.field members = none := hnone
  cases h with
  | same hrest =>
    rcases hrest with ⟨items, hget, -⟩ | hno
    · rw [hfield] at hget
      cases hget
    · exact absurd (.inr ⟨hfield, rfl, rfl⟩) (hno [])
  | @changed items hnot hlist =>
    obtain rfl : items = [] := by
      rcases hlist with hget | ⟨-, -, heq⟩
      · rw [hfield] at hget
        cases hget
      · exact heq
    have hget : Members.get? Plan.polyfillEdit.field
        (Value.membersMapFloats Json.reread (Plan.storybookEdit.next members [])) =
          some (.array [.string "@babel/preset-env", .string "@babel/preset-react"]) := by
      have hsame : Plan.polyfillEdit.field = Plan.storybookEdit.field := rfl
      rw [Members.get?_membersMapFloats, ConfigEdit.next, Members.get?_insert, hsame, if_pos rfl]
      rfl
    rintro (⟨items, hitems, hdone⟩ | hno)
    · rw [hget] at hitems
      obtain rfl := Value.array.inj (Option.some.inj hitems)
      revert hdone
      decide
    · exact hno _ (.inl hget)

/-- Built-ins are taken from the polyfill, or cannot be, unless the presets were put in too late. -/
theorem idle_polyfillEntry_iff {taken : Bool} :
    Plan.polyfillEntry.edit.Idle (Plan.storybookPresets.edit.textAfter
        (transformed taken (Plan.polyfillEntry.edit.textAfter text?))) ↔
      ¬ LateList text? (Plan.storybookPresets.edit.textAfter
        (transformed taken (Plan.polyfillEntry.edit.textAfter text?))) := by
  have hsettling := settling_of_isBabelEdit .polyfill
  have hother := settling_of_isBabelEdit .storybook
  have hidle {text? : Option String} : Plan.polyfillEntry.edit.Idle text? ↔
      ∀ members, configOf text? = .ok (.object members) → Plan.polyfillEdit.AtRest members :=
    idle_config_iff
  constructor
  · rintro hrest ⟨⟨members, hconfig, hnone⟩, value, hvalue⟩
    have hsame : Plan.polyfillEntry.edit.textAfter text? = text? := by
      refine FileEdit.Idle.textAfter (hidle.2 fun found hfound => ?_)
      rw [hconfig] at hfound
      obtain rfl := Value.object.inj (Except.ok.inj hfound)
      exact atRest_polyfillEdit hnone
    rw [hsame] at hrest hvalue
    obtain ⟨last, rfl, -⟩ := isConfig_of_configOf hvalue
    obtain ⟨mid, hmid, hafter⟩ := after_of_textAfter hother hvalue
    obtain ⟨found, hfound, hpresets, -⟩ := presets_of_transformed hmid
    rw [hconfig] at hfound
    obtain rfl := Value.object.inj (Except.ok.inj hfound)
    exact not_atRest_of_created (hpresets.2 hnone) hafter (hidle.1 hrest last hvalue)
  · intro hlate
    refine hidle.2 fun last hlast => ?_
    obtain ⟨mid, hmid, hafter⟩ := after_of_textAfter hother hlast
    obtain ⟨first, hfirst, hpresets, hkeep⟩ := presets_of_transformed hmid
    obtain ⟨members, hconfig, hstart⟩ := after_of_textAfter hsettling hfirst
    have hrest : Plan.polyfillEdit.AtRest mid :=
      hkeep (hstart.atRest hsettling (isConfig_of_configOf_object hconfig)
        (isConfig_of_configOf_object hfirst))
    have hsome : Members.get? "presets" mid ≠ none := fun hnone =>
      hlate ⟨⟨members, hconfig, hstart.get?_eq_none (hpresets.1 hnone)⟩, _, hlast⟩
    rcases hrest with hdone | hno
    · exact .inl (hafter.done hsettling hother
        (fun hfield => keptBy_of_isBabelEdit .polyfill .storybook hfield)
        (isConfig_of_configOf_object hmid) (isConfig_of_configOf_object hlast) hdone)
    · cases hafter with
      | same => exact .inr hno
      | changed _ hlist =>
        rcases hlist with hget | ⟨hnone, -, -⟩
        · exact absurd (.inl hget) (hno _)
        · exact absurd hnone hsome

end ProjectSetup
