import ProjectSetup.Proofs.InPlace
import ProjectSetup.Proofs.Landing
import ProjectSetup.Proofs.Text.LineEnding

/-!
# What the steps of a plan add

The ink of a text are its characters that are not blank.  Line endings have none, so that a file has
as much ink as its lines, however these are loaded and saved.  Each step of a plan on lines adds ink
when it is applied.  A step on the Babel configuration need not add any, but once it is applied it
is done, and stays so under the other ones.  Either way no steps lead back to a text that one of
them was applied to.

* `inkOf_lt_of_rewritten`: a step on lines adds ink.
* `gained_of_rewritten`, `gained_of_gained`: a step on the Babel configuration stays done.
* `exists_gains`: no steps lead back.
-/

namespace ProjectSetup

open Text

/-! ### Ink -/

namespace Text

/-- How many characters of a text are not blank. -/
def ink (text : List Char) : Nat :=
  text.countP fun c => !isBlank c

theorem ink_append (front back : List Char) : ink (front ++ back) = ink front + ink back :=
  List.countP_append

theorem ink_eq_zero {text : List Char} (h : ∀ c ∈ text, isBlank c = true) : ink text = 0 :=
  List.countP_eq_zero.2 fun c hc => by simp [h c hc]

theorem ink_dropReturn (line : List Char) : ink (dropReturn line) = ink line := by
  rcases dropReturn_cases line with h | h
  · rw [h]
  · conv_rhs => rw [h, ink_append]
    rfl

theorem ink_intercalate (parts : List (List Char)) :
    ink (['\n'].intercalate parts) = ink parts.flatten := by
  induction parts with
  | nil => rfl
  | cons part rest ih =>
    cases rest with
    | nil => simp
    | cons next rest =>
      rw [List.intercalate_cons_cons, ink_append, ink_append, ih]
      exact (ink_append part (next :: rest).flatten).symm

/-- The ink of lines. -/
def inkOfLines (lines : List String) : Nat :=
  ink (lines.flatMap String.toList)

theorem inkOfLines_append (front back : List String) :
    inkOfLines (front ++ back) = inkOfLines front + inkOfLines back := by
  rw [inkOfLines, List.flatMap_append, ink_append]
  rfl

theorem inkOfLines_cons (line : String) (lines : List String) :
    inkOfLines (line :: lines) = ink line.toList + inkOfLines lines := by
  rw [inkOfLines, List.flatMap_cons, ink_append]
  rfl

theorem ink_joinLines (lines : List String) : ink (joinLines lines).toList = inkOfLines lines := by
  rw [joinLines, String.toList_ofList, ink_intercalate]
  rfl

theorem inkOfLines_map_dropReturn (pieces : List (List Char)) :
    inkOfLines (pieces.map fun piece => String.ofList (dropReturn piece)) = ink pieces.flatten := by
  induction pieces with
  | nil => rfl
  | cons piece rest ih =>
    rw [List.map_cons, inkOfLines_cons, ih, String.toList_ofList, ink_dropReturn, List.flatten_cons,
      ink_append]

theorem inkOfLines_splitLines (text : String) : inkOfLines (splitLines text) = ink text.toList := by
  rw [splitLines, inkOfLines_map_dropReturn, ← ink_intercalate, intercalate_pieces]

end Text

/-- The ink of a file, which has none if it is not there. -/
def inkOf (text? : Option String) : Nat :=
  inkOfLines (linesOf text?)

theorem inkOf_joinLines (lines : List String) :
    inkOf (some (joinLines lines)) = inkOfLines lines := by
  rw [inkOf, linesOf, inkOfLines_splitLines, ink_joinLines]

/-! ### Edits on lines -/

theorem inkOfLines_of_inserted {line : String} {lines new : List String}
    (h : Inserted line lines new) : inkOfLines new = ink line.toList + inkOfLines lines := by
  obtain ⟨front, back⟩ := h
  rw [inkOfLines_append, inkOfLines_append, inkOfLines_cons]
  omega

/-- What is put at the parenthesis of a call has the key more than what stood there. -/
theorem PutKey.ink_eq {key rest old new : List Char} (h : PutKey key rest old new) :
    ink old + ink key ≤ ink new := by
  cases h with
  | noArgument =>
    simp only [ink_append]
    have : ink "()".toList ≤ ink "(\x7b ".toList + ink " \x7d)".toList := by decide
    omega
  | noMembers hblank =>
    simp only [ink_append, ink_eq_zero hblank]
    have : ink "(\x7b".toList + ink "\x7d)".toList = ink "(\x7b ".toList + ink " \x7d)".toList := by
      decide
    omega
  | members hblank hmember hclose =>
    simp only [ink_append, ink_eq_zero hblank]
    have : ink "(\x7b".toList = ink "(\x7b ".toList := by decide
    omega

namespace LineEdit

variable {edit : LineEdit} {lines new : List String}

/-- What the edit puts in is not blank, and no line is taken away for it. -/
def Adds : LineEdit → Prop
  | insertLine _ .replace _ _ => False
  | edit => 0 < ink edit.text.toList

theorem inkOfLines_of_applyKey {call key : String} (h : applyKey call key lines = .rewritten new) :
    inkOfLines lines + ink key.toList ≤ inkOfLines new := by
  cases lands_applyKey h with
  | inCall hat hcut hargument hold hnew hput =>
    have hink := hput.ink_eq
    simp only [inkOfLines_append, inkOfLines_cons]
    rw [hold, hnew]
    simp only [ink_append]
    omega
  | belowCall hat hcut hargument hopen =>
    simp only [inkOfLines_append, inkOfLines_cons, String.toList_ofList, ink_append]
    omega

/-- An edit that rewrites the lines adds ink. -/
theorem inkOfLines_lt_of_rewritten (hadds : edit.Adds) (h : edit.apply lines = .rewritten new) :
    inkOfLines lines < inkOfLines new := by
  have hmarked : ∀ marker, edit.marker? = some marker → 0 < ink edit.text.toList →
      inkOfLines lines < inkOfLines new := by
    intro marker hmarker htext
    have hout := apply_cases hmarker lines
    rw [h] at hout
    cases hout with
    | rewritten _ _ _ hins =>
      have hsum := inkOfLines_of_inserted hins
      rw [String.toList_ofList, ink_append] at hsum
      omega
  cases edit with
  | insertImport anchor text => exact hmarked _ rfl hadds
  | insertLine anchor placement text marker =>
    cases placement with
    | before => exact hmarked _ rfl hadds
    | after => exact hmarked _ rfl hadds
    | replace => exact hadds.elim
  | prependLine text marker => exact hmarked _ rfl hadds
  | insertLink link placement => exact hmarked _ rfl hadds
  | objectKey call key =>
    have hsum := inkOfLines_of_applyKey h
    have hkey : 0 < ink key.toList := hadds
    omega

end LineEdit

/-! ### Steps on lines -/

variable {options : Options} {step : Step} {text? : Option String} {text : String}

/-- The steps of a plan on lines add something. -/
theorem adds_of_mem_steps (h : step ∈ Plan.steps options) (hbabel : step.file ≠ Plan.babelConfig) :
    ∃ edit, step.edit = .lines edit ∧ edit.Adds := by
  rcases step_cases h with ⟨-, rfl | rfl⟩ | ⟨-, rfl | rfl⟩ | ⟨-, preset, -, rfl | rfl⟩ | ⟨hin, -⟩
  · exact ⟨_, rfl, show 0 < ink Plan.pluginImport.toList by decide⟩
  · exact ⟨_, rfl, show 0 < ink Plan.polyfillImport.toList by decide⟩
  · exact ⟨_, rfl, show 0 < ink Plan.iconFontLink.toList by decide +kernel⟩
  · have hfront : 0 < ink Plan.fontFront.toList := by decide +kernel
    refine ⟨_, rfl, show 0 < ink (Plan.fontLink options.fonts).toList from ?_⟩
    rw [toList_fontLink, ink_append]
    omega
  · have hfront : 0 < ink Plan.presetFront.toList := by decide
    refine ⟨_, rfl, show 0 < ink (Plan.presetImport preset).toList from ?_⟩
    rw [toList_presetImport, ink_append]
    omega
  · exact ⟨_, rfl, show 0 < ink "preset".toList by decide⟩
  · exact absurd hin hbabel

/-- **A step on lines adds ink** to the file that it rewrites. -/
theorem inkOf_lt_of_rewritten (h : step ∈ Plan.steps options)
    (hbabel : step.file ≠ Plan.babelConfig) (hrew : step.edit.onText text? = .rewritten text) :
    inkOf text? < inkOf (some text) := by
  obtain ⟨edit, hedit, hadds⟩ := adds_of_mem_steps h hbabel
  rw [hedit] at hrew
  obtain ⟨new, hnew, rfl⟩ := onText_lines_eq_rewritten_iff.1 hrew
  rw [inkOf_joinLines]
  exact LineEdit.inkOfLines_lt_of_rewritten hadds hnew

/-! ### Steps on the Babel configuration -/

/-- An edit that had something to do in the old text of the Babel configuration has nothing left to
do in the new one, as far as that can be read. -/
def Gained (old : Option String) (new : String) : Prop :=
  ∃ edit, Plan.IsBabelEdit edit ∧ (∃ text, (FileEdit.config edit).onText old = .rewritten text) ∧
    ∀ members, configOf (some new) = .ok (.object members) → edit.Done members

theorem gained_of_rewritten {edit : ConfigEdit} (hkind : Plan.IsBabelEdit edit)
    (hrew : (FileEdit.config edit).onText text? = .rewritten text) : Gained text? text := by
  refine ⟨edit, hkind, ⟨text, hrew⟩, fun members hconfig => ?_⟩
  have hsettling := settling_of_isBabelEdit hkind
  have hout := onText_config_cases edit text?
  rw [hrew] at hout
  cases hout with
  | rewritten hold hnot hlist =>
    have hshape := ConfigEdit.shaped_next hsettling (isConfig_of_configOf_object hold) hlist
    obtain rfl := Json.Value.object.inj (eq_of_configOf_render hshape hconfig)
    exact ConfigEdit.done_mapFloats hsettling _ hshape (isConfig_of_configOf_object hconfig)
      (ConfigEdit.done_next hsettling (isConfig_of_configOf_object hold) hlist)

theorem gained_of_gained {edit : ConfigEdit} {old : Option String} {mid : String}
    (hgained : Gained old mid) (hkind : Plan.IsBabelEdit edit)
    (hrew : (FileEdit.config edit).onText (some mid) = .rewritten text) : Gained old text := by
  obtain ⟨first, hfirst, hold, hdone⟩ := hgained
  refine ⟨first, hfirst, hold, fun members hconfig => ?_⟩
  rw [← FileEdit.textAfter_of_rewritten hrew] at hconfig
  obtain ⟨before, hbefore, hafter⟩ := after_of_textAfter (settling_of_isBabelEdit hkind) hconfig
  exact hafter.done (settling_of_isBabelEdit hfirst) (settling_of_isBabelEdit hkind)
    (keptBy_of_isBabelEdit hfirst hkind) (isConfig_of_configOf_object hbefore)
    (isConfig_of_configOf_object hconfig) (hdone before hbefore)

theorem not_gained_self (text : String) : ¬ Gained (some text) text := by
  rintro ⟨edit, -, ⟨new, hrew⟩, hdone⟩
  have hout := onText_config_cases edit (some text)
  rw [hrew] at hout
  cases hout with
  | rewritten hconfig hnot _ => exact hnot (hdone _ hconfig)

/-! ### All steps -/

/-- The relation holds between a text of the file and what a step of a plan writes then, still holds
when later steps have written, and holds between no text and itself. -/
structure Gains (file : String) (R : Option String → String → Prop) : Prop where
  start {options : Options} {step : Step} {old : Option String} {new : String} :
    step ∈ Plan.steps options → step.file = file → step.edit.onText old = .rewritten new → R old new
  later {options : Options} {step : Step} {old : Option String} {mid new : String} : R old mid →
    step ∈ Plan.steps options → step.file = file →
    step.edit.onText (some mid) = .rewritten new → R old new
  irrefl (text : String) : ¬ R (some text) text

theorem gains_ink {file : String} (h : file ≠ Plan.babelConfig) :
    Gains file fun old new => inkOf old < inkOf (some new) where
  start hstep hfile hrew := inkOf_lt_of_rewritten hstep (hfile ▸ h) hrew
  later hold hstep hfile hrew := hold.trans (inkOf_lt_of_rewritten hstep (hfile ▸ h) hrew)
  irrefl _ := lt_irrefl _

theorem gains_gained : Gains Plan.babelConfig Gained where
  start hstep hfile hrew := by
    obtain ⟨edit, hedit, hkind⟩ := babel_step hstep hfile
    rw [hedit] at hrew
    exact gained_of_rewritten hkind hrew
  later hold hstep hfile hrew := by
    obtain ⟨edit, hedit, hkind⟩ := babel_step hstep hfile
    rw [hedit] at hrew
    exact gained_of_gained hold hkind hrew
  irrefl := not_gained_self

/-- **No steps lead back** to a text that one of them was applied to. -/
theorem exists_gains (file : String) : ∃ R, Gains file R := by
  by_cases h : file = Plan.babelConfig
  · subst h
    exact ⟨_, gains_gained⟩
  · exact ⟨_, gains_ink h⟩

end ProjectSetup
