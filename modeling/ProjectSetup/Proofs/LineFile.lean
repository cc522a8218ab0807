import ProjectSetup.Proofs.ObjectKey
import ProjectSetup.Proofs.Pass
import ProjectSetup.Proofs.Pattern

/-!
# Edits on files of lines

A file is read as lines and written as lines, and in between each line loses a carriage return it
ends with.  An edit that puts a line in finds its marker in the file it wrote, and the marker stays
there.

* `inPlace_lines_iff`, `idle_lines_iff`: when an edit leaves a file as it is.
* `linePut_of_onText`: what an edit writes, and `inPlace_of_rewritten`: it is done then.
* `textAfter_lines`: the text after an edit, told by the lines after it.
-/

namespace ProjectSetup

open Text

/-! ### Files of lines -/

theorem areLines_linesOf (text? : Option String) : AreLines (linesOf text?) := by
  cases text? with
  | none => simp [linesOf, AreLines]
  | some text => exact areLines_splitLines text

theorem linesOf_joinLines {lines : List String} (h : AreLines lines) (hne : lines ≠ []) :
    linesOf (some (joinLines lines)) = lines.map reload :=
  splitLines_joinLines hne h

/-- Lines without line endings are read as they were written. -/
theorem linesOf_joinLines_self {lines : List String} (hne : lines ≠ [])
    (h : ∀ line ∈ lines, '\n' ∉ line.toList ∧ line.toList.getLast? ≠ some '\r') :
    linesOf (some (joinLines lines)) = lines :=
  splitLines_joinLines_self hne h

theorem Edited.map_eq_rewritten_iff {α β : Type} {f : α → β} {edited : Edited α} {b : β} :
    edited.map f = .rewritten b ↔ ∃ a, edited = .rewritten a ∧ f a = b := by
  cases edited <;> simp [Edited.map]

theorem Edited.map_eq_alreadyApplied_iff {α β : Type} {f : α → β} {edited : Edited α} :
    edited.map f = .alreadyApplied ↔ edited = .alreadyApplied := by
  cases edited <;> simp [Edited.map]

theorem onText_lines_eq_rewritten_iff {edit : LineEdit} {text? : Option String} {text : String} :
    (FileEdit.lines edit).onText text? = .rewritten text ↔
      ∃ new, edit.apply (linesOf text?) = .rewritten new ∧ joinLines new = text :=
  Edited.map_eq_rewritten_iff

theorem onText_lines_eq_alreadyApplied_iff {edit : LineEdit} {text? : Option String} :
    (FileEdit.lines edit).onText text? = .alreadyApplied ↔
      edit.apply (linesOf text?) = .alreadyApplied :=
  Edited.map_eq_alreadyApplied_iff

theorem idle_of_inPlace {edit : FileEdit} {text? : Option String}
    (h : edit.onText text? = .alreadyApplied) : edit.Idle text? := by
  intro text hrew
  rw [h] at hrew
  cases hrew

/-- An edit that is done once it was applied leaves a file as it is that it was applied to. -/
theorem idle_textAfter {edit : FileEdit} {text? : Option String}
    (h : ∀ text, edit.onText text? = .rewritten text → edit.onText (some text) = .alreadyApplied) :
    edit.Idle (edit.textAfter text?) := by
  rw [FileEdit.textAfter]
  cases hedit : edit.onText text? with
  | rewritten text => exact idle_of_inPlace (h text hedit)
  | alreadyApplied => exact idle_of_inPlace hedit
  | skipped reason =>
    intro text hrew
    rw [hedit] at hrew
    cases hrew

/-! ### Edits that put a line in -/

/-- The marker of the edit is found in the line that it puts in, and is found again when the file
was written and read. -/
structure LineEdit.Lasting (edit : LineEdit) (marker : Matcher) : Prop where
  marker? : edit.marker? = some marker
  steady : marker.Steady
  noFeed : '\n' ∉ edit.text.toList
  accepts : ∀ lines indent, edit.IsIndent lines indent →
    marker.accepts (String.ofList (indent ++ edit.text.toList)) = true

variable {edit : LineEdit} {marker : Matcher} {text? : Option String} {text : String}

theorem inPlace_lines_iff (h : edit.marker? = some marker) :
    (FileEdit.lines edit).onText text? = .alreadyApplied ↔
      marker.foundIn (linesOf text?) = true := by
  rw [onText_lines_eq_alreadyApplied_iff]
  have hout := LineEdit.apply_cases h (linesOf text?)
  generalize edit.apply (linesOf text?) = edited at hout
  cases hout with
  | inPlace hfound => simp [hfound]
  | skipped hfound => simp [hfound]
  | rewritten hfound => simp [hfound]

/-- An edit leaves a file as it is if its marker is found, or its anchor is not. -/
theorem idle_lines_iff {anchor : Matcher} (h : edit.marker? = some marker)
    (hanchor : edit.anchor? = some anchor) :
    (FileEdit.lines edit).Idle text? ↔
      marker.foundIn (linesOf text?) = true ∨ anchor.foundIn (linesOf text?) = false := by
  have hout := LineEdit.apply_cases h (linesOf text?)
  have hidle : (FileEdit.lines edit).Idle text? ↔
      ∀ new, edit.apply (linesOf text?) ≠ .rewritten new := by
    constructor
    · intro hidle new hnew
      exact hidle _ (onText_lines_eq_rewritten_iff.2 ⟨new, hnew, rfl⟩)
    · intro hidle text htext
      obtain ⟨new, hnew, -⟩ := onText_lines_eq_rewritten_iff.1 htext
      exact hidle new hnew
  rw [hidle]
  generalize edit.apply (linesOf text?) = edited at hout
  cases hout with
  | inPlace hfound => simp [hfound]
  | skipped hfound hanchor' hnot =>
    rw [hanchor] at hanchor'
    obtain rfl := Option.some.inj hanchor'
    simp [hnot]
  | rewritten hfound hanchor' =>
    simp [hfound, hanchor' anchor hanchor]

theorem not_mem_indent {lines : List String} {indent : List Char} (hlines : AreLines lines)
    (h : edit.IsIndent lines indent) : '\n' ∉ indent := by
  unfold LineEdit.IsIndent at h
  split at h
  · intro hfeed
    obtain ⟨-, heq | ⟨line, hline, hmem⟩⟩ := h '\n' hfeed
    · exact absurd heq (by decide)
    · exact hlines line hline hmem
  · rw [h]
    simp

/-- The file that an edit writes: its lines with one put in. -/
structure LinePut (edit : LineEdit) (marker : Matcher) (text? : Option String) (text : String)
    (indent : List Char) (new : List String) : Prop where
  isIndent : edit.IsIndent (linesOf text?) indent
  inserted : Inserted (String.ofList (indent ++ edit.text.toList)) (linesOf text?) new
  lines : linesOf (some text) = new.map reload
  notFound : marker.foundIn (linesOf text?) = false
  anchor : ∀ anchor, edit.anchor? = some anchor → anchor.foundIn (linesOf text?) = true

/-- **What an edit writes** that puts a line in. -/
theorem linePut_of_onText (h : edit.Lasting marker)
    (hrew : (FileEdit.lines edit).onText text? = .rewritten text) :
    ∃ indent new, LinePut edit marker text? text indent new := by
  obtain ⟨new, hnew, rfl⟩ := onText_lines_eq_rewritten_iff.1 hrew
  have hout := LineEdit.apply_cases h.marker? (linesOf text?)
  rw [hnew] at hout
  cases hout with
  | @rewritten indent new hfound hanchor hindent hins =>
    have hold := areLines_linesOf text?
    have hlines : AreLines new := by
      intro line hline
      rcases hins.mem_iff.1 hline with rfl | hline
      · rw [String.toList_ofList, List.mem_append, not_or]
        exact ⟨not_mem_indent hold hindent, h.noFeed⟩
      · exact hold line hline
    exact ⟨indent, new, hindent, hins, linesOf_joinLines hlines hins.ne_nil, hfound, hanchor⟩

/-- A marker that was in a file stays when a line is put in. -/
theorem foundIn_of_rewritten {other : Matcher} (h : edit.Lasting marker) (hother : other.Steady)
    (hrew : (FileEdit.lines edit).onText text? = .rewritten text)
    (hfound : other.foundIn (linesOf text?) = true) : other.foundIn (linesOf (some text)) = true := by
  obtain ⟨indent, new, hput⟩ := linePut_of_onText h hrew
  rw [hput.lines, Matcher.foundIn_reload hother]
  exact Matcher.foundIn_of_inserted hput.inserted hfound

/-- An edit that puts a line in is done once it was applied. -/
theorem inPlace_of_rewritten (h : edit.Lasting marker)
    (hrew : (FileEdit.lines edit).onText text? = .rewritten text) :
    (FileEdit.lines edit).onText (some text) = .alreadyApplied := by
  obtain ⟨indent, new, hput⟩ := linePut_of_onText h hrew
  rw [inPlace_lines_iff h.marker?, hput.lines, Matcher.foundIn_reload h.steady,
    Matcher.foundIn_iff]
  exact ⟨_, hput.inserted.mem_iff.2 (.inl rfl), h.accepts _ _ hput.isIndent⟩

/-- A file in which the marker is not found after a line was put in did not have the marker, and
neither has the line. -/
theorem foundIn_eq_false_of_rewritten {other : Matcher} (h : edit.Lasting marker)
    (hsmall : ∀ line, other.accepts (reload line) = true → other.accepts line = true)
    (hrew : (FileEdit.lines edit).onText text? = .rewritten text)
    (hold : other.foundIn (linesOf text?) = false)
    (hline : ∀ indent, edit.IsIndent (linesOf text?) indent →
      other.accepts (String.ofList (indent ++ edit.text.toList)) = false) :
    other.foundIn (linesOf (some text)) = false := by
  obtain ⟨indent, new, hput⟩ := linePut_of_onText h hrew
  rw [Matcher.foundIn_eq_false_iff] at hold ⊢
  intro reloaded hreloaded
  rw [hput.lines] at hreloaded
  obtain ⟨line, hmem, rfl⟩ := List.mem_map.1 hreloaded
  rw [← Bool.not_eq_true]
  intro haccepts
  have haccepts' := hsmall line haccepts
  rcases hput.inserted.mem_iff.1 hmem with rfl | hmem
  · rw [hline indent hput.isIndent] at haccepts'
    cases haccepts'
  · rw [hold line hmem] at haccepts'
    cases haccepts'

/-- A marker that was in a file stays when an edit puts a line in, or does not. -/
theorem foundIn_textAfter {other : Matcher} (h : edit.Lasting marker)
    (hother : other.Steady) (hfound : other.foundIn (linesOf text?) = true) :
    other.foundIn (linesOf ((FileEdit.lines edit).textAfter text?)) = true := by
  rw [FileEdit.textAfter]
  cases hrew : (FileEdit.lines edit).onText text? with
  | rewritten text => exact foundIn_of_rewritten h hother hrew hfound
  | alreadyApplied => exact hfound
  | skipped => exact hfound

/-- An edit whose marker is not found afterwards left the file as it was. -/
theorem textAfter_of_not_foundIn (h : edit.Lasting marker)
    (hnot : ¬ marker.foundIn (linesOf ((FileEdit.lines edit).textAfter text?)) = true) :
    (FileEdit.lines edit).textAfter text? = text? := by
  rw [FileEdit.textAfter] at hnot ⊢
  cases hrew : (FileEdit.lines edit).onText text? with
  | rewritten text =>
    rw [hrew] at hnot
    exact absurd ((inPlace_lines_iff h.marker?).1 (inPlace_of_rewritten h hrew)) hnot
  | alreadyApplied => rfl
  | skipped => rfl

/-- An edit that leaves a file as it is still does so when a line is put in that is no anchor. -/
theorem idle_textAfter_of_idle {other : LineEdit} {marker' anchor : Matcher}
    (h : edit.Lasting marker) (hanchor : edit.anchor? = some anchor) (hother : other.Lasting marker')
    (hsmall : ∀ line, anchor.accepts (reload line) = true → anchor.accepts line = true)
    (hline : ∀ indent, other.IsIndent (linesOf text?) indent →
      anchor.accepts (String.ofList (indent ++ other.text.toList)) = false)
    (hidle : (FileEdit.lines edit).Idle text?) :
    (FileEdit.lines edit).Idle ((FileEdit.lines other).textAfter text?) := by
  rw [FileEdit.textAfter]
  cases hrew : (FileEdit.lines other).onText text? with
  | rewritten text =>
    rw [idle_lines_iff h.marker? hanchor] at hidle ⊢
    rcases hidle with hfound | hnone
    · exact .inl (foundIn_of_rewritten hother h.steady hrew hfound)
    · exact .inr (foundIn_eq_false_of_rewritten hother hsmall hrew hnone hline)
  | alreadyApplied => exact hidle
  | skipped => exact hidle

/-- An edit rewrites a file in which its anchor is found and its marker is not. -/
theorem rewritten_iff {anchor : Matcher} (h : edit.marker? = some marker)
    (hanchor : edit.anchor? = some anchor) :
    (∃ text, (FileEdit.lines edit).onText text? = .rewritten text) ↔
      marker.foundIn (linesOf text?) = false ∧ anchor.foundIn (linesOf text?) = true := by
  have hidle : (FileEdit.lines edit).Idle text? ↔ _ := idle_lines_iff h hanchor
  rw [← not_iff_not, not_exists, not_and_or, Bool.not_eq_false, Bool.not_eq_true]
  exact hidle

/-! ### Lines after an edit -/

/-- The lines after an edit. -/
def LineEdit.after (edit : LineEdit) (lines : List String) : List String :=
  match edit.apply lines with
  | .rewritten new => new
  | _ => lines

/-- The text of a file whose lines have become the given ones: it is written anew, unless these are
the lines that it had. -/
def textWith (text : String) (lines : List String) : String :=
  if lines = splitLines text then text else joinLines lines

theorem LineEdit.after_of_rewritten {lines new : List String}
    (h : edit.apply lines = .rewritten new) : edit.after lines = new := by
  rw [LineEdit.after, h]

/-- An edit that puts a line in is applied exactly if it makes other lines. -/
theorem LineEdit.rewritten_iff_after_ne (h : edit.marker? = some marker) (lines : List String) :
    (∃ new, edit.apply lines = .rewritten new) ↔ edit.after lines ≠ lines := by
  rw [LineEdit.after]
  have hout := LineEdit.apply_cases h lines
  generalize edit.apply lines = edited at hout
  cases hout with
  | inPlace => simp
  | skipped => simp
  | rewritten _ _ _ hins =>
    refine iff_of_true ⟨_, rfl⟩ fun heq => ?_
    have hlength := hins.length_eq
    dsimp only at heq
    rw [heq] at hlength
    exact absurd hlength (Nat.ne_of_lt (Nat.lt_succ_self _))

theorem textAfter_lines (h : edit.marker? = some marker) (text : String) :
    (FileEdit.lines edit).textAfter (some text) =
      some (textWith text (edit.after (splitLines text))) := by
  have hiff := LineEdit.rewritten_iff_after_ne h (splitLines text)
  rw [FileEdit.textAfter, FileEdit.onText, linesOf, textWith]
  cases hedit : edit.apply (splitLines text) with
  | rewritten new =>
    rw [hedit] at hiff
    rw [if_neg (hiff.1 ⟨new, rfl⟩), LineEdit.after_of_rewritten hedit]
    rfl
  | alreadyApplied =>
    rw [hedit] at hiff
    rw [if_pos (not_not.1 fun hne => by simpa using hiff.2 hne)]
    rfl
  | skipped reason =>
    rw [hedit] at hiff
    rw [if_pos (not_not.1 fun hne => by simpa using hiff.2 hne)]
    rfl

theorem verdictOn_lines_iff (h : edit.marker? = some marker) {step : Step}
    (hedit : step.edit = .lines edit) (text : String) :
    step.verdictOn (some text) = .applied ↔ edit.after (splitLines text) ≠ splitLines text := by
  rw [← LineEdit.rewritten_iff_after_ne h, Step.verdictOn, Option.isNone_some, Bool.and_false,
    if_neg Bool.false_ne_true, hedit, FileEdit.onText, linesOf]
  cases edit.apply (splitLines text) <;> simp [Edited.map]

/-- Lines without line endings, one of them at least, are read as they were written. -/
theorem splitLines_textWith {lines : List String} (hne : lines ≠ [])
    (h : ∀ line ∈ lines, '\n' ∉ line.toList ∧ line.toList.getLast? ≠ some '\r') :
    splitLines (textWith text lines) = lines := by
  rw [textWith]
  split_ifs with heq
  · exact heq.symm
  · exact linesOf_joinLines_self hne h

/-- Of two edits one after the other the text shows what the second leaves, unless that one undoes
what the first did. -/
theorem textWith_textWith {mid lines : List String} (hmid : splitLines (textWith text mid) = mid)
    (hback : lines = splitLines text → mid = splitLines text) :
    textWith (textWith text mid) lines = textWith text lines := by
  rw [textWith, hmid]
  split_ifs with heq
  · rw [heq]
  · rw [textWith, if_neg fun hlines => heq (hlines.trans (hback hlines).symm)]

end ProjectSetup
