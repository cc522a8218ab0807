import Mathlib.Data.List.GetD
import Mathlib.Data.List.TakeWhile
import ProjectSetup.LineEdit
import ProjectSetup.Proofs.Text.Line

/-!
# What an edit on lines does

All edits but `objectKey` ask for a marker, look for an anchor and put a line in.  Once the marker
is found it stays, whatever lines are put in later and however often the file is written and read,
as long as the marker does not look at a carriage return that ends a line.

* `apply_cases`: what an edit that puts a line in can come to.
* `foundIn_of_inserted`, `foundIn_reload`: markers stay.
-/

namespace ProjectSetup

/-! ### Lines that are put in -/

/-- The lines with one put in. -/
inductive Inserted (line : String) : List String → List String → Prop where
  | intro (front back : List String) : Inserted line (front ++ back) (front ++ line :: back)

theorem inserted_insertIdx (line : String) {lines : List String} {index : Nat}
    (h : index ≤ lines.length) : Inserted line lines (lines.insertIdx index line) := by
  induction lines generalizing index with
  | nil =>
    obtain rfl : index = 0 := by simpa using h
    exact .intro [] []
  | cons first lines ih =>
    cases index with
    | zero => exact .intro [] (first :: lines)
    | succ index =>
      have hrest := ih (show index ≤ lines.length by simpa using h)
      rw [List.insertIdx_succ_cons]
      generalize lines.insertIdx index line = new at hrest
      obtain ⟨front, back⟩ := hrest
      exact .intro (first :: front) back

theorem Inserted.mem_iff {line l : String} {lines new : List String} (h : Inserted line lines new) :
    l ∈ new ↔ l = line ∨ l ∈ lines := by
  obtain ⟨front, back⟩ := h
  rw [List.mem_append, List.mem_cons, List.mem_append, or_left_comm]

theorem Inserted.length_eq {line : String} {lines new : List String}
    (h : Inserted line lines new) : new.length = lines.length + 1 := by
  obtain ⟨front, back⟩ := h
  rw [List.length_append, List.length_append, List.length_cons, Nat.add_assoc]

theorem Inserted.ne_nil {line : String} {lines new : List String} (h : Inserted line lines new) :
    new ≠ [] := by
  obtain ⟨front, back⟩ := h
  simp

/-! ### Matchers and anchors -/

namespace Matcher

variable {matcher : Matcher} {lines : List String}

theorem foundIn_iff : matcher.foundIn lines = true ↔ ∃ line ∈ lines, matcher.accepts line = true := by
  rw [foundIn, List.any_eq_true]

theorem foundIn_eq_false_iff :
    matcher.foundIn lines = false ↔ ∀ line ∈ lines, matcher.accepts line = false := by
  rw [foundIn, List.any_eq_false]
  simp only [Bool.not_eq_true]

theorem foundIn_of_inserted {line : String} {new : List String} (h : Inserted line lines new)
    (hfound : matcher.foundIn lines = true) : matcher.foundIn new = true := by
  rw [foundIn_iff] at hfound ⊢
  obtain ⟨l, hl, haccepts⟩ := hfound
  exact ⟨l, h.mem_iff.2 (.inr hl), haccepts⟩

/-- The matcher does not look at a carriage return that ends a line. -/
def Steady (matcher : Matcher) : Prop :=
  ∀ line, matcher.accepts (Text.reload line) = matcher.accepts line

theorem foundIn_reload (h : matcher.Steady) :
    matcher.foundIn (lines.map Text.reload) = matcher.foundIn lines := by
  rw [foundIn, foundIn, List.any_map]
  congr 1
  funext line
  exact h line

theorem steady_substring {needle : String} (h : needle.toList.getLast? ≠ some '\r') :
    (substring needle).Steady := by
  intro line
  rw [accepts, accepts, Text.toList_reload, Text.occursIn_dropReturn h]

end Matcher

theorem containsAny_singleton (lines : List String) (needle : String) :
    containsAny lines [needle] = (Matcher.substring needle).foundIn lines := by
  simp only [containsAny, List.any_cons, List.any_nil, Bool.or_false]
  rfl

theorem lastIdx?_lt {α : Type} {test : α → Bool} {list : List α} {index : Nat}
    (h : lastIdx? test list = some index) : index < list.length := by
  induction list generalizing index with
  | nil => cases h
  | cons a rest ih =>
    rw [lastIdx?] at h
    cases hrest : lastIdx? test rest with
    | some i =>
      rw [hrest] at h
      obtain rfl := Option.some.inj h
      have := ih hrest
      simp only [List.length_cons]
      omega
    | none =>
      rw [hrest] at h
      dsimp only at h
      split_ifs at h
      obtain rfl := Option.some.inj h
      simp

theorem lastIdx?_eq_none_iff {α : Type} {test : α → Bool} {list : List α} :
    lastIdx? test list = none ↔ ∀ a ∈ list, test a = false := by
  induction list with
  | nil => simp [lastIdx?]
  | cons a rest ih =>
    rw [lastIdx?, List.forall_mem_cons, ← ih]
    cases hrest : lastIdx? test rest with
    | some i => simp
    | none => simp

theorem Anchor.find?_lt {anchor : Anchor} {lines : List String} {index : Nat}
    (h : anchor.find? lines = some index) : index < lines.length := by
  unfold Anchor.find? at h
  split at h
  · exact (List.findIdx?_eq_some_iff_getElem.1 h).1
  · exact lastIdx?_lt h

theorem Anchor.find?_eq_none_iff {anchor : Anchor} {lines : List String} :
    anchor.find? lines = none ↔ ∀ line ∈ lines, anchor.matcher.accepts line = false := by
  unfold Anchor.find?
  split
  · exact List.findIdx?_eq_none_iff
  · exact lastIdx?_eq_none_iff

/-! ### Edits that put a line in -/

namespace LineEdit

/-- What an edit that puts a line in asks for. -/
def marker? : LineEdit → Option Matcher
  | insertImport _ text => some (.substring text)
  | insertLine _ .replace _ _ => none
  | insertLine _ _ _ marker => some marker
  | prependLine _ marker => some marker
  | insertLink link _ => some (.substring link)
  | objectKey _ _ => none

/-- What an edit looks for, if it needs a place. -/
def anchor? : LineEdit → Option Matcher
  | insertImport anchor _ => some anchor.matcher
  | insertLine anchor _ _ _ => some anchor.matcher
  | prependLine _ _ => none
  | insertLink _ placement => some (linkAnchor placement).matcher
  | objectKey call _ => some (.substring call)

/-- What an edit puts in. -/
def text : LineEdit → String
  | insertImport _ text => text
  | insertLine _ _ text _ => text
  | prependLine text _ => text
  | insertLink link _ => link
  | objectKey _ key => key

/-- What an edit may put in front of its text: links are indented, as a line of the file or by
spaces. -/
def IsIndent (lines : List String) (indent : List Char) : LineEdit → Prop
  | insertLink _ _ => ∀ c ∈ indent, Text.isBlank c = true ∧ (c = ' ' ∨ ∃ l ∈ lines, c ∈ l.toList)
  | _ => indent = []

/-- What an edit that puts a line in can come to. -/
inductive Outcome (edit : LineEdit) (marker : Matcher) (lines : List String) :
    Edited (List String) → Prop where
  | inPlace : marker.foundIn lines = true → Outcome edit marker lines .alreadyApplied
  | skipped {anchor : Matcher} {reason : SkipReason} : marker.foundIn lines = false →
    edit.anchor? = some anchor → anchor.foundIn lines = false →
    Outcome edit marker lines (.skipped reason)
  | rewritten {indent : List Char} {new : List String} : marker.foundIn lines = false →
    (∀ anchor, edit.anchor? = some anchor → anchor.foundIn lines = true) →
    edit.IsIndent lines indent →
    Inserted (String.ofList (indent ++ edit.text.toList)) lines new →
    Outcome edit marker lines (.rewritten new)

theorem inserted_place {anchor : Anchor} {lines : List String} {index : Nat} {text : String}
    {placement : Placement} (hplace : placement ≠ .replace) (h : anchor.find? lines = some index) :
    Inserted text lines (place lines index text placement) := by
  have hlt := Anchor.find?_lt h
  cases placement with
  | before => exact inserted_insertIdx text (by omega)
  | after => exact inserted_insertIdx text (by omega)
  | replace => exact absurd rfl hplace

theorem foundIn_of_find? {anchor : Anchor} {lines : List String} {index : Nat}
    (h : anchor.find? lines = some index) : anchor.matcher.foundIn lines = true := by
  rw [← Bool.not_eq_false, Matcher.foundIn_eq_false_iff, ← Anchor.find?_eq_none_iff, h]
  simp

theorem outcome_applyLine {edit : LineEdit} {anchor : Anchor} {placement : Placement}
    {text : String} {marker : Matcher} (lines : List String) (hplace : placement ≠ .replace)
    (hanchor : edit.anchor? = some anchor.matcher) (htext : edit.text = text)
    (hindent : edit.IsIndent lines []) :
    Outcome edit marker lines (applyLine anchor placement text marker lines) := by
  unfold applyLine
  split_ifs with hmarker
  · exact .inPlace hmarker
  · rw [Bool.not_eq_true] at hmarker
    cases hfind : anchor.find? lines with
    | none =>
      refine .skipped hmarker hanchor ?_
      rw [Matcher.foundIn_eq_false_iff]
      exact Anchor.find?_eq_none_iff.1 hfind
    | some index =>
      refine .rewritten hmarker (fun matcher h => ?_) hindent ?_
      · rw [hanchor] at h
        obtain rfl := Option.some.inj h
        exact foundIn_of_find? hfind
      · rw [List.nil_append, String.ofList_toList, htext]
        exact inserted_place hplace hfind

theorem outcome_applyLink (link : String) (placement : LinkPlacement) (lines : List String) :
    Outcome (insertLink link placement) (.substring link) lines (applyLink link placement lines) := by
  unfold applyLink
  rw [containsAny_singleton]
  split_ifs with hmarker
  · exact .inPlace hmarker
  · rw [Bool.not_eq_true] at hmarker
    cases hfind : (linkAnchor placement).find? lines with
    | none =>
      refine .skipped hmarker rfl ?_
      rw [Matcher.foundIn_eq_false_iff]
      exact Anchor.find?_eq_none_iff.1 hfind
    | some index =>
      have hlt := Anchor.find?_lt hfind
      have hanchor : ∀ anchor, (insertLink link placement).anchor? = some anchor →
          anchor.foundIn lines = true := by
        intro anchor h
        obtain rfl := Option.some.inj h
        exact foundIn_of_find? hfind
      cases placement with
      | beforeClosingHead =>
        have hindent : IsIndent lines "    ".toList (insertLink link .beforeClosingHead) := by
          intro c hc
          obtain rfl : c = ' ' := by simpa using hc
          exact ⟨by decide, .inl rfl⟩
        refine .rewritten hmarker hanchor hindent ?_
        rw [placeLink, text, String.ofList_append, String.ofList_toList, String.ofList_toList]
        exact inserted_insertIdx _ hlt.le
      | afterLastLink =>
        have hline : lines.getD index "" ∈ lines := by
          rw [List.getD_eq_getElem _ _ hlt]
          exact List.getElem_mem hlt
        have hindent : IsIndent lines (Text.indent (lines.getD index "").toList)
            (insertLink link .afterLastLink) := by
          intro c hc
          have hmem := (List.takeWhile_prefix _).mem hc
          exact ⟨List.mem_takeWhile_imp hc, .inr ⟨_, hline, hmem⟩⟩
        refine .rewritten hmarker hanchor hindent ?_
        have := inserted_insertIdx (String.ofList (Text.indent (lines.getD index "").toList) ++ link)
          (show index + 1 ≤ lines.length by omega)
        rwa [placeLink, String.ofList_append, String.ofList_toList]

/-- **What an edit that puts a line in can come to.** -/
theorem apply_cases {edit : LineEdit} {marker : Matcher} (h : edit.marker? = some marker)
    (lines : List String) : Outcome edit marker lines (edit.apply lines) := by
  unfold marker? at h
  split at h
  · obtain rfl := Option.some.inj h
    exact outcome_applyLine lines (by decide) rfl rfl rfl
  · cases h
  · next hplace =>
    obtain rfl := Option.some.inj h
    exact outcome_applyLine lines hplace rfl rfl rfl
  · next text marker' =>
    obtain rfl := Option.some.inj h
    rw [apply, applyPrepend]
    split_ifs with hmarker
    · exact .inPlace hmarker
    · rw [Bool.not_eq_true] at hmarker
      have hputs : Inserted (String.ofList ([] ++ text.toList)) lines (text :: lines) := by
        rw [List.nil_append, String.ofList_toList]
        exact .intro [] lines
      exact .rewritten hmarker (fun anchor h => by cases h) rfl hputs
  · next link placement =>
    obtain rfl := Option.some.inj h
    exact outcome_applyLink link placement lines
  · cases h

end LineEdit

end ProjectSetup
