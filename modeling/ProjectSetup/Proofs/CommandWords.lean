import Mathlib.Data.List.Pairwise
import Mathlib.Data.List.TakeWhile
import ProjectSetup.CommandLine

/-!
# What a command line says

A command line says one thing after the other: a project directory, a switch, or a setting with
its value, which stands behind an equals sign or in a word of its own; behind `--` every word is a
project directory.  Each thing is said at most once, but for fonts.

* `read?_of_spells`: the words are read piece by piece.
* `spells_of_read?`: a command line that is read spells pieces.
* `foldlM_add?_gather_eq_some_iff`: when pieces can stand together, and what they come to.
* `parse?_eq_setUp_iff`: what a command line asks for, as it is spelled.
-/

namespace ProjectSetup.CommandLine

/-- The name of a switch. -/
def Switch.name : Switch → String
  | .typescript => "typescript"
  | .polyfill => "polyfill"
  | .aLaCarte => "a-la-carte"
  | .replaceComponents => "replace-components"
  | .storybook => "storybook"
  | .patchOnly => "patch-only"

/-- The name of a setting. -/
def Setting.name : Setting → String
  | .options => "options"
  | .preset => "preset"
  | .font => "font"

/-- What one part of a command line says. -/
inductive Piece where
  | project (path : String)
  | switch (switch : Switch)
  | setting (setting : Setting) (value : String)
deriving Repr, DecidableEq

/-- The words say the pieces. -/
inductive Spells : List String → List Piece → Prop
  | nil : Spells [] []
  | project {path : String} {words : List String} {pieces : List Piece} :
      looksLikeOption path = false → Spells words pieces →
      Spells (path :: words) (.project path :: pieces)
  | switch (switch : Switch) {words : List String} {pieces : List Piece} :
      Spells words pieces → Spells (("--" ++ switch.name) :: words) (.switch switch :: pieces)
  | joined (setting : Setting) (value : String) {words : List String} {pieces : List Piece} :
      Spells words pieces →
      Spells (("--" ++ setting.name ++ "=" ++ value) :: words) (.setting setting value :: pieces)
  | apart (setting : Setting) {value : String} {words : List String} {pieces : List Piece} :
      looksLikeOption value = false → Spells words pieces →
      Spells (("--" ++ setting.name) :: value :: words) (.setting setting value :: pieces)
  | behind (paths : List String) : Spells ("--" :: paths) (paths.map .project)

/-- The arguments with what a piece says. -/
def Piece.add? (arguments : Arguments) : Piece → Option Arguments
  | .project path => setProject? path arguments
  | .switch given => turnOn? given arguments
  | .setting given value => set? given value arguments

variable {arguments result : Arguments} {words : List String} {pieces : List Piece}

/-! ### The names of options -/

/-- The name of an option, without the dashes. -/
def Name.text : Name → String
  | .version => "version"
  | .switch given => given.name
  | .setting given => given.name

theorem name?_eq_some_iff {name : List Char} {option : Name} :
    name? name = some option ↔ name = option.text.toList := by
  constructor
  · intro h
    obtain ⟨before, after, hoptions, -⟩ := List.lookup_eq_some_iff.1 h
    have hnames : ∀ entry ∈ before ++ (String.ofList name, option) :: after,
        entry.1 = entry.2.text := by
      rw [← hoptions]
      decide
    have htext := hnames _ (List.mem_append_right _ List.mem_cons_self)
    rw [← htext, String.toList_ofList]
  · rintro rfl
    rcases option with _ | given | given
    · decide
    · cases given <;> decide
    · cases given <;> decide

theorem text_ne_nil (option : Name) : option.text.toList ≠ [] := by
  rcases option with _ | given | given
  · decide
  · cases given <;> decide
  · cases given <;> decide

theorem ne_equals_of_mem_text (option : Name) :
    ∀ c ∈ option.text.toList, (c != '=') = true := by
  refine List.all_eq_true.1 ?_
  rcases option with _ | given | given
  · decide
  · cases given <;> decide
  · cases given <;> decide

/-- The name of an option ends where the text ends. -/
theorem cut_text (option : Name) :
    option.text.toList.takeWhile (· != '=') = option.text.toList ∧
      option.text.toList.dropWhile (· != '=') = [] :=
  ⟨List.takeWhile_eq_self_iff.2 (ne_equals_of_mem_text option),
    List.dropWhile_eq_nil_iff.2 (ne_equals_of_mem_text option)⟩

/-- The name of an option ends at the equals sign. -/
theorem cut_text_equals (option : Name) (value : List Char) :
    (option.text.toList ++ '=' :: value).takeWhile (· != '=') = option.text.toList ∧
      (option.text.toList ++ '=' :: value).dropWhile (· != '=') = '=' :: value := by
  rw [List.takeWhile_append_of_pos (ne_equals_of_mem_text option),
    List.dropWhile_append_of_pos (ne_equals_of_mem_text option)]
  simp

/-! ### Words and pieces -/

theorem read?_switch (given : Switch) :
    read? arguments (("--" ++ given.name) :: words) =
      (turnOn? given arguments).bind fun arguments => read? arguments words := by
  have hword : ("--" ++ given.name).toList = '-' :: '-' :: (Name.switch given).text.toList :=
    String.toList_append
  have hname := name?_eq_some_iff.2 (Eq.refl (Name.switch given).text.toList)
  obtain ⟨htake, hdrop⟩ := cut_text (.switch given)
  obtain ⟨c, rest, hlong⟩ := List.exists_cons_of_ne_nil (text_ne_nil (.switch given))
  rw [hlong] at hword hname htake hdrop
  simp only [read?, hword, htake, hdrop, hname]
  rfl

theorem read?_joined (given : Setting) (value : String) :
    read? arguments (("--" ++ given.name ++ "=" ++ value) :: words) =
      (set? given value arguments).bind fun arguments => read? arguments words := by
  have hword : ("--" ++ given.name ++ "=" ++ value).toList =
      '-' :: '-' :: ((Name.setting given).text.toList ++ '=' :: value.toList) := by
    rw [String.toList_append, String.toList_append, String.toList_append, List.append_assoc]
    rfl
  have hname := name?_eq_some_iff.2 (Eq.refl (Name.setting given).text.toList)
  obtain ⟨htake, hdrop⟩ := cut_text_equals (.setting given) value.toList
  obtain ⟨c, rest, hlong⟩ := List.exists_cons_of_ne_nil (text_ne_nil (.setting given))
  rw [hlong] at hword hname htake hdrop
  simp only [List.cons_append] at hword htake hdrop
  simp only [read?, hword, htake, hdrop, hname, String.ofList_toList]
  rfl

theorem read?_apart (given : Setting) {value : String} (h : looksLikeOption value = false) :
    read? arguments (("--" ++ given.name) :: value :: words) =
      (set? given value arguments).bind fun arguments => read? arguments words := by
  have hword : ("--" ++ given.name).toList = '-' :: '-' :: (Name.setting given).text.toList :=
    String.toList_append
  have hname := name?_eq_some_iff.2 (Eq.refl (Name.setting given).text.toList)
  obtain ⟨htake, hdrop⟩ := cut_text (.setting given)
  obtain ⟨c, rest, hlong⟩ := List.exists_cons_of_ne_nil (text_ne_nil (.setting given))
  rw [hlong] at hword hname htake hdrop
  simp only [read?, hword, htake, hdrop, hname, h]
  rfl

theorem looksLikeOption_eq_false_iff {word : String} :
    looksLikeOption word = false ↔ ∀ c rest, word.toList ≠ '-' :: c :: rest := by
  rw [looksLikeOption]
  constructor
  · intro h c rest hword
    rw [hword] at h
    cases h
  · intro h
    split
    next c rest hword => exact absurd hword (h c rest)
    · rfl

theorem read?_project {path : String} (h : looksLikeOption path = false) :
    read? arguments (path :: words) =
      (setProject? path arguments).bind fun arguments => read? arguments words := by
  have hpath := looksLikeOption_eq_false_iff.1 h
  rw [read?.eq_def]
  dsimp only
  split
  next hword => exact absurd hword (hpath _ _)
  next hword => exact absurd hword (hpath _ _)
  next hword => exact absurd hword (hpath _ _)
  next hword => exact absurd hword (hpath _ _)
  · rfl

theorem readPlain?_eq (paths : List String) :
    readPlain? arguments paths =
      ((paths.map Piece.project).foldlM Piece.add? arguments).map .setUp := by
  rw [readPlain?, List.foldlM_map]
  rfl

/-- **The words are read piece by piece.** -/
theorem read?_of_spells (h : Spells words pieces) :
    ∀ arguments, read? arguments words = (pieces.foldlM Piece.add? arguments).map .setUp := by
  induction h with
  | nil => exact fun arguments => rfl
  | behind paths =>
    intro arguments
    rw [← readPlain?_eq]
    rfl
  | project hpath _ ih =>
    intro arguments
    rw [read?_project hpath, List.foldlM_cons, funext ih]
    exact Option.map_bind.symm
  | switch given _ ih =>
    intro arguments
    rw [read?_switch, List.foldlM_cons, funext ih]
    exact Option.map_bind.symm
  | joined given value _ ih =>
    intro arguments
    rw [read?_joined, List.foldlM_cons, funext ih]
    exact Option.map_bind.symm
  | «apart» given hvalue _ ih =>
    intro arguments
    rw [read?_apart given hvalue, List.foldlM_cons, funext ih]
    exact Option.map_bind.symm

section Cut

variable {word : String} {long : List Char} {option : Name}

/-- An option without a value is the two dashes and its name. -/
theorem word_eq_of_bare (hword : word.toList = '-' :: '-' :: long)
    (hname : name? (long.takeWhile (· != '=')) = some option)
    (hvalue : (match long.dropWhile (· != '=') with
      | _ :: value => some (String.ofList value)
      | [] => none) = none) : word = "--" ++ option.text := by
  have hlong := List.takeWhile_append_dropWhile (p := (· != '=')) (l := long)
  rw [name?_eq_some_iff.1 hname] at hlong
  cases hdrop : long.dropWhile (· != '=') with
  | cons c value =>
    rw [hdrop] at hvalue
    cases hvalue
  | nil =>
    rw [hdrop, List.append_nil] at hlong
    rw [← String.toList_inj, hword, ← hlong]
    simp

/-- The value of an option stands behind its name and an equals sign. -/
theorem word_eq_of_joined (hword : word.toList = '-' :: '-' :: long)
    (hname : name? (long.takeWhile (· != '=')) = some option) {given : String}
    (hvalue : (match long.dropWhile (· != '=') with
      | _ :: value => some (String.ofList value)
      | [] => none) = some given) : word = "--" ++ option.text ++ "=" ++ given := by
  have hlong := List.takeWhile_append_dropWhile (p := (· != '=')) (l := long)
  rw [name?_eq_some_iff.1 hname] at hlong
  cases hdrop : long.dropWhile (· != '=') with
  | nil =>
    rw [hdrop] at hvalue
    cases hvalue
  | cons c value =>
    rw [hdrop] at hvalue
    obtain rfl := Option.some.inj hvalue
    have hc : ¬(c != '=') = true := by
      have h := List.head_dropWhile_not (· != '=') (l := long) (by simp [hdrop])
      simpa [hdrop] using h
    obtain rfl : c = '=' := by simpa using hc
    rw [hdrop] at hlong
    rw [← String.toList_inj, hword, ← hlong]
    simp

end Cut

theorem exists_pieces_of_bind (piece : Piece)
    (h : (piece.add? arguments).bind (fun next => read? next words) = some (.setUp result))
    (ih : ∀ next, read? next words = some (.setUp result) →
      ∃ pieces, Spells words pieces ∧ pieces.foldlM Piece.add? next = some result) :
    ∃ pieces, Spells words pieces ∧ (piece :: pieces).foldlM Piece.add? arguments = some result := by
  obtain ⟨next, hnext, h⟩ := Option.bind_eq_some_iff.1 h
  obtain ⟨pieces, hspells, hpieces⟩ := ih next h
  exact ⟨pieces, hspells, by simp [hnext, hpieces]⟩

/-- **A command line that is read spells pieces**, and they come to what is read. -/
theorem spells_of_read? (h : read? arguments words = some (.setUp result)) :
    ∃ pieces, Spells words pieces ∧ pieces.foldlM Piece.add? arguments = some result := by
  fun_induction read? arguments words with
  | case1 arguments => exact ⟨[], .nil, by simpa using h⟩
  | case2 arguments word words hword =>
    obtain rfl : word = "--" := by
      rw [← String.toList_inj, hword]
      rfl
    rw [readPlain?_eq] at h
    exact ⟨words.map .project, .behind words, by simpa using h⟩
  | case4 arguments word long _ hword value? given words hvalue hname ih =>
    obtain ⟨pieces, hspells, hpieces⟩ := exists_pieces_of_bind (.switch given) h ih
    obtain rfl : word = "--" ++ given.name := word_eq_of_bare hword hname hvalue
    exact ⟨_, .switch given hspells, hpieces⟩
  | case5 arguments word long _ hword value? given value words hvalue hname ih =>
    obtain ⟨pieces, hspells, hpieces⟩ := exists_pieces_of_bind (.setting given value) h ih
    obtain rfl : word = "--" ++ given.name ++ "=" ++ value := word_eq_of_joined hword hname hvalue
    exact ⟨_, .joined given value hspells, hpieces⟩
  | case7 arguments word long _ hword value? given value words hvalue hname hplain ih =>
    obtain ⟨pieces, hspells, hpieces⟩ := exists_pieces_of_bind (.setting given value) h ih
    obtain rfl : word = "--" ++ given.name := word_eq_of_bare hword hname hvalue
    exact ⟨_, .apart given (by simpa using hplain) hspells, hpieces⟩
  | case11 arguments word words _ _ _ hword ih =>
    obtain ⟨pieces, hspells, hpieces⟩ := exists_pieces_of_bind (.project word) h ih
    have hplain : looksLikeOption word = false :=
      looksLikeOption_eq_false_iff.2 fun c rest hcons => hword c rest hcons
    exact ⟨_, .project hplain hspells, hpieces⟩
  -- the words are not well formed, or ask for the version
  | _ => cases h

/-- A piece as one word. -/
def Piece.word : Piece → String
  | .project path => path
  | .switch given => "--" ++ given.name
  | .setting given value => "--" ++ given.name ++ "=" ++ value

/-- Pieces are spelled by a word each, unless a project directory looks like an option. -/
theorem spells_map_word (h : ∀ path, .project path ∈ pieces → looksLikeOption path = false) :
    Spells (pieces.map Piece.word) pieces := by
  induction pieces with
  | nil => exact .nil
  | cons piece pieces ih =>
    have hpieces := ih fun path hpath => h path (List.mem_cons_of_mem _ hpath)
    cases piece with
    | project path => exact .project (h path List.mem_cons_self) hpieces
    | switch given => exact .switch given hpieces
    | setting given value => exact .joined given value hpieces

/-! ### What pieces come to -/

/-- What a command line says at most once. -/
inductive Slot where
  | project
  | switch (switch : Switch)
  | setting (setting : Setting)
deriving Repr, DecidableEq

/-- What a piece says that may not be said again, which is all but a font. -/
def Piece.slot? : Piece → Option Slot
  | .project _ => some .project
  | .switch given => some (.switch given)
  | .setting .font _ => none
  | .setting given _ => some (.setting given)

/-- The pieces can stand on one command line: nothing is said again, and a file has a name. -/
structure Legal (pieces : List Piece) : Prop where
  once : (pieces.filterMap Piece.slot?).Nodup
  named : Piece.setting .options "" ∉ pieces

/-- The project directory that a piece says. -/
def Piece.project? : Piece → Option String
  | .project path => some path
  | _ => none

/-- The switch that a piece turns on. -/
def Piece.switch? : Piece → Option Switch
  | .switch given => some given
  | _ => none

/-- The value that a piece gives to a setting. -/
def Piece.value? (wanted : Setting) : Piece → Option String
  | .setting given value => if given = wanted then some value else none
  | _ => none

/-- The arguments that pieces come to. -/
def gather (pieces : List Piece) : Arguments where
  project := pieces.findSome? Piece.project?
  switches := pieces.filterMap Piece.switch?
  optionsFile := pieces.findSome? (Piece.value? .options)
  preset := pieces.findSome? (Piece.value? .preset)
  fonts := pieces.filterMap (Piece.value? .font)

variable {before : List Piece} {piece : Piece} {next : Arguments}

theorem project?_eq_some_iff {path : String} :
    piece.project? = some path ↔ piece = .project path := by
  cases piece <;> simp [Piece.project?]

theorem switch?_eq_some_iff {given : Switch} :
    piece.switch? = some given ↔ piece = .switch given := by
  cases piece <;> simp [Piece.switch?]

theorem value?_eq_some_iff {wanted : Setting} {value : String} :
    piece.value? wanted = some value ↔ piece = .setting wanted value := by
  cases piece <;> simp [Piece.value?]

theorem slot?_eq_project_iff :
    piece.slot? = some .project ↔ ∃ path, piece = .project path := by
  rcases piece with path | given | ⟨_ | _ | _, value⟩ <;> simp [Piece.slot?]

theorem slot?_eq_switch_iff {given : Switch} :
    piece.slot? = some (.switch given) ↔ piece = .switch given := by
  rcases piece with path | given | ⟨_ | _ | _, value⟩ <;> simp [Piece.slot?]

theorem slot?_eq_setting_iff {wanted : Setting} (hwanted : wanted ≠ .font) :
    piece.slot? = some (.setting wanted) ↔ ∃ value, piece = .setting wanted value := by
  cases wanted <;> first | exact absurd rfl hwanted |
    rcases piece with path | given | ⟨_ | _ | _, value⟩ <;> simp [Piece.slot?]

theorem gather_project_isSome_iff :
    (gather before).project.isSome = true ↔ Slot.project ∈ before.filterMap Piece.slot? := by
  rw [gather, List.findSome?_isSome_iff]
  simp [Option.isSome_iff_exists, project?_eq_some_iff, slot?_eq_project_iff]

theorem mem_gather_switches_iff {given : Switch} :
    given ∈ (gather before).switches ↔ Slot.switch given ∈ before.filterMap Piece.slot? := by
  simp [gather, switch?_eq_some_iff, slot?_eq_switch_iff]

theorem findSome?_value?_isSome_iff {wanted : Setting} (hwanted : wanted ≠ .font) :
    (before.findSome? (Piece.value? wanted)).isSome = true ↔
      Slot.setting wanted ∈ before.filterMap Piece.slot? := by
  rw [List.findSome?_isSome_iff]
  simp [Option.isSome_iff_exists, value?_eq_some_iff, slot?_eq_setting_iff hwanted]

theorem legal_append_singleton_iff :
    Legal (before ++ [piece]) ↔
      Legal before ∧ (∀ slot ∈ piece.slot?, slot ∉ before.filterMap Piece.slot?) ∧
        piece ≠ .setting .options "" := by
  have honce : ((before ++ [piece]).filterMap Piece.slot?).Nodup ↔
      (before.filterMap Piece.slot?).Nodup ∧
        ∀ slot ∈ piece.slot?, slot ∉ before.filterMap Piece.slot? := by
    rw [List.filterMap_append]
    cases hslot : piece.slot? with
    | none => simp [hslot]
    | some slot =>
      rw [List.filterMap_cons_some hslot, List.filterMap_nil,
        (List.perm_append_singleton slot _).nodup_iff, List.nodup_cons, and_comm]
      simp
  have hnamed : Piece.setting .options "" ∉ before ++ [piece] ↔
      Piece.setting .options "" ∉ before ∧ piece ≠ .setting .options "" := by
    rw [List.mem_append, List.mem_singleton, not_or, ne_comm]
  constructor
  · intro h
    obtain ⟨hbefore, hnew⟩ := honce.1 h.once
    obtain ⟨hfiles, hfile⟩ := hnamed.1 h.named
    exact ⟨⟨hbefore, hfiles⟩, hnew, hfile⟩
  · rintro ⟨⟨hbefore, hfiles⟩, hnew, hfile⟩
    exact ⟨honce.2 ⟨hbefore, hnew⟩, hnamed.2 ⟨hfiles, hfile⟩⟩

theorem legal_append_iff_of_slot {slot : Slot} (h : Legal before)
    (hslot : piece.slot? = some slot) (hfile : piece ≠ .setting .options "") :
    Legal (before ++ [piece]) ↔ slot ∉ before.filterMap Piece.slot? := by
  rw [legal_append_singleton_iff, hslot]
  simp only [Option.mem_some_iff, forall_eq', ne_eq, hfile, not_false_eq_true, and_true, h,
    true_and]

theorem ite_eq_some_iff_of_iff {taken legal : Prop} [Decidable taken] {added gathered : Arguments}
    (hlegal : legal ↔ ¬taken) (hadded : ¬taken → gathered = added) :
    (if taken then none else some added) = some next ↔ legal ∧ gathered = next := by
  by_cases h : taken
  · simp [h, hlegal]
  · simp [h, hlegal, hadded h]

theorem Legal.of_append (h : Legal (before ++ pieces)) : Legal before := by
  have honce := h.once
  rw [List.filterMap_append] at honce
  exact ⟨honce.sublist (List.sublist_append_left _ _),
    fun hmem => h.named (List.mem_append_left _ hmem)⟩

/-- A piece is added exactly if it can stand behind the pieces before it. -/
theorem add?_gather_eq_some_iff (h : Legal before) :
    Piece.add? (gather before) piece = some next ↔
      Legal (before ++ [piece]) ∧ gather (before ++ [piece]) = next := by
  rcases piece with path | given | ⟨_ | _ | _, value⟩
  · refine ite_eq_some_iff_of_iff ?_ fun htaken => ?_
    · rw [legal_append_iff_of_slot h rfl (by simp), gather_project_isSome_iff]
    · have hnone : before.findSome? Piece.project? = none := by simpa [gather] using htaken
      simp [gather, hnone, Piece.project?, Piece.switch?, Piece.value?]
  · refine ite_eq_some_iff_of_iff ?_ fun _ => ?_
    · rw [legal_append_iff_of_slot h rfl (by simp), List.contains_iff_mem, mem_gather_switches_iff]
    · simp [gather, Piece.project?, Piece.switch?, Piece.value?]
  · refine ite_eq_some_iff_of_iff ?_ fun htaken => ?_
    · by_cases hvalue : value = ""
      · subst hvalue
        simp [legal_append_singleton_iff]
      · rw [legal_append_iff_of_slot h rfl (by simpa using hvalue),
          ← findSome?_value?_isSome_iff (by decide)]
        simp [gather, hvalue]
    · have hnone : before.findSome? (Piece.value? .options) = none := by
        simp only [Bool.or_eq_true, not_or] at htaken
        simpa [gather] using htaken.2
      simp [gather, hnone, Piece.project?, Piece.switch?, Piece.value?]
  · refine ite_eq_some_iff_of_iff ?_ fun htaken => ?_
    · rw [legal_append_iff_of_slot h rfl (by simp), ← findSome?_value?_isSome_iff (by decide)]
      rfl
    · have hnone : before.findSome? (Piece.value? .preset) = none := by simpa [gather] using htaken
      simp [gather, hnone, Piece.project?, Piece.switch?, Piece.value?]
  · have hlegal : Legal (before ++ [.setting .font value]) := by
      simp [legal_append_singleton_iff, h, Piece.slot?]
    have hswitches : [Piece.setting .font value].filterMap Piece.switch? = [] := rfl
    simp [hlegal, Piece.add?, set?, gather, hswitches, Piece.project?, Piece.value?]

theorem foldlM_add?_gather_eq_some_iff :
    ∀ before : List Piece, Legal before →
      (pieces.foldlM Piece.add? (gather before) = some result ↔
        Legal (before ++ pieces) ∧ gather (before ++ pieces) = result) := by
  induction pieces with
  | nil => intro before h; simp [h]
  | cons piece pieces ih =>
    intro before h
    rw [List.foldlM_cons, List.append_cons]
    constructor
    · intro hfold
      obtain ⟨next, hnext, hfold⟩ := Option.bind_eq_some_iff.1 hfold
      obtain ⟨hlegal, rfl⟩ := (add?_gather_eq_some_iff h).1 hnext
      exact (ih _ hlegal).1 hfold
    · intro hpieces
      have hlegal : Legal (before ++ [piece]) := hpieces.1.of_append
      rw [(add?_gather_eq_some_iff h).2 ⟨hlegal, rfl⟩]
      exact (ih _ hlegal).2 hpieces

/-- **What a command line asks for**: the pieces that it spells can stand together, and the
arguments are what they come to. -/
theorem parse?_eq_setUp_iff :
    parse? words = some (.setUp result) ↔
      ∃ pieces, Spells words pieces ∧ Legal pieces ∧ gather pieces = result := by
  have hfold : ∀ pieces : List Piece,
      pieces.foldlM Piece.add? {} = some result ↔ Legal pieces ∧ gather pieces = result :=
    fun pieces => foldlM_add?_gather_eq_some_iff [] ⟨List.nodup_nil, List.not_mem_nil⟩
  constructor
  · intro h
    obtain ⟨pieces, hspells, hpieces⟩ := spells_of_read? h
    exact ⟨pieces, hspells, (hfold pieces).1 hpieces⟩
  · rintro ⟨pieces, hspells, hpieces⟩
    rw [parse?, read?_of_spells hspells, (hfold pieces).2 hpieces]
    rfl

/-! ### Pieces in any order -/

theorem Legal.perm {others : List Piece} (h : Legal pieces) (hperm : others.Perm pieces) :
    Legal others :=
  ⟨(hperm.filterMap _).nodup_iff.2 h.once, fun hmem => h.named (hperm.mem_iff.1 hmem)⟩

/-- What is said once is said by one piece. -/
theorem Legal.eq_of_slot (h : Legal pieces) {other : Piece} {slot : Slot} (hpiece : piece ∈ pieces)
    (hother : other ∈ pieces) (hslot : piece.slot? = some slot)
    (hslot' : other.slot? = some slot) : piece = other := by
  by_contra hne
  have hapart : pieces.Pairwise fun a b => ¬(a.slot? = some slot ∧ b.slot? = some slot) :=
    (List.pairwise_filterMap.1 h.once).imp fun hab hslots => hab slot hslots.1 slot hslots.2 rfl
  have hsymm : Std.Symm fun a b : Piece => ¬(a.slot? = some slot ∧ b.slot? = some slot) :=
    ⟨fun _ _ hab hslots => hab ⟨hslots.2, hslots.1⟩⟩
  exact hapart.forall hpiece hother hne ⟨hslot, hslot'⟩

theorem gather_project_eq_some_iff (h : Legal pieces) {path : String} :
    (gather pieces).project = some path ↔ .project path ∈ pieces := by
  constructor
  · intro hproject
    obtain ⟨piece, hmem, hpiece⟩ := List.exists_of_findSome?_eq_some hproject
    rwa [← project?_eq_some_iff.1 hpiece]
  · intro hmem
    have hsome : (gather pieces).project.isSome = true :=
      gather_project_isSome_iff.2 (List.mem_filterMap.2 ⟨_, hmem, rfl⟩)
    obtain ⟨other, hproject⟩ := Option.isSome_iff_exists.1 hsome
    obtain ⟨piece, hother, hpiece⟩ := List.exists_of_findSome?_eq_some hproject
    obtain rfl := project?_eq_some_iff.1 hpiece
    obtain rfl : path = other := by simpa using h.eq_of_slot hmem hother rfl rfl
    exact hproject

theorem findSome?_value?_eq_some_iff (h : Legal pieces) {wanted : Setting}
    (hwanted : wanted ≠ .font) {value : String} :
    pieces.findSome? (Piece.value? wanted) = some value ↔ .setting wanted value ∈ pieces := by
  have hslot : ∀ value, (Piece.setting wanted value).slot? = some (.setting wanted) :=
    fun value => (slot?_eq_setting_iff hwanted).2 ⟨value, rfl⟩
  constructor
  · intro hvalue
    obtain ⟨piece, hmem, hpiece⟩ := List.exists_of_findSome?_eq_some hvalue
    rwa [← value?_eq_some_iff.1 hpiece]
  · intro hmem
    have hsome : (pieces.findSome? (Piece.value? wanted)).isSome = true :=
      (findSome?_value?_isSome_iff hwanted).2 (List.mem_filterMap.2 ⟨_, hmem, hslot value⟩)
    obtain ⟨other, hvalue⟩ := Option.isSome_iff_exists.1 hsome
    obtain ⟨piece, hother, hpiece⟩ := List.exists_of_findSome?_eq_some hvalue
    obtain rfl := value?_eq_some_iff.1 hpiece
    obtain rfl : value = other := by simpa using h.eq_of_slot hmem hother (hslot _) (hslot _)
    exact hvalue

theorem gather_switches_contains_iff {given : Switch} :
    (gather pieces).switches.contains given = true ↔ .switch given ∈ pieces := by
  simp [gather, switch?_eq_some_iff]

end ProjectSetup.CommandLine
