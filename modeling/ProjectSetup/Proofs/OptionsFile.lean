import Mathlib.Data.List.Nodup
import ProjectSetup.Proofs.CommandWords
import ProjectSetup.Proofs.Json.Record

/-!
# Options from flags and from a file

Options are given by flags on the command line, or by a file that holds them as JSON.  A file of
printed options reads back as those options, whatever the spaces in it, and a command line that
names the file runs as one that spells the options, whatever flags it has beside.

* `Options.parse_of_tokens`: printed options read back as themselves.
* `CommandLine.gather_options`: flags come to the options that they spell.
* `CommandLine.setUp_gather_congr`: what else a command line comes to.
* `CommandLine.run_eq_of_optionsFile`: the two ways to give options have the same ending.
-/

namespace ProjectSetup

open Json (Value Fills Reads Written RecordField lexemes)
open Json.Written (ofValue ofItems ofMembers)

/-! ### Options in a file -/

namespace Options

theorem forall₂_reads_strings (strings : List String) :
    List.Forall₂ (Reads Json.readText) (ofItems (strings.map Value.string)) strings := by
  induction strings with
  | nil => exact .nil
  | cons string strings ih => exact .cons (Json.readText_reads string) ih

theorem fields_nodup : (fields.map RecordField.name).Nodup := by decide

theorem fills_field {α : Type} {reader : Json.Reader α} {w : Written} {value : α} {name : String}
    {set : Options → α → Options} {others : List (RecordField Options)}
    {ws : List (List Char × Written)} {before after : Options} (h : Reads reader w value)
    (hothers : Fills others ws (set before value) after) :
    Fills (field name reader set :: others) ((name.toList.flatMap Json.escaped, w) :: ws) before
      after :=
  .take (Json.decode?_escaped name) (h.map (set before)) hothers

/-- The members of printed options fill the fields; those that are left out stay empty. -/
theorem fills_of_toJson {options : Options} {members : List (String × Value)}
    (h : options.toJson = .object members) : Fills fields (ofMembers members) {} options := by
  obtain ⟨typescript, polyfill, aLaCarte, replaceComponents, preset, fonts, storybook⟩ := options
  obtain rfl := Value.object.inj h
  have hlast := Json.readBool_reads storybook
  have hfonts := Json.readList_reads (forall₂_reads_strings fonts)
  refine fills_field (Json.readBool_reads typescript) <|
    fills_field (Json.readBool_reads polyfill) <| fills_field (Json.readBool_reads aLaCarte) <|
    fills_field (Json.readBool_reads replaceComponents) ?_
  rcases preset with _ | name <;> rcases fonts with _ | ⟨font, fonts⟩
  · exact .skip (.skip (fills_field hlast (.nil _)))
  · exact .skip (fills_field hfonts (fills_field hlast (.nil _)))
  · exact fills_field (Json.readText_reads name).readOptional (.skip (fills_field hlast (.nil _)))
  · exact fills_field (Json.readText_reads name).readOptional
      (fills_field hfonts (fills_field hlast (.nil _)))

/-- **Printed options read back as themselves**, whatever the spaces between the tokens. -/
theorem parse_of_tokens {options : Options} {text : String}
    (h : lexemes text.toList = lexemes options.toJson.compact.toList) :
    Options.parse text = .ok options := by
  rw [Json.lexemes_compact] at h
  exact Json.readWhole_of_reads (Json.readRecord_of_fills fields_nodup (fills_of_toJson rfl)) h

theorem parse_compact (options : Options) :
    Options.parse options.toJson.compact = .ok options :=
  parse_of_tokens rfl

theorem parse_pretty (options : Options) : Options.parse options.toJson.pretty = .ok options :=
  parse_of_tokens (Json.lexemes_pretty options.toJson)

end Options

/-! ### Options in flags -/

namespace CommandLine

/-- The options of the setup that a switch turns on. -/
def turnsOn (options : Options) : Switch → Bool
  | .typescript => options.typescript
  | .polyfill => options.polyfill
  | .aLaCarte => options.aLaCarte
  | .replaceComponents => options.replaceComponents
  | .storybook => options.storybook
  | .patchOnly => false

/-- The flags that spell options: a switch for each one that is on, the preset if there is one,
and the fonts in their order. -/
def flags (options : Options) : List Piece :=
  (([.typescript, .polyfill, .aLaCarte, .replaceComponents, .storybook] : List Switch).filter
      (turnsOn options)).map .switch ++
    options.preset.toList.map (.setting .preset) ++ options.fonts.map (.setting .font)

/-- The piece is a flag for an option of the setup. -/
def Piece.IsFlag : Piece → Prop
  | .project _ => False
  | .switch given => given ≠ .patchOnly
  | .setting given _ => given ≠ .options

/-- The piece says where to run, or which part. -/
def Piece.IsCommon : Piece → Prop
  | .project _ => True
  | .switch given => given = .patchOnly
  | .setting _ _ => False

variable {options : Options} {pieces common : List Piece} {piece other : Piece}

theorem isFlag_of_mem_flags (h : piece ∈ flags options) : piece.IsFlag := by
  simp only [flags, List.mem_append, List.mem_map, List.mem_filter] at h
  rcases h with (⟨given, ⟨-, hon⟩, rfl⟩ | ⟨name, -, rfl⟩) | ⟨font, -, rfl⟩
  · rintro rfl
    cases hon
  · exact Setting.noConfusion
  · exact Setting.noConfusion

theorem slot?_ne_of_isFlag (hpiece : piece.IsFlag) (hother : other.IsCommon) {slot : Slot}
    (hslot : piece.slot? = some slot) : other.slot? ≠ some slot := by
  rintro hslot'
  rcases other with path | given | ⟨given, value⟩
  · obtain rfl : Slot.project = slot := by simpa [Piece.slot?] using hslot'
    obtain ⟨path, rfl⟩ := slot?_eq_project_iff.1 hslot
    exact hpiece
  · obtain rfl : Slot.switch given = slot := by simpa [Piece.slot?] using hslot'
    obtain rfl := slot?_eq_switch_iff.1 hslot
    exact hpiece hother
  · exact hother

theorem legal_flags (options : Options) : Legal (flags options) := by
  refine ⟨?_, fun hmem => isFlag_of_mem_flags hmem rfl⟩
  have hslots : (flags options).filterMap Piece.slot? =
      (([.typescript, .polyfill, .aLaCarte, .replaceComponents, .storybook] : List Switch).filter
        (turnsOn options)).map .switch ++ options.preset.toList.map fun _ => .setting .preset := by
    simp [flags, List.filterMap_append, List.filterMap_map, Function.comp_def, Piece.slot?]
  rw [hslots, List.nodup_append]
  refine ⟨?_, ?_, ?_⟩
  · have hnodup : ([.typescript, .polyfill, .aLaCarte, .replaceComponents, .storybook] :
        List Switch).Nodup := by decide
    exact (hnodup.filter _).map fun a b h => Slot.switch.inj h
  · cases options.preset <;> simp
  · rintro slot hslot other hother rfl
    obtain ⟨given, -, rfl⟩ := List.mem_map.1 hslot
    obtain ⟨name, -, hname⟩ := List.mem_map.1 hother
    cases hname

theorem legal_append (h : Legal pieces) (hflags : ∀ piece ∈ pieces, piece.IsFlag)
    (hcommon : ∀ piece ∈ common, piece.IsCommon) (honce : (common.filterMap Piece.slot?).Nodup) :
    Legal (pieces ++ common) := by
  constructor
  · rw [List.filterMap_append, List.nodup_append]
    refine ⟨h.once, honce, ?_⟩
    rintro slot hslot other hother rfl
    obtain ⟨piece, hpiece, hslot⟩ := List.mem_filterMap.1 hslot
    obtain ⟨other, hother, hslot'⟩ := List.mem_filterMap.1 hother
    exact slot?_ne_of_isFlag (hflags piece hpiece) (hcommon other hother) hslot hslot'
  · intro hmem
    rcases List.mem_append.1 hmem with hmem | hmem
    · exact h.named hmem
    · exact hcommon _ hmem

theorem switch_mem_flags_iff {given : Switch} :
    .switch given ∈ flags options ↔ turnsOn options given = true := by
  simp only [flags, List.mem_append, List.mem_map, List.mem_filter]
  cases given <;> simp [turnsOn]

theorem preset_mem_flags_iff {name : String} :
    .setting .preset name ∈ flags options ↔ options.preset = some name := by
  simp [flags]

theorem Piece.IsCommon.not_isFlag (h : piece.IsCommon) : ¬piece.IsFlag := by
  rcases piece with path | given | ⟨given, value⟩
  · exact id
  · exact fun hflag => hflag h
  · exact h.elim

theorem mem_iff_of_perm {front : List Piece} (hpieces : pieces.Perm (front ++ common))
    {kind : Piece → Prop} (hother : ∀ piece ∈ common, ¬kind piece) (hkind : kind piece) :
    piece ∈ pieces ↔ piece ∈ front := by
  rw [hpieces.mem_iff, List.mem_append]
  exact or_iff_left fun hmem => hother piece hmem hkind

/-- **Flags come to the options that they spell**, in whatever order they are given. -/
theorem gather_options (hpieces : pieces.Perm (flags options ++ common)) (hlegal : Legal pieces)
    (hfonts : pieces.filterMap (Piece.value? .font) = options.fonts)
    (hcommon : ∀ piece ∈ common, piece.IsCommon) : (gather pieces).options = options := by
  have hflag : ∀ piece : Piece, piece.IsFlag → (piece ∈ pieces ↔ piece ∈ flags options) :=
    fun piece => mem_iff_of_perm hpieces fun piece hmem => (hcommon piece hmem).not_isFlag
  have hswitch : ∀ given ≠ Switch.patchOnly,
      (gather pieces).switches.contains given = turnsOn options given := by
    intro given hgiven
    rw [Bool.eq_iff_iff, gather_switches_contains_iff, hflag (.switch given) hgiven,
      switch_mem_flags_iff]
  have hpreset : (gather pieces).preset = options.preset := by
    refine Option.ext fun name => ?_
    rw [← preset_mem_flags_iff, ← hflag (.setting .preset name) Setting.noConfusion]
    exact findSome?_value?_eq_some_iff hlegal (by decide)
  rw [Arguments.options, hpreset, hswitch _ (by decide), hswitch _ (by decide),
    hswitch _ (by decide), hswitch _ (by decide), hswitch _ (by decide)]
  exact congrArg (fun fonts => { options with fonts := fonts }) hfonts

/-- Flags alone are loaded as the options that they spell, without a look at the tree. -/
theorem loadOptions_of_flags (hpieces : pieces.Perm (flags options ++ common))
    (hlegal : Legal pieces) (hfonts : pieces.filterMap (Piece.value? .font) = options.fonts)
    (hcommon : ∀ piece ∈ common, piece.IsCommon) (session : Session) (tree : Tree) :
    loadOptions session (gather pieces) tree = .ok options := by
  have hnone : (gather pieces).optionsFile = none := by
    refine Option.eq_none_iff_forall_ne_some.2 fun file hfile => ?_
    have hmem := (findSome?_value?_eq_some_iff hlegal (by decide)).1 hfile
    rcases List.mem_append.1 (hpieces.mem_iff.1 hmem) with hmem | hmem
    · exact isFlag_of_mem_flags hmem rfl
    · exact hcommon _ hmem
  rw [loadOptions, hnone, gather_options hpieces hlegal hfonts hcommon]

variable {session : Session} {tree : Tree} {file text : String} {pieces' extra : List Piece}

/-- A file of printed options is loaded, whatever else stands on the command line. -/
theorem loadOptions_of_file (hlegal : Legal pieces) (hmem : .setting .options file ∈ pieces)
    (hfile : tree.readText? (.ofPath session.current file) = .ok (some text))
    (htext : lexemes text.toList = lexemes options.toJson.compact.toList) :
    loadOptions session (gather pieces) tree = .ok options := by
  have hsome : (gather pieces).optionsFile = some file :=
    (findSome?_value?_eq_some_iff hlegal (by decide)).2 hmem
  rw [loadOptions, hsome]
  simp [Tree.readOptions, hfile, Options.parse_of_tokens htext, Except.mapError, bind, Except.bind]

/-- What a command line comes to is settled by the options that it loads and by what is common to
it and others. -/
theorem setUp_gather_congr (hlegal : Legal pieces) (hlegal' : Legal pieces')
    (hcommon : ∀ piece : Piece, piece.IsCommon → (piece ∈ pieces ↔ piece ∈ pieces'))
    (hload : loadOptions session (gather pieces) tree = loadOptions session (gather pieces') tree) :
    setUp session (gather pieces) tree = setUp session (gather pieces') tree := by
  have hproject : (gather pieces).project = (gather pieces').project := by
    refine Option.ext fun path => ?_
    rw [gather_project_eq_some_iff hlegal, gather_project_eq_some_iff hlegal',
      hcommon (.project path) trivial]
  have hpatch : (gather pieces).switches.contains .patchOnly =
      (gather pieces').switches.contains .patchOnly := by
    rw [Bool.eq_iff_iff, gather_switches_contains_iff, gather_switches_contains_iff,
      hcommon (.switch .patchOnly) rfl]
  rw [setUp, setUp, Session.project, Session.project, hproject, hpatch, hload]

/-- **A file of options and the flags that spell them come to the same**: the command line with
the flags and the one with the file, each in any order and with the same project directory and
`--patch-only` or without, are both read, load the same options and have the same ending,
whatever flags stand beside the file. -/
theorem run_eq_of_optionsFile {words words' : List String} (hwords : Spells words pieces)
    (hpieces : pieces.Perm (flags options ++ common))
    (hfonts : pieces.filterMap (Piece.value? .font) = options.fonts)
    (hwords' : Spells words' pieces')
    (hpieces' : pieces'.Perm (.setting .options file :: extra ++ common)) (hlegal' : Legal pieces')
    (hextra : ∀ piece ∈ extra, piece.IsFlag) (hcommon : ∀ piece ∈ common, piece.IsCommon)
    (hfile : tree.readText? (.ofPath session.current file) = .ok (some text))
    (htext : lexemes text.toList = lexemes options.toJson.compact.toList) :
    ∃ arguments arguments', parse? words = some (.setUp arguments) ∧
      parse? words' = some (.setUp arguments') ∧
      loadOptions session arguments tree = .ok options ∧
      loadOptions session arguments' tree = .ok options ∧
      run session words tree = run session words' tree := by
  have honce : (common.filterMap Piece.slot?).Nodup := by
    have h := (hlegal'.perm hpieces'.symm).once
    rw [List.filterMap_append] at h
    exact (List.nodup_append.1 h).2.1
  have hlegal : Legal pieces :=
    (legal_append (legal_flags options) (fun _ => isFlag_of_mem_flags) hcommon honce).perm hpieces
  have hload := loadOptions_of_flags hpieces hlegal hfonts hcommon session tree
  have hload' := loadOptions_of_file hlegal' (hpieces'.mem_iff.2 List.mem_cons_self) hfile htext
  have hparse := parse?_eq_setUp_iff.2 ⟨pieces, hwords, hlegal, rfl⟩
  have hparse' := parse?_eq_setUp_iff.2 ⟨pieces', hwords', hlegal', rfl⟩
  refine ⟨_, _, hparse, hparse', hload, hload', ?_⟩
  have hfront : ∀ piece ∈ flags options, ¬piece.IsCommon :=
    fun piece hmem h => h.not_isFlag (isFlag_of_mem_flags hmem)
  have hfront' : ∀ piece ∈ Piece.setting .options file :: extra, ¬piece.IsCommon := by
    intro piece hmem h
    rcases List.mem_cons.1 hmem with rfl | hmem
    · exact h
    · exact h.not_isFlag (hextra piece hmem)
  have hsame : ∀ piece : Piece, piece.IsCommon → (piece ∈ pieces ↔ piece ∈ pieces') := by
    intro piece hpiece
    rw [mem_iff_of_perm (hpieces.trans List.perm_append_comm) hfront hpiece,
      mem_iff_of_perm (hpieces'.trans List.perm_append_comm) hfront' hpiece]
  rw [run, run, hparse, hparse']
  exact setUp_gather_congr hlegal hlegal' hsame (hload.trans hload'.symm)

/-- Options with an empty preset, and with fonts that hold a quote and look like an option. -/
def oddOptions : Options where
  typescript := true
  preset := some ""
  fonts := ["\x22", "--", "\n"]

/-- A directory with a file that holds the odd options. -/
def oddTree : Tree :=
  .directory [("o.json", .file (.text oddOptions.toJson.compact))]

theorem run_eq_of_optionsFile_odd :
    ∃ arguments arguments',
      parse? ["--font=\x22", "--patch-only", "--font=--", "--typescript", "--font=\n", "--preset="] =
        some (.setUp arguments) ∧
      parse? ["--options", "o.json", "--polyfill", "--font=Lato", "--patch-only"] =
        some (.setUp arguments') ∧
      loadOptions ⟨⟨"~", []⟩, []⟩ arguments oddTree = .ok oddOptions ∧
      loadOptions ⟨⟨"~", []⟩, []⟩ arguments' oddTree = .ok oddOptions ∧
      run ⟨⟨"~", []⟩, []⟩
          ["--font=\x22", "--patch-only", "--font=--", "--typescript", "--font=\n", "--preset="]
          oddTree =
        run ⟨⟨"~", []⟩, []⟩ ["--options", "o.json", "--polyfill", "--font=Lato", "--patch-only"]
          oddTree := by
  have hwords : Spells
      ["--font=\x22", "--patch-only", "--font=--", "--typescript", "--font=\n", "--preset="]
      [.setting .font "\x22", .switch .patchOnly, .setting .font "--", .switch .typescript,
        .setting .font "\n", .setting .preset ""] := by
    have h : [Piece.setting .font "\x22", .switch .patchOnly, .setting .font "--",
        .switch .typescript, .setting .font "\n", .setting .preset ""].map Piece.word =
        ["--font=\x22", "--patch-only", "--font=--", "--typescript", "--font=\n", "--preset="] := by
      decide
    rw [← h]
    exact spells_map_word (by simp)
  have hwords' : Spells ["--options", "o.json", "--polyfill", "--font=Lato", "--patch-only"]
      [.setting .options "o.json", .switch .polyfill, .setting .font "Lato",
        .switch .patchOnly] := by
    have h : ("--" ++ Setting.options.name) :: "o.json" ::
        [Piece.switch .polyfill, .setting .font "Lato", .switch .patchOnly].map Piece.word =
        ["--options", "o.json", "--polyfill", "--font=Lato", "--patch-only"] := by
      decide
    rw [← h]
    exact .apart .options (by decide) (spells_map_word (by simp))
  exact @run_eq_of_optionsFile oddOptions _ [.switch .patchOnly] ⟨⟨"~", []⟩, []⟩ oddTree "o.json" _ _
    [.switch .polyfill, .setting .font "Lato"] _ _ hwords (by decide) (by decide) hwords'
    (by decide) ⟨by decide, by decide⟩ (by simp [Piece.IsFlag]) (by simp [Piece.IsCommon]) rfl rfl

end CommandLine

end ProjectSetup
