import ProjectSetup.Proofs.Missed
import ProjectSetup.Proofs.Setup

/-!
# Histories of a project

A project is set up again and again, or only its files are edited, each time with other options, and
some of these runs fail.  Imports, links and entries of the Babel configuration that one run puts in
are not put in a second time by any other: a tally of them never goes beyond one, or beyond what it
was in the beginning.

* `count_change`: how many entries an edit leaves with a tag.
* `count_of_rewritten`: what a step does to a tally.
* `tally_afterJobs`: a tally after any sequence of runs.
-/

namespace ProjectSetup

open Json (Value Members)

/-! ### Entries with a tag -/

namespace ConfigEdit

/-- How many entries have the tag. -/
def count (tag : String) (items : List Value) : Nat :=
  items.countP fun entry => entryTag? entry == some tag

variable {tag other : String} {items : List Value}

theorem count_eq_zero_iff : count tag items = 0 ↔ ¬ HasTag tag items := by
  simp [count, List.countP_eq_zero, HasTag]

theorem count_cons (entry : Value) :
    count tag (entry :: items) = count tag items + if entryTag? entry = some tag then 1 else 0 := by
  rw [count, List.countP_cons]
  simp [count]

theorem count_ensure (tag other : String) (items : List Value) :
    count tag (ensure items other) ≤ max 1 (count tag items) := by
  rcases ensure_eq items other with ⟨-, heq⟩ | ⟨hnot, heq⟩
  · rw [heq]
    exact le_max_right _ _
  · have hadd : count tag (ensure items other) =
        count tag items + if other = tag then 1 else 0 := by
      rw [heq, count, List.countP_append]
      simp [count, entryTag?, List.countP_cons]
    rw [hadd]
    split_ifs with htag
    · rw [htag, ← count_eq_zero_iff] at hnot
      rw [hnot]
      exact le_max_left _ _
    · exact le_max_right _ _

theorem count_foldl_ensure (tag : String) (tags : List String) (items : List Value) :
    count tag (tags.foldl ensure items) ≤ max 1 (count tag items) := by
  induction tags generalizing items with
  | nil => exact le_max_right _ _
  | cons first tags ih =>
    have hfirst := count_ensure tag first items
    have hrest := ih (ensure items first)
    rw [List.foldl_cons]
    omega

/-- Options are put to one entry, which keeps its tag, or make up the first one with the tag. -/
theorem count_upsert_cases (tag other : String) (options : Members) (items : List Value) :
    count tag (upsert other options items) = count tag items ∨
      (tag = other ∧ count tag items = 0 ∧ count tag (upsert other options items) = 1) := by
  induction items with
  | nil =>
    by_cases htag : tag = other
    · subst htag
      exact .inr ⟨rfl, rfl, by simp [upsert, count, taggedEntry, entryTag?, Value.string?]⟩
    · exact .inl (by
        simp [upsert, count, taggedEntry, entryTag?, Value.string?, Ne.symm htag])
  | cons entry rest ih =>
    rw [upsert]
    split_ifs with hentry
    · left
      rw [count_cons, count_cons, entryTag?_withOptions hentry, hentry]
    · rw [count_cons, count_cons]
      rcases ih with hsame | ⟨rfl, hnone, hone⟩
      · exact .inl (by rw [hsame])
      · rw [if_neg hentry]
        exact .inr ⟨rfl, hnone, hone⟩

/-- **How many entries an edit leaves with a tag.** -/
theorem count_change (edit : ConfigEdit) (tag : String) (items : List Value) :
    count tag (edit.change items) ≤ max 1 (count tag items) := by
  cases edit with
  | upsertTagged field other options missing =>
    rw [change_upsertTagged]
    rcases count_upsert_cases tag other options items with hsame | ⟨-, -, hone⟩
    · rw [hsame]
      exact le_max_right _ _
    · rw [hone]
      exact le_max_left _ _
  | ensureEntries field tags missing => exact count_foldl_ensure tag tags items

end ConfigEdit

/-! ### Tallies -/

/-- Something that is counted in a file. -/
structure Tally where
  file : String
  count : Option String → Nat

namespace Tally

/-- The lines of a file that a matcher accepts. -/
def linesWith (file : String) (matcher : Matcher) : Tally where
  file := file
  count text? := (linesOf text?).countP matcher.accepts

/-- The entries with a tag in a list of the Babel configuration, as far as that can be read. -/
def entriesWith (field tag : String) : Tally where
  file := Plan.babelConfig
  count text? :=
    match configOf text? with
    | .ok (.object members) =>
      match Members.get? field members with
      | some (.array items) => ConfigEdit.count tag items
      | _ => 0
    | _ => 0

/-- What is counted in the file of a project; nothing if it cannot be read. -/
def of (root : Place) (tree : Tree) (tally : Tally) : Nat :=
  match tree.textOf root tally.file with
  | .ok text? => tally.count text?
  | .error _ => 0

/-- What no run puts in twice. -/
inductive Unrepeated : Tally → Prop where
  | pluginImport {file : String} : file ∈ Plan.scripts →
    Unrepeated (linesWith file (.substring Plan.pluginImport))
  | polyfill {file : String} : file ∈ Plan.scripts →
    Unrepeated (linesWith file (.pattern Plan.polyfillMarker))
  | iconFont : Unrepeated (linesWith Plan.indexPage (.substring Plan.iconFontLink))
  | entries (field tag : String) : Unrepeated (entriesWith field tag)

theorem Unrepeated.file_mem {tally : Tally} (h : Unrepeated tally) :
    tally.file ∈ Plan.files ∧ tally.file ≠ Plan.pluginFile := by
  have hscripts : ∀ file ∈ Plan.scripts, file ∈ Plan.files ∧ file ≠ Plan.pluginFile := by decide
  cases h with
  | pluginImport hfile => exact hscripts _ hfile
  | polyfill hfile => exact hscripts _ hfile
  | iconFont => exact ⟨by decide, by decide⟩
  | entries =>
    show Plan.babelConfig ∈ Plan.files ∧ Plan.babelConfig ≠ Plan.pluginFile
    decide

end Tally

/-! ### What an edit does to a tally -/

variable {options : Options} {step : Step} {text? : Option String} {text : String}

/-- A line that is put in is either not counted, or not put in where one is. -/
theorem count_lines_of_rewritten {file : String} {edit : LineEdit} {marker other : Matcher}
    (h : edit.Lasting marker) (hsteady : other.Steady)
    (hline : other = marker ∨ ∀ indent, edit.IsIndent (linesOf text?) indent →
      other.accepts (String.ofList (indent ++ edit.text.toList)) = false)
    (hrew : (FileEdit.lines edit).onText text? = .rewritten text) :
    (Tally.linesWith file other).count (some text) ≤
      max 1 ((Tally.linesWith file other).count text?) := by
  obtain ⟨indent, new, hput⟩ := linePut_of_onText h hrew
  have hcount : (Tally.linesWith file other).count (some text) =
      (Tally.linesWith file other).count text? +
        if other.accepts (String.ofList (indent ++ edit.text.toList)) then 1 else 0 := by
    have hreload : other.accepts ∘ Text.reload = other.accepts := funext hsteady
    unfold Tally.linesWith
    dsimp only
    rw [hput.lines, List.countP_map, hreload]
    have hins := hput.inserted
    generalize linesOf text? = lines at hins
    obtain ⟨front, back⟩ := hins
    rw [List.countP_append, List.countP_append, List.countP_cons, Nat.add_assoc]
  rw [hcount]
  rcases hline with rfl | hnot
  · have hnone : (Tally.linesWith file other).count text? = 0 :=
      List.countP_eq_zero.2 fun line hmem => by
        rw [Matcher.foundIn_eq_false_iff.1 hput.notFound line hmem]
        exact Bool.false_ne_true
    rw [hnone]
    split_ifs <;> omega
  · rw [hnot indent hput.isIndent]
    exact le_max_right _ _

theorem count_entries_of_rewritten {edit : ConfigEdit} (field tag : String)
    (hsettling : edit.Settling) (hint : IntegralText text?)
    (hrew : (FileEdit.config edit).onText text? = .rewritten text) :
    (Tally.entriesWith field tag).count (some text) ≤
      max 1 ((Tally.entriesWith field tag).count text?) := by
  obtain ⟨members, items, hconfig, -, hlist, hnext, -⟩ := configOf_of_rewritten hsettling hint hrew
  unfold Tally.entriesWith
  dsimp only
  rw [hconfig, hnext]
  dsimp only
  rw [ConfigEdit.next, Members.get?_insert]
  split_ifs with hfield
  · subst hfield
    have hchange := edit.count_change tag items
    rcases hlist with hget | ⟨hget, -, rfl⟩
    · rw [hget]
      exact hchange
    · rw [hget]
      exact hchange
  · exact le_max_right _ _

/-- The link to the fonts has the icon font in it only if a font has a tag in it. -/
theorem not_infix_fontLink {fonts : List String} (h : ∀ font ∈ fonts, '<' ∉ font.toList) :
    ¬ Plan.iconFontLink.toList <:+: (Plan.fontLink fonts).toList := by
  have hfamilies := not_mem_fontFamilies (by decide) (by decide) h
  obtain ⟨rest, hrest⟩ : ∃ rest, (Plan.fontLink fonts).toList = '<' :: rest ∧ '<' ∉ rest := by
    refine ⟨Plan.fontFront.toList.tail ++ (("|".intercalate (fonts.map Plan.fontFamily)).toList ++
      "&display=swap\">".toList), ?_, ?_⟩
    · rw [toList_fontLink]
      rfl
    · rw [List.mem_append, List.mem_append, not_or, not_or]
      exact ⟨by decide, hfamilies, by decide⟩
  rintro ⟨front, back, heq⟩
  have hicon : "<link href".toList <+: Plan.iconFontLink.toList := by decide +kernel
  cases front with
  | nil =>
    -- the two links differ in their first attribute
    have hfront : "<link href".toList.length ≤ Plan.fontFront.toList.length := by decide
    have hlink : "<link href".toList <+: (Plan.fontLink fonts).toList := by
      rw [← heq, List.nil_append]
      exact hicon.trans (List.prefix_append _ _)
    have hshort := List.prefix_of_prefix_length_le hlink
      (by rw [toList_fontLink]; exact List.prefix_append _ _) hfront
    exact absurd hshort (by decide +kernel)
  | cons c front =>
    rw [hrest.1, List.cons_append, List.cons_append] at heq
    have hmem : '<' ∈ Plan.iconFontLink.toList := hicon.mem (by decide)
    rw [← (List.cons.inj heq).2, List.mem_append, List.mem_append, not_or, not_or] at hrest
    exact hrest.2.1.2 hmem

/-- The names of the fonts have neither line feeds nor tags in them. -/
structure Options.CleanFonts (options : Options) : Prop where
  noFeed : ∀ font ∈ options.fonts, '\n' ∉ font.toList
  noTag : ∀ font ∈ options.fonts, '<' ∉ font.toList

/-- **What a step does to a tally** in its file. -/
theorem count_of_rewritten {tally : Tally} (h : tally.Unrepeated) (hclean : options.CleanFonts)
    (hstep : step ∈ Plan.steps options) (hfile : step.file = tally.file)
    (hint : step.file = Plan.babelConfig → IntegralText text?)
    (hrew : step.edit.onText text? = .rewritten text) :
    tally.count (some text) ≤ max 1 (tally.count text?) := by
  cases h with
  | @pluginImport file hscript =>
    rcases script_step hstep (hfile ▸ hscript) with rfl | rfl
    · exact count_lines_of_rewritten lasting_importPlugin lasting_importPlugin.steady (.inl rfl) hrew
    · refine count_lines_of_rewritten lasting_importPolyfill lasting_importPlugin.steady
        (.inr fun indent hindent => ?_) hrew
      obtain rfl : indent = [] := hindent
      decide +kernel
  | @polyfill file hscript =>
    rcases script_step hstep (hfile ▸ hscript) with rfl | rfl
    · refine count_lines_of_rewritten lasting_importPlugin steady_polyfillMarker
        (.inr fun indent hindent => ?_) hrew
      obtain rfl : indent = [] := hindent
      decide +kernel
    · exact count_lines_of_rewritten lasting_importPolyfill steady_polyfillMarker (.inl rfl) hrew
  | iconFont =>
    rcases page_step hstep hfile with rfl | rfl
    · exact count_lines_of_rewritten lasting_linkIconFont lasting_linkIconFont.steady (.inl rfl) hrew
    · refine count_lines_of_rewritten (lasting_linkFonts hclean.noFeed) lasting_linkIconFont.steady
        (.inr fun indent hindent => ?_) hrew
      rw [← Bool.not_eq_true, Matcher.accepts, Text.occursIn_iff, String.toList_ofList]
      exact fun hin => not_infix_fontLink hclean.noTag
        (iconFontLink_infix_indent (fun c hc => (hindent c hc).1) hin)
  | entries field tag =>
    obtain ⟨edit, hedit, hkind⟩ := babel_step hstep hfile
    rw [hedit] at hrew
    exact count_entries_of_rewritten field tag (settling_of_isBabelEdit hkind) (hint hfile) hrew

/-! ### Runs -/

variable {root : Place} {tree tree' : Tree} {here : List String} {tally : Tally}

theorem tally_of_sightOf (h : tree'.sightOf root tally.file = tree.sightOf root tally.file) :
    tally.of root tree' = tally.of root tree := by
  rw [Tally.of, Tally.of, Tree.textOf_eq_of_sightOf h]

/-- **What a step does to a tally**, also if it fails. -/
theorem tally_run (h : tally.Unrepeated) (hclean : options.CleanFonts)
    (hstep : step ∈ Plan.steps options) (hproject : IsProject root here tree) :
    tally.of root (step.run root tree).1 ≤ max 1 (tally.of root tree) := by
  rcases textOf_run_cases hproject.leadsTo (file_mem_files hstep) h.file_mem.1 with
    ⟨hkept, -⟩ | ⟨hfile, old, new, hold, hrew, hnew⟩
  · rw [Tally.of, Tally.of, hkept]
    exact le_max_right _ _
  · rw [Tally.of, Tally.of, hold, hnew]
    exact count_of_rewritten h hclean hstep hfile
      (fun hbabel => integralText_of_isProject hproject hold (hfile.symm.trans hbabel)) hrew

/-- A project in which a tally has not gone beyond one, or beyond a bound. -/
structure Bounded (root : Place) (here : List String) (tally : Tally) (bound : Nat) (tree : Tree) :
    Prop extends IsProject root here tree where
  le : tally.of root tree ≤ max 1 bound

section

variable {bound : Nat} (h : tally.Unrepeated) (hbounded : Bounded root here tally bound tree)

include h hbounded

theorem bounded_run (hclean : options.CleanFonts) (hstep : step ∈ Plan.steps options) :
    Bounded root here tally bound (step.run root tree).1 where
  toIsProject := isProject_run hstep hbounded.toIsProject
  le := by
    have hgrow := tally_run h hclean hstep hbounded.toIsProject
    have hle := hbounded.le
    omega

/-- The manifest and the files that are made from templates have no part in a tally. -/
theorem bounded_of_sightOf (hproject : IsProject root here tree')
    (hsame : ∀ other ∈ Setup.allFiles, other ≠ "package.json" → other ∉ Setup.rendered →
      tree'.sightOf root other = tree.sightOf root other) :
    Bounded root here tally bound tree' where
  toIsProject := hproject
  le := by
    have hfree : ∀ file ∈ Plan.files, file ≠ Plan.pluginFile →
        file ≠ "package.json" ∧ file ∉ Setup.rendered := by decide
    have hmem := h.file_mem
    have hfree' := hfree _ hmem.1 hmem.2
    rw [tally_of_sightOf (hsame _ (mem_allFiles_of_mem_files hmem.1) hfree'.1 hfree'.2)]
    exact hbounded.le

end

/-- A run over a project: the whole setup, or its steps alone. -/
structure Job where
  options : Options
  whole : Bool

/-- The tree that a run leaves, which may have failed. -/
def Job.after (root : Place) (tree : Tree) (job : Job) : Tree :=
  if job.whole then (Setup.run root job.options tree).tree
  else (runPass root (Plan.steps job.options) tree).tree

/-- The tree after runs one after the other. -/
def afterJobs (root : Place) (tree : Tree) (jobs : List Job) : Tree :=
  jobs.foldl (Job.after root) tree

theorem bounded_job {bound : Nat} (h : tally.Unrepeated)
    (hbounded : Bounded root here tally bound tree) {job : Job} (hclean : job.options.CleanFonts) :
    Bounded root here tally bound (job.after root tree) := by
  have hsteps : ∀ step ∈ Plan.steps job.options, ∀ tree, Bounded root here tally bound tree →
      Bounded root here tally bound (step.run root tree).1 :=
    fun step hstep tree hbounded => bounded_run h hbounded hclean hstep
  rw [Job.after]
  split_ifs
  · refine invariant_setup job.options (fun tree hbounded => ?_) (fun tree hbounded => ?_) hsteps
      hbounded
    · have hproject := hbounded.toIsProject
      exact bounded_of_sightOf h hbounded (isProject_extendManifest _ hproject)
        fun other hother hne _ =>
          (frame_extendManifest (Plan.extension job.options) hproject.leadsTo).2 other hother hne
    · have hproject := hbounded.toIsProject
      exact bounded_of_sightOf h hbounded (isProject_renderFiles job.options hproject)
        fun other hother _ hnot =>
          (frame_renderFiles job.options hproject.leadsTo).2 other hother hnot
  · exact invariant_runSteps hsteps hbounded

/-- **A tally after any sequence of runs**, whatever their options are, and whether or not they
fail: it has not gone beyond one, or beyond what it was before. -/
theorem tally_afterJobs {jobs : List Job} (h : tally.Unrepeated)
    (hproject : IsProject root here tree) (hclean : ∀ job ∈ jobs, job.options.CleanFonts) :
    tally.of root (afterJobs root tree jobs) ≤ max 1 (tally.of root tree) := by
  have hbounded : Bounded root here tally (tally.of root tree) tree :=
    ⟨hproject, le_max_right _ _⟩
  generalize tally.of root tree = bound at hbounded ⊢
  induction jobs generalizing tree with
  | nil => exact hbounded.le
  | cons job jobs ih =>
    rw [List.forall_mem_cons] at hclean
    have hnext := bounded_job h hbounded hclean.1
    exact ih hnext.toIsProject hclean.2 hnext

/-- A project whose page is a directory, so that every run fails there. -/
def pagelessTree : Tree :=
  .directory
    [("src", .directory [("main.js", .file (.text "import Vue from 'vue'"))]),
      ("public", .directory [("index.html", .directory [])])]

theorem tally_afterJobs_pageless :
    (Tally.linesWith "src/main.js" (.substring Plan.pluginImport)).of ⟨".", []⟩
      (afterJobs ⟨".", []⟩ pagelessTree
        [⟨{ polyfill := true }, true⟩, ⟨{ fonts := ["Lato"] }, false⟩]) ≤ 1 := by
  have hproject : IsProject ⟨".", []⟩ [] pagelessTree :=
    isProject_of_textOf_none (Tree.leadsTo_of_follow rfl rfl) rfl
  have hclean : ∀ job ∈ ([⟨{ polyfill := true }, true⟩, ⟨{ fonts := ["Lato"] }, false⟩] : List Job),
      job.options.CleanFonts := by
    intro job hjob
    rcases List.mem_pair.1 hjob with rfl | rfl
    · exact ⟨by simp, by simp⟩
    · exact ⟨by decide, by decide⟩
  exact (tally_afterJobs (.pluginImport (by decide)) hproject hclean).trans (by decide +kernel)

end ProjectSetup
