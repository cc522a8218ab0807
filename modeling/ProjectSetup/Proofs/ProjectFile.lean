import ProjectSetup.Proofs.PassFrame
import ProjectSetup.Setup

/-!
# The files of a project

A setup reads and writes a handful of files below the root of the project, each at a path of names,
and none on the way to another.  So what it does to one of them leaves the others alone, also where
it fails, and a file that is there is rewritten without a change to anything else.

* `sightOf_run`: what a step leaves alone.
* `leadsTo_of_writeText`: a file that was written, whatever the tree was before.
* `runPass_on`: what a pass makes of a file that is there.
* `writeText_again`: a file that is rewritten.
* `writeFiles_spec`, `leadsTo_of_writeFiles`: files that are written one after the other.
-/

namespace ProjectSetup

/-- The files that a setup looks at. -/
def Setup.allFiles : List String :=
  ["package.json", routerFile, "src/App.vue", "src/views/Home.vue",
    "src/components/HelloWorld.vue"] ++ Plan.files

variable {root : Place} {tree tree' : Tree} {here : List String} {file other : String} {step : Step}

theorem isPlain_of_mem_allFiles (h : file ∈ Setup.allFiles) : IsPlain file := by
  unfold IsPlain
  revert file
  decide

theorem apart_of_mem_allFiles (h : file ∈ Setup.allFiles) (h' : other ∈ Setup.allFiles)
    (hne : other ≠ file) : Apart file other := by
  have hall : ∀ a ∈ Setup.allFiles, ∀ b ∈ Setup.allFiles, b ≠ a →
      ¬ fileNames b <+: fileNames a ∧ ¬ fileNames a <+: fileNames b := by decide
  exact hall file h other h' hne

theorem mem_allFiles_of_mem_files (h : file ∈ Plan.files) : file ∈ Setup.allFiles :=
  List.mem_append_right _ h

/-! ### Trees that differ in one file -/

namespace Tree

/-- What stands elsewhere is the same. -/
def SameBut (path : List String) (tree tree' : Tree) : Prop :=
  ∀ names, names ≠ path → tree'.look names = tree.look names

theorem SameBut.refl (path : List String) (tree : Tree) : SameBut path tree tree :=
  fun _ _ => rfl

theorem SameBut.trans {path : List String} {a b c : Tree} (hab : SameBut path a b)
    (hbc : SameBut path b c) : SameBut path a c :=
  fun names hne => (hbc names hne).trans (hab names hne)

/-- A file in the place of another brings nothing with it. -/
theorem WithFile.sameBut {path : List String} {content old : Content}
    (h : WithFile path content tree tree') (hold : tree.look path = .file old) :
    SameBut path tree tree' := by
  intro names hne
  by_cases hway : names <+: path
  · obtain ⟨hafter, hbefore | ⟨-, hmissing⟩⟩ := h.way names hway hne
    · rw [hafter, hbefore]
    · rw [hold] at hmissing
      cases hmissing
  · by_cases hbelow : path <+: names
    · obtain ⟨name, more, rfl⟩ := exists_of_proper_prefix hbelow (Ne.symm hne)
      rw [look_append_of_file _ _ h.there, look_append_of_file _ _ hold]
    · exact h.beside names hway hbelow

theorem follow_entries_eq {names : List String} {base path : List String}
    (h : tree.follow base (names.map .entry) = .ok path) : path = base ++ names := by
  induction names generalizing base with
  | nil =>
    obtain rfl := Except.ok.inj h
    exact (List.append_nil _).symm
  | cons name names ih =>
    rw [List.map_cons, follow_cons_eq_ok_iff] at h
    rw [ih h.2, PathPart.applyTo, List.append_assoc]
    rfl

end Tree

/-! ### One file -/

theorem inside_of_isPlain (hlead : tree.LeadsTo root.parts here) (hplain : IsPlain file) :
    tree.Inside (root.resolve file).parts := by
  obtain ⟨front, base, old, hparts, hfollow, hbase, -⟩ := hlead
  obtain ⟨dirs, last, -, hlast⟩ := Tree.exists_last front old hplain.2
  have hfront : tree.sight front = .directory := by rw [Tree.sight_of_follow hfollow, hbase]
  rw [parts_resolve_of_isPlain hplain, hparts, hlast]
  exact .intro front (dirs.map .entry) last hfront (by simp)

theorem path_of_follow (hlead : tree.LeadsTo root.parts here) (hplain : IsPlain file)
    {path : List String} (h : tree.follow [] (root.resolve file).parts = .ok path) :
    path = here ++ fileNames file := by
  obtain ⟨front, base, names, hparts, hfollow, -, hthere⟩ := hlead.append (fileNames file)
  rw [parts_resolve_of_isPlain hplain, hparts, Tree.follow_append, hfollow] at h
  rw [hthere]
  exact Tree.follow_entries_eq h

theorem sightOf_of_sameBeside (hlead : tree.LeadsTo root.parts here)
    (hkeep : Tree.KeepsDirectories tree tree')
    (hbeside : Tree.SameBeside (here ++ fileNames file) tree tree') (hother : IsPlain other)
    (hapart : Apart file other) : tree'.sightOf root other = tree.sightOf root other := by
  rw [sightOf_of_leadsTo (hlead.mono hkeep) hother, sightOf_of_leadsTo hlead hother]
  refine hbeside _ ?_ ?_
  · rw [List.prefix_append_right_inj]
    exact hapart.1
  · rw [List.prefix_append_right_inj]
    exact hapart.2

theorem sightOf_of_sameBut (hlead : tree.LeadsTo root.parts here)
    (hlead' : tree'.LeadsTo root.parts here)
    (hsame : Tree.SameBut (here ++ fileNames file) tree tree') (hfile : file ∈ Setup.allFiles)
    (hother : other ∈ Setup.allFiles) (hne : other ≠ file) :
    tree'.sightOf root other = tree.sightOf root other := by
  have hplain := isPlain_of_mem_allFiles hother
  rw [sightOf_of_leadsTo hlead' hplain, sightOf_of_leadsTo hlead hplain]
  refine hsame _ fun heq => (apart_of_mem_allFiles hfile hother hne).1 ?_
  rw [List.append_cancel_left heq]

/-- How a step on a file of the project ends: the tree stays the same, or has the file in it. -/
theorem withFile_run (hlead : tree.LeadsTo root.parts here) (hplain : IsPlain step.file) :
    (step.run root tree).1 = tree ∨
      ((step.run root tree).2 = .ok .applied ∧ ∃ text,
        Tree.WithFile (here ++ fileNames step.file) (.text text) tree (step.run root tree).1) := by
  have hend := ending_run (inside_of_isPlain hlead hplain)
  generalize step.run root tree = run at hend
  obtain ⟨tree', result⟩ := run
  cases hend with
  | rested => exact .inl rfl
  | failed => exact .inl rfl
  | applied hfollow hwith _ =>
    obtain rfl := path_of_follow (hlead.mono hwith.keepsDirectories) hplain hfollow
    exact .inr ⟨rfl, _, hwith⟩

/-- **What a step leaves alone**: the other files of the project. -/
theorem sightOf_run (hlead : tree.LeadsTo root.parts here) (hfile : step.file ∈ Setup.allFiles)
    (hother : other ∈ Setup.allFiles) (hne : other ≠ step.file) :
    (step.run root tree).1.sightOf root other = tree.sightOf root other := by
  rcases withFile_run hlead (isPlain_of_mem_allFiles hfile) with hsame | ⟨-, text, hwith⟩
  · rw [hsame]
  · exact sightOf_of_sameBeside hlead hwith.keepsDirectories hwith.beside
      (isPlain_of_mem_allFiles hother) (apart_of_mem_allFiles hfile hother hne)

/-- **A file that is rewritten**: it has the new text, and everything else is as before. -/
theorem writeText_again (hlead : tree.LeadsTo root.parts here) (hplain : IsPlain file)
    {old : Content} (hold : tree.sightOf root file = .file old) (text : String) :
    ∃ tree', tree.writeText (root.resolve file) text = (tree', .ok ()) ∧
      tree'.LeadsTo root.parts here ∧ tree'.sightOf root file = .file (.text text) ∧
      Tree.SameBut (here ++ fileNames file) tree tree' := by
  obtain ⟨path, tree', hput, hfollow, hsight, hwith⟩ :=
    Tree.putFile_of_inside (.text text) (inside_of_isPlain hlead hplain) (.inr ⟨old, hold⟩)
  have hlead' := hlead.mono hwith.keepsDirectories
  obtain rfl := path_of_follow hlead' hplain hfollow
  have hthere : tree.look (here ++ fileNames file) = .file old := by rw [← hsight]; exact hold
  refine ⟨tree', ?_, hlead', ?_, hwith.sameBut hthere⟩
  · rw [Tree.writeText, hput]
    rfl
  · rw [sightOf_of_leadsTo hlead' hplain]
    exact hwith.there

/-- A file that is put at the end of a path of names is written below the directory that the way to
it leads to. -/
theorem write_of_putEntry {content : Content} {parts : List PathPart} {names : List String}
    (hne : names ≠ []) (h : tree.putEntry content (parts ++ names.map .entry) = .ok tree') :
    ∃ here, tree.LeadsTo parts here ∧ tree.write content (here ++ names) = .ok tree' := by
  obtain ⟨path, hfollow, hwrite⟩ := Tree.exists_of_putEntry h
  obtain ⟨here, hhere, hnames⟩ := Tree.exists_of_follow_append hfollow
  obtain rfl := Tree.follow_entries_eq hnames
  have hdir := Tree.look_of_follow_ne_nil (by simpa using hne) hnames
  exact ⟨here, Tree.leadsTo_of_follow hhere hdir, hwrite⟩

/-- A file that was put at the end of a path of names stands there. -/
theorem leadsTo_of_putFile {content : Content} {parts : List PathPart} {names : List String}
    (hne : names ≠ []) (h : tree.putFile content (parts ++ names.map .entry) = (tree', .ok ())) :
    ∃ here, tree'.LeadsTo parts here ∧ tree'.look (here ++ names) = .file content := by
  rw [Tree.putFile] at h
  rcases hway : tree.makeWay false [] (Tree.holder (parts ++ names.map .entry)) with
    ⟨mid, fault | _⟩
  · rw [hway] at h
    cases (Prod.mk.inj h).2
  · rw [hway] at h
    dsimp only at h
    cases hput : mid.putEntry content (parts ++ names.map .entry) with
    | error fault =>
      rw [hput] at h
      cases (Prod.mk.inj h).2
    | ok written =>
      rw [hput] at h
      obtain rfl := (Prod.mk.inj h).1
      obtain ⟨here, hlead, hwrite⟩ := write_of_putEntry hne hput
      obtain ⟨hthere, hkeep, -⟩ := Tree.look_write hwrite
      exact ⟨here, hlead.mono hkeep, hthere⟩

theorem textOf_of_sightOf {text : String} (h : tree.sightOf root file = .file (.text text)) :
    tree.textOf root file = .ok (some text) := by
  unfold Tree.sightOf at h
  rw [Tree.textOf, Tree.readText?, h]

theorem sightOf_of_textOf {text : String} (h : tree.textOf root file = .ok (some text)) :
    tree.sightOf root file = .file (.text text) :=
  sight_of_readText? h

/-- The parts of the root lead to a project that has one of its files. -/
theorem leadsTo_of_textOf {text : String} (hplain : IsPlain file)
    (h : tree.textOf root file = .ok (some text)) : ∃ here, tree.LeadsTo root.parts here := by
  obtain ⟨path, hfollow⟩ := Tree.follow_of_has (Tree.has_of_textOf h)
  rw [parts_resolve_of_isPlain hplain] at hfollow
  obtain ⟨here, hhere, hnames⟩ := Tree.exists_of_follow_append hfollow
  have hdir := Tree.look_of_follow_ne_nil (by simpa using hplain.2) hnames
  exact ⟨here, Tree.leadsTo_of_follow hhere hdir⟩

/-- **A pass on a file that is there**: its text and what is reported of it. -/
theorem runPass_on {options : Options} {report : Report} {text : String} (hfile : file ∈ Plan.files)
    (htext : tree.textOf root file = .ok (some text))
    (hok : (runPass root (Plan.steps options) tree).result = .ok report) :
    (runPass root (Plan.steps options) tree).tree.textOf root file =
        .ok (textThrough file (Plan.steps options) (some text)) ∧
      report.events.filter (fun event => event.file = file) =
        eventsThrough file (Plan.steps options) (some text) := by
  obtain ⟨here, hlead⟩ := leadsTo_of_textOf (isPlain_of_mem_files hfile) htext
  rw [tree_runPass]
  exact runSteps_on (fun _ hs _ => requires_eq hs) (fun _ => file_mem_files) hfile hlead
    (result_runPass_eq_ok_iff.1 hok) htext

/-- A text that was written is there, in a project that the parts of its root lead to. -/
theorem leadsTo_of_writeText {text : String} (hplain : IsPlain file)
    (h : tree.writeText (root.resolve file) text = (tree', .ok ())) :
    ∃ here, tree'.LeadsTo root.parts here ∧ tree'.textOf root file = .ok (some text) := by
  rw [Tree.writeText, parts_resolve_of_isPlain hplain] at h
  cases hput : tree.putFile (.text text) (root.parts ++ (fileNames file).map .entry) with
  | mk mid put =>
    rw [hput] at h
    obtain ⟨rfl, hresult⟩ := Prod.mk.inj h
    cases put with
    | error fault => cases hresult
    | ok _ =>
      obtain ⟨here, hlead, hthere⟩ := leadsTo_of_putFile hplain.2 hput
      exact ⟨here, hlead, textOf_of_sightOf ((sightOf_of_leadsTo hlead hplain).trans hthere)⟩

/-! ### Files one after the other -/

open Setup (writeFiles)

/-- What is left alone by files that are written one after the other, also if one of them cannot be
written. -/
theorem frame_writeFiles {files : List (String × String)} (hlead : tree.LeadsTo root.parts here)
    (hfiles : ∀ f ∈ files, f.1 ∈ Setup.allFiles) :
    (writeFiles root tree files).1.LeadsTo root.parts here ∧
      ∀ other ∈ Setup.allFiles, other ∉ files.map Prod.fst →
        (writeFiles root tree files).1.sightOf root other = tree.sightOf root other := by
  induction files generalizing tree with
  | nil => exact ⟨hlead, fun _ _ _ => rfl⟩
  | cons f files ih =>
    obtain ⟨path, text⟩ := f
    have hpath := hfiles _ List.mem_cons_self
    rw [writeFiles]
    cases hwrite : tree.writeText (root.resolve path) text with
    | mk mid result =>
      obtain ⟨hlead', hothers, -⟩ := writeText_spec hlead (isPlain_of_mem_allFiles hpath) hwrite
      have hmid : ∀ other ∈ Setup.allFiles, other ∉ ((path, text) :: files).map Prod.fst →
          mid.sightOf root other = tree.sightOf root other := by
        intro other hother hnot
        rw [List.map_cons, List.mem_cons, not_or] at hnot
        exact hothers other (isPlain_of_mem_allFiles hother)
          (apart_of_mem_allFiles hpath hother hnot.1)
      cases result with
      | error failure => exact ⟨hlead', hmid⟩
      | ok _ =>
        obtain ⟨hend, hsame⟩ := ih hlead' fun f hf => hfiles f (List.mem_cons_of_mem _ hf)
        refine ⟨hend, fun other hother hnot => ?_⟩
        rw [← hmid other hother hnot]
        rw [List.map_cons, List.mem_cons, not_or] at hnot
        exact hsame other hother hnot.2

/-- **Files that are written one after the other** have their texts in the end. -/
theorem writeFiles_spec {files : List (String × String)} (hlead : tree.LeadsTo root.parts here)
    (hfiles : ∀ f ∈ files, f.1 ∈ Setup.allFiles) (hnodup : (files.map Prod.fst).Nodup)
    (hok : (writeFiles root tree files).2 = .ok ()) :
    ∀ f ∈ files, (writeFiles root tree files).1.textOf root f.1 = .ok (some f.2) := by
  induction files generalizing tree with
  | nil => simp
  | cons f files ih =>
    obtain ⟨path, text⟩ := f
    have hpath := hfiles _ List.mem_cons_self
    rw [List.map_cons, List.nodup_cons] at hnodup
    rw [writeFiles] at hok ⊢
    cases hwrite : tree.writeText (root.resolve path) text with
    | mk mid result =>
      obtain ⟨hlead', -, hself⟩ := writeText_spec hlead (isPlain_of_mem_allFiles hpath) hwrite
      rw [hwrite] at hok
      cases result with
      | error failure => cases hok
      | ok _ =>
        have hrest := fun f hf => hfiles f (List.mem_cons_of_mem _ hf)
        intro f hf
        rcases List.mem_cons.1 hf with rfl | hf
        · have hmid : mid.textOf root path = .ok (some text) := hself
          have hsame := (frame_writeFiles hlead' hrest).2 path hpath hnodup.1
          exact (Tree.textOf_eq_of_sightOf hsame).trans hmid
        · exact ih hlead' hrest hnodup.2 hok f hf

/-- **Files that are written one after the other** in any tree: once one of them is written, the
parts of the root lead to the project. -/
theorem leadsTo_of_writeFiles {f : String × String} {files : List (String × String)}
    (hfiles : ∀ g ∈ f :: files, g.1 ∈ Setup.allFiles) (hnodup : ((f :: files).map Prod.fst).Nodup)
    (hok : (writeFiles root tree (f :: files)).2 = .ok ()) :
    ∃ here, (writeFiles root tree (f :: files)).1.LeadsTo root.parts here ∧
      ∀ g ∈ f :: files, (writeFiles root tree (f :: files)).1.textOf root g.1 = .ok (some g.2) := by
  obtain ⟨path, text⟩ := f
  have hpath := hfiles _ List.mem_cons_self
  rw [List.map_cons, List.nodup_cons] at hnodup
  rw [writeFiles] at hok ⊢
  cases hwrite : tree.writeText (root.resolve path) text with
  | mk mid result =>
    rw [hwrite] at hok
    cases result with
    | error failure => cases hok
    | ok _ =>
      obtain ⟨here, hlead, hself⟩ := leadsTo_of_writeText (isPlain_of_mem_allFiles hpath) hwrite
      have hrest := fun g hg => hfiles g (List.mem_cons_of_mem _ hg)
      obtain ⟨hend, hsame⟩ := frame_writeFiles hlead hrest
      refine ⟨here, hend, fun g hg => ?_⟩
      rcases List.mem_cons.1 hg with rfl | hg
      · exact (Tree.textOf_eq_of_sightOf (hsame path hpath hnodup.1)).trans hself
      · exact writeFiles_spec hlead hrest hnodup.2 hok g hg

/-- Files that have their texts are written again without a change. -/
theorem writeFiles_again {files : List (String × String)} (hlead : tree.LeadsTo root.parts here)
    (hfiles : ∀ f ∈ files, f.1 ∈ Setup.allFiles)
    (hthere : ∀ f ∈ files, tree.textOf root f.1 = .ok (some f.2)) :
    (writeFiles root tree files).2 = .ok () ∧
      (writeFiles root tree files).1.LeadsTo root.parts here ∧
      ∀ names, (writeFiles root tree files).1.look names = tree.look names := by
  induction files generalizing tree with
  | nil => exact ⟨rfl, hlead, fun _ => rfl⟩
  | cons f files ih =>
    obtain ⟨path, text⟩ := f
    have hplain := isPlain_of_mem_allFiles (hfiles _ List.mem_cons_self)
    have hold := sightOf_of_textOf (hthere _ List.mem_cons_self)
    obtain ⟨mid, hwrite, hlead', hself, hsame⟩ := writeText_again hlead hplain hold text
    have hlook : ∀ names, mid.look names = tree.look names := by
      intro names
      by_cases hnames : names = here ++ fileNames path
      · rw [hnames, ← sightOf_of_leadsTo hlead' hplain, hself, ← sightOf_of_leadsTo hlead hplain,
          hold]
      · exact hsame names hnames
    have hnext : ∀ f ∈ files, mid.textOf root f.1 = .ok (some f.2) := by
      intro f hf
      have hmem := hfiles f (List.mem_cons_of_mem _ hf)
      rw [← hthere f (List.mem_cons_of_mem _ hf)]
      refine Tree.textOf_eq_of_sightOf ?_
      rw [sightOf_of_leadsTo hlead' (isPlain_of_mem_allFiles hmem),
        sightOf_of_leadsTo hlead (isPlain_of_mem_allFiles hmem), hlook]
    obtain ⟨hok, hend, hlook'⟩ := ih hlead' (fun f hf => hfiles f (List.mem_cons_of_mem _ hf)) hnext
    rw [writeFiles, hwrite]
    exact ⟨hok, hend, fun names => (hlook' names).trans (hlook names)⟩

end ProjectSetup
