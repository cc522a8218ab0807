import ProjectSetup.Proofs.ConfigFile
import ProjectSetup.Proofs.LineFile
import ProjectSetup.Proofs.WriteAfterRead

/-!
# What a pass of any steps leaves alone

The steps need not be those of a plan.  A step that is not applied leaves the whole tree as it is,
and a step that is applied changes its own file and makes the directories that lead there.  It fails
only if it cannot load its file: a file that was loaded can be written, so that no step ends half
done.  A pass goes on from step to step until one of them fails, and then the tree is the one that
the steps before it left.

* `ending_run`: how a step ends.
* `runPass_append`: a pass goes on from the tree that its first steps left.
* `steps_of_runPass`: the steps of a pass, its failures and its report; `fails_of_last_same`,
  `changes_of_step_back`: the paths for which this does not hold.
-/

namespace ProjectSetup

variable {root : Place} {tree tree' : Tree} {step : Step} {steps : List Step}

/-! ### How a step ends -/

/-- The edits that make a file where there is none. -/
def FileEdit.MakesFile : FileEdit → Prop
  | lines (.prependLine _ _) => True
  | lines _ => False
  | config edit => edit.missing = .create

/-- The step is not held back by the file it needs, and cannot load the file it edits. -/
structure Step.CannotLoad (root : Place) (tree : Tree) (step : Step) : Prop where
  needed : ∀ file, step.requires = some file → tree.has (root.resolve file).parts = true
  sight : tree.sight (root.resolve step.file).parts = .directory ∨
    tree.sight (root.resolve step.file).parts = .belowFile ∨
    ∃ bytes, tree.sight (root.resolve step.file).parts = .file (.binary bytes)

/-- How a step ends, and what it does to the tree. -/
inductive Ending (root : Place) (tree : Tree) (step : Step) :
    Tree → Except Failure Verdict → Prop where
  | rested {verdict : Verdict} : verdict ≠ .applied → Ending root tree step tree (.ok verdict)
  | applied {tree' : Tree} {path : List String} {text : String} :
    tree'.follow [] (root.resolve step.file).parts = .ok path →
    Tree.WithFile path (.text text) tree tree' →
    (tree.look path = .missing → step.edit.MakesFile) → Ending root tree step tree' (.ok .applied)
  | failed {failure : Failure} : step.CannotLoad root tree →
    Ending root tree step tree (.error failure)

theorem makesFile_of_lines {edit : LineEdit} {new : List String}
    (h : edit.apply [] = .rewritten new) : (FileEdit.lines edit).MakesFile := by
  have hanchor : ∀ anchor : Anchor, anchor.find? [] = none := fun anchor =>
    Anchor.find?_eq_none_iff.2 (by simp)
  have hline : ∀ anchor placement text marker,
      LineEdit.applyLine anchor placement text marker [] ≠ .rewritten new := by
    intro anchor placement text marker
    rw [LineEdit.applyLine, hanchor]
    split_ifs <;> simp
  cases edit with
  | insertImport anchor text => exact absurd h (hline anchor .after text _)
  | insertLine anchor placement text marker => exact absurd h (hline anchor placement text marker)
  | prependLine text marker => trivial
  | insertLink link placement =>
    rw [LineEdit.apply, LineEdit.applyLink, hanchor] at h
    split_ifs at h
  | objectKey call key =>
    rw [LineEdit.apply, LineEdit.applyKey] at h
    split_ifs at h
    cases h

/-- Only some edits make something of a file that is not there. -/
theorem makesFile_of_rewritten {edit : FileEdit} {text : String}
    (h : edit.onText none = .rewritten text) : edit.MakesFile := by
  cases edit with
  | lines edit =>
    obtain ⟨new, hnew, -⟩ := onText_lines_eq_rewritten_iff.1 h
    exact makesFile_of_lines hnew
  | config edit =>
    have hout := onText_config_cases edit none
    rw [h] at hout
    cases hout with
    | rewritten hconfig _ hlist =>
      obtain rfl := Json.Value.object.inj (Except.ok.inj hconfig)
      rcases hlist with hget | ⟨-, hmissing, -⟩
      · cases hget
      · exact hmissing

theorem needed_iff :
    step.missingFile? root tree = none ↔
      ∀ file, step.requires = some file → tree.has (root.resolve file).parts = true := by
  rw [Step.missingFile?]
  cases step.requires with
  | none => simp
  | some file => simp [Option.filter]

/-- A file that is read as a text is one, or is not there. -/
theorem sight_of_readText? {place : Place} {text? : Option String}
    (h : tree.readText? place = .ok text?) :
    tree.sight place.parts =
      match text? with
      | some text => .file (.text text)
      | none => .missing := by
  rw [Tree.readText?] at h
  split at h
  · next text hsight =>
    obtain rfl := Except.ok.inj h
    exact hsight
  · cases h
  · cases h
  · cases h
  · next hsight =>
    obtain rfl := Except.ok.inj h
    exact hsight

theorem readText?_eq_error_iff {place : Place} :
    (∃ failure, tree.readText? place = .error failure) ↔
      tree.sight place.parts = .directory ∨ tree.sight place.parts = .belowFile ∨
        ∃ bytes, tree.sight place.parts = .file (.binary bytes) := by
  rw [Tree.readText?]
  cases tree.sight place.parts with
  | file content => cases content <;> simp
  | directory => simp
  | missing => simp
  | belowFile => simp

/-- A file that was read as a text, or was found missing, can be written. -/
theorem writeText_of_readText? {place : Place} {text? : Option String} (text : String)
    (hinside : tree.Inside place.parts) (hread : tree.readText? place = .ok text?) :
    ∃ path tree', tree.writeText place text = (tree', .ok ()) ∧
      tree'.follow [] place.parts = .ok path ∧ tree.sight place.parts = tree.look path ∧
      Tree.WithFile path (.text text) tree tree' := by
  have hsight : tree.sight place.parts = .missing ∨ ∃ old, tree.sight place.parts = .file old := by
    have hseen := sight_of_readText? hread
    cases text? with
    | none => exact .inl hseen
    | some old => exact .inr ⟨_, hseen⟩
  obtain ⟨path, tree', hput, hfollow, hlook, hwith⟩ :=
    Tree.putFile_of_inside (.text text) hinside hsight
  have hwrite : tree.writeText place text = (tree', .ok ()) := by
    rw [Tree.writeText, hput]
    rfl
  exact ⟨path, tree', hwrite, hfollow, hlook, hwith⟩

/-- **How a step ends.** -/
theorem ending_run (hinside : tree.Inside (root.resolve step.file).parts) :
    Ending root tree step (step.run root tree).1 (step.run root tree).2 := by
  rw [Step.run]
  cases hmissing : step.missingFile? root tree with
  | some file => exact .rested (by simp)
  | none =>
    dsimp only
    rw [editAt_eq]
    cases htext : tree.readText? (root.resolve step.file) with
    | error failure => exact .failed ⟨needed_iff.1 hmissing, readText?_eq_error_iff.1 ⟨_, htext⟩⟩
    | ok text? =>
      dsimp only
      cases hedit : step.edit.onText text? with
      | alreadyApplied => exact .rested (by simp)
      | skipped reason => exact .rested (by simp)
      | rewritten text =>
        obtain ⟨path, tree', hwrite, hfollow, hlook, hwith⟩ :=
          writeText_of_readText? text hinside htext
        rw [Step.finish, hwrite]
        refine .applied hfollow hwith fun hnothing => ?_
        rw [← hlook, sight_of_readText? htext] at hnothing
        cases text? with
        | none => exact makesFile_of_rewritten hedit
        | some old => cases hnothing

theorem run_of_cannotLoad (h : step.CannotLoad root tree) :
    ∃ failure, step.run root tree = (tree, .error failure) := by
  obtain ⟨failure, hread⟩ := readText?_eq_error_iff.2 h.sight
  refine ⟨failure, ?_⟩
  rw [Step.run, needed_iff.2 h.needed]
  dsimp only
  rw [editAt_eq, hread]

theorem Ending.keepsDirectories {result : Except Failure Verdict}
    (h : Ending root tree step tree' result) : Tree.KeepsDirectories tree tree' := by
  cases h with
  | rested => exact .refl tree
  | applied _ hwith _ => exact hwith.keepsDirectories
  | failed => exact .refl tree

/-! ### How a pass goes on -/

/-- Steps that were run before others. -/
theorem runSteps_append (root : Place) (tree : Tree) (front back : List Step) :
    (runSteps root tree (front ++ back)).tree =
        (match (runSteps root tree front).result with
        | .ok _ => (runSteps root (runSteps root tree front).tree back).tree
        | .error _ => (runSteps root tree front).tree) ∧
      (runSteps root tree (front ++ back)).result =
        (runSteps root tree front).result.bind fun before =>
          (runSteps root (runSteps root tree front).tree back).result.map (before ++ ·) := by
  induction front generalizing tree with
  | nil =>
    refine ⟨rfl, ?_⟩
    rw [List.nil_append]
    cases hback : (runSteps root tree back).result <;> simp [runSteps, Except.bind, Except.map, hback]
  | cons step front ih =>
    rcases hrun : step.run root tree with ⟨tree', failure | verdict⟩
    · rw [List.cons_append, runSteps_cons_error hrun, runSteps_cons_error hrun]
      exact ⟨rfl, rfl⟩
    · obtain ⟨htree, hresult⟩ := ih tree'
      rw [List.cons_append, (runSteps_cons_ok hrun).1, (runSteps_cons_ok hrun).1,
        (runSteps_cons_ok hrun).2, (runSteps_cons_ok hrun).2, htree, hresult]
      cases (runSteps root tree' front).result with
      | error failure => exact ⟨rfl, rfl⟩
      | ok before =>
        refine ⟨rfl, ?_⟩
        cases (runSteps root (runSteps root tree' front).tree back).result <;> rfl

theorem result_runPass (steps : List Step) :
    (runPass root steps tree).result = (runSteps root tree steps).result.map Report.mk :=
  rfl

/-- **A pass goes on** from the tree that its first steps left, unless one of them failed. -/
theorem runPass_append (root : Place) (tree : Tree) (front back : List Step) :
    (runPass root (front ++ back) tree).tree =
        (match (runPass root front tree).result with
        | .ok _ => (runPass root back (runPass root front tree).tree).tree
        | .error _ => (runPass root front tree).tree) ∧
      (runPass root (front ++ back) tree).result =
        (runPass root front tree).result.bind fun before =>
          (runPass root back (runPass root front tree).tree).result.map fun after =>
            ⟨before.events ++ after.events⟩ := by
  obtain ⟨htree, hresult⟩ := runSteps_append root tree front back
  simp only [result_runPass, tree_runPass]
  rw [htree, hresult]
  cases (runSteps root tree front).result with
  | error failure => exact ⟨rfl, rfl⟩
  | ok before =>
    refine ⟨rfl, ?_⟩
    dsimp only [Except.map, Except.bind]
    cases (runSteps root (runSteps root tree front).tree back).result <;> rfl

theorem runPass_singleton :
    (runPass root [step] tree).tree = (step.run root tree).1 ∧
      (runPass root [step] tree).result =
        (step.run root tree).2.map fun verdict => ⟨[⟨step.label, step.file, verdict⟩]⟩ := by
  rw [runPass, runSteps]
  rcases step.run root tree with ⟨tree', failure | verdict⟩ <;> exact ⟨rfl, rfl⟩

theorem keepsDirectories_runSteps
    (hinside : ∀ step ∈ steps, tree.Inside (root.resolve step.file).parts) :
    Tree.KeepsDirectories tree (runSteps root tree steps).tree := by
  refine invariant_runSteps (P := Tree.KeepsDirectories tree) (fun step hstep mid hmid => ?_)
    (.refl tree)
  exact hmid.trans (ending_run ((hinside step hstep).mono hmid)).keepsDirectories

/-! ### The report of a pass -/

theorem Report.verdicts_length (report : Report) :
    report.applied + report.alreadyApplied + report.skipped.length = report.events.length := by
  obtain ⟨events⟩ := report
  rw [applied, alreadyApplied, skipped]
  dsimp only
  induction events with
  | nil => rfl
  | cons event events ih =>
    obtain ⟨label, file, verdict⟩ := event
    cases verdict <;> simp at ih ⊢ <;> omega

/-- A pass that comes to its end reports of every step, in order. -/
theorem report_of_ok {report : Report} (h : (runPass root steps tree).result = .ok report) :
    report.events.map (fun event => (event.label, event.file)) =
      steps.map fun step => (step.label, step.file) := by
  rw [result_runPass_eq_ok_iff] at h
  obtain ⟨verdicts, hlength, -, hevents⟩ := trail_eq_of_ok h
  rw [hevents]
  clear h hevents
  induction steps generalizing verdicts with
  | nil => rfl
  | cons step steps ih =>
    cases verdicts with
    | nil => cases hlength
    | cons verdict verdicts =>
      rw [List.zipWith_cons_cons, List.map_cons, List.map_cons, ih verdicts (by simpa using hlength)]

/-! ### The steps that a pass comes to -/

/-- The pass comes to the step after those in front of it, which left the tree `mid`. -/
structure ComesTo (root : Place) (tree : Tree) (steps front : List Step) (step : Step)
    (before : Report) (mid : Tree) : Prop where
  steps : ∃ back, steps = front ++ step :: back
  result : (runPass root front tree).result = .ok before
  tree : (runPass root front tree).tree = mid

variable {front : List Step} {before : Report} {mid : Tree}

/-- A step that is come to ends as it does on the tree that the steps before it left. -/
theorem ComesTo.ending (h : ComesTo root tree steps front step before mid)
    (hinside : ∀ step ∈ steps, tree.Inside (root.resolve step.file).parts) :
    ∃ result, Ending root mid step (runPass root (front ++ [step]) tree).tree result ∧
      (runPass root (front ++ [step]) tree).result = result.map fun verdict =>
        ⟨before.events ++ [⟨step.label, step.file, verdict⟩]⟩ := by
  obtain ⟨⟨back, rfl⟩, hfront, rfl⟩ := h
  have hkeep : Tree.KeepsDirectories tree (runPass root front tree).tree :=
    keepsDirectories_runSteps fun s hs => hinside s (by simp [hs])
  have hstep := (hinside step (by simp)).mono hkeep
  obtain ⟨htree, hresult⟩ := runPass_append root tree front [step]
  rw [hfront] at htree hresult
  dsimp only [Except.bind] at htree hresult
  refine ⟨(step.run root (runPass root front tree).tree).2, ?_, ?_⟩
  · rw [htree, runPass_singleton.1]
    exact ending_run hstep
  · rw [hresult, runPass_singleton.2]
    cases (step.run root (runPass root front tree).tree).2 <;> rfl

/-- A step that cannot load its file ends the pass where it is. -/
theorem ComesTo.ends (h : ComesTo root tree steps front step before mid)
    (hload : step.CannotLoad root mid) :
    (∃ failure, (runPass root steps tree).result = .error failure) ∧
      (runPass root steps tree).tree = mid := by
  obtain ⟨⟨back, rfl⟩, hfront, rfl⟩ := h
  obtain ⟨failure, hrun⟩ := run_of_cannotLoad hload
  obtain ⟨htree, hresult⟩ := runPass_append root tree front (step :: back)
  have hstuck : runPass root (step :: back) (runPass root front tree).tree =
      ⟨(runPass root front tree).tree, [], .error failure⟩ := by
    rw [runPass, runSteps_cons_error hrun]
    rfl
  rw [htree, hresult, hfront]
  dsimp only [Except.bind]
  rw [hstuck]
  exact ⟨⟨failure, rfl⟩, rfl⟩

/-- A pass that fails has come to a step that cannot load its file. -/
theorem exists_of_error (hinside : ∀ step ∈ steps, tree.Inside (root.resolve step.file).parts)
    {failure : Failure} (h : (runPass root steps tree).result = .error failure) :
    ∃ front step before mid, ComesTo root tree steps front step before mid ∧
      step.CannotLoad root mid := by
  induction steps generalizing tree with
  | nil => cases h
  | cons step steps ih =>
    have hend := ending_run (hinside step List.mem_cons_self)
    rcases hrun : step.run root tree with ⟨tree', failure' | verdict⟩
    · rw [hrun] at hend
      cases hend with
      | failed hload => exact ⟨[], step, ⟨[]⟩, _, ⟨⟨steps, rfl⟩, rfl, rfl⟩, hload⟩
    · rw [hrun] at hend
      have hnext : ∀ s ∈ steps, tree'.Inside (root.resolve s.file).parts := fun s hs =>
        (hinside s (List.mem_cons_of_mem _ hs)).mono hend.keepsDirectories
      have hfail : (runPass root steps tree').result = .error failure := by
        rw [result_runPass, (runSteps_cons_ok hrun).2] at h
        rw [result_runPass]
        cases hrest : (runSteps root tree' steps).result with
        | error failure' =>
          rw [hrest] at h
          exact h
        | ok events =>
          rw [hrest] at h
          cases h
      obtain ⟨front, stuck, before, mid, ⟨⟨back, rfl⟩, hfront, rfl⟩, hload⟩ := ih hnext hfail
      rw [result_runPass_eq_ok_iff] at hfront
      refine ⟨step :: front, stuck, ⟨⟨step.label, step.file, verdict⟩ :: before.events⟩, _,
        ⟨⟨back, rfl⟩, ?_, ?_⟩, hload⟩
      · rw [result_runPass_eq_ok_iff, (runSteps_cons_ok hrun).2, hfront]
        rfl
      · rw [tree_runPass, (runSteps_cons_ok hrun).1]
        rfl

/-- **The steps of a pass, its failures and its report.**  Every step that is come to ends as it does
on the tree that the steps before it left: the tree stays the same, or has the file that the step
edits in it.  The pass fails exactly if it comes to a step that cannot load its file, and changes
nothing more then.  Else it reports of every step.  The paths of the files are `Inside`, as all plain
paths below a project are (`Tree.inside_resolve`, `inside_of_isPlain`). -/
theorem steps_of_runPass (hinside : ∀ step ∈ steps, tree.Inside (root.resolve step.file).parts) :
    (∀ front step before mid, ComesTo root tree steps front step before mid →
      ∃ result, Ending root mid step (runPass root (front ++ [step]) tree).tree result ∧
        (runPass root (front ++ [step]) tree).result = result.map fun verdict =>
          ⟨before.events ++ [⟨step.label, step.file, verdict⟩]⟩) ∧
      ((∃ failure, (runPass root steps tree).result = .error failure) ↔
        ∃ front step before mid, ComesTo root tree steps front step before mid ∧
          step.CannotLoad root mid) ∧
      (∀ front step before mid, ComesTo root tree steps front step before mid →
        step.CannotLoad root mid → (runPass root steps tree).tree = mid) ∧
      ∀ report, (runPass root steps tree).result = .ok report →
        report.events.map (fun event => (event.label, event.file)) =
          steps.map (fun step => (step.label, step.file)) ∧
        report.applied + report.alreadyApplied + report.skipped.length = steps.length := by
  refine ⟨fun front step before mid hcomes => hcomes.ending hinside, ⟨?_, ?_⟩,
    fun front step before mid hcomes hload => (hcomes.ends hload).2, ?_⟩
  · rintro ⟨failure, hfail⟩
    exact exists_of_error hinside hfail
  · rintro ⟨front, step, before, mid, hcomes, hload⟩
    exact (hcomes.ends hload).1
  · intro report hok
    have hevents := report_of_ok hok
    have hlength := congrArg List.length hevents
    rw [List.length_map, List.length_map] at hlength
    rw [report.verdicts_length]
    exact ⟨hevents, hlength⟩

/-- A directory `main.js` stands where the second step looks for a file. -/
theorem steps_of_runPass_directory :
    let tree : Tree := .directory [("app", .directory [("main.js", .directory [])])]
    let root : Place := ⟨"/app", [.entry "app"]⟩
    let first : Step :=
      ⟨"banner", "src/./banner.js", none, .lines (.prependLine "// banner" (.substring "banner"))⟩
    let second : Step :=
      ⟨"banner", "main.js", some "main.js", .lines (.prependLine "// banner" (.substring "banner"))⟩
    (∀ step ∈ [first, second], tree.Inside (root.resolve step.file).parts) ∧
      (∃ failure, (runPass root [first, second] tree).result = .error failure) ∧
      (runPass root [first, second] tree).tree = (runPass root [first] tree).tree := by
  intro tree root first second
  have hinside : ∀ step ∈ [first, second], tree.Inside (root.resolve step.file).parts := by
    intro step hstep
    rcases List.mem_pair.1 hstep with rfl | rfl
    · exact Tree.inside_resolve (by decide +kernel) [['s', 'r', 'c'], ['.']] "banner.js".toList
        (by decide +kernel) (by decide) (by decide)
    · exact Tree.inside_resolve (by decide +kernel) [] "main.js".toList
        (by decide +kernel) (by decide) (by decide)
  obtain ⟨-, hfails, hstays, -⟩ := steps_of_runPass hinside
  obtain ⟨before, hbefore⟩ : ∃ before, (runPass root [first] tree).result = .ok before :=
    ⟨⟨[⟨"banner", "src/./banner.js", .applied⟩]⟩, by decide +kernel⟩
  have hcomes : ComesTo root tree [first, second] [first] second before
      (runPass root [first] tree).tree := ⟨⟨[], rfl⟩, hbefore, rfl⟩
  have hload : second.CannotLoad root (runPass root [first] tree).tree := by
    refine ⟨fun file hfile => ?_, .inl (by decide +kernel)⟩
    obtain rfl := Option.some.inj hfile
    decide +kernel
  exact ⟨hinside, hfails.2 ⟨_, _, _, _, hcomes, hload⟩, hstays _ _ _ _ hcomes hload⟩

/-- A pass can fail at a path that ends in a dot: in a directory that is not there the step finds no
file, and can write none. -/
theorem fails_of_last_same :
    let tree : Tree := .directory [("app", .directory [])]
    let root : Place := ⟨"/app", [.entry "app"]⟩
    let step : Step :=
      ⟨"banner", "new/.", none, .lines (.prependLine "// banner" (.substring "banner"))⟩
    ¬ step.CannotLoad root tree ∧ ∃ failure, (runPass root [step] tree).result = .error failure := by
  intro tree root step
  have hmissing : tree.sight (root.resolve step.file).parts = .missing := by decide +kernel
  refine ⟨fun hload => ?_, .file "/app/new/." .missing, by decide +kernel⟩
  have hsight := hload.sight
  simp [hmissing] at hsight

/-- A pass can fail, and leave a change behind, at a path that steps back from a directory that is not
there: the step finds no file, makes the directory and is stopped by another one. -/
theorem changes_of_step_back :
    let tree : Tree := .directory [("app", .directory [("main.js", .directory [])])]
    let root : Place := ⟨"/app", [.entry "app"]⟩
    let step : Step :=
      ⟨"banner", "new/../main.js", none, .lines (.prependLine "// banner" (.substring "banner"))⟩
    ¬ step.CannotLoad root tree ∧ (∃ failure, (runPass root [step] tree).result = .error failure) ∧
      tree.look ["app", "new"] = .missing ∧
      (runPass root [step] tree).tree.look ["app", "new"] = .directory := by
  intro tree root step
  have hmissing : tree.sight (root.resolve step.file).parts = .missing := by decide +kernel
  refine ⟨fun hload => ?_, ⟨.file "/app/new/../main.js" .isADirectory, by decide +kernel⟩,
    by decide +kernel, by decide +kernel⟩
  have hsight := hload.sight
  simp [hmissing] at hsight

end ProjectSetup
