import ProjectSetup.Pass
import ProjectSetup.Proofs.Step

/-!
# What a pass does

The steps that a pass reaches make up its trail.  What every step keeps is kept by the pass, also
by one that ends early; and where a pass comes to its end, the text of a file is what the steps on
that file make of it, one after the other.

* `invariant_runSteps`, `established_runSteps`: what is kept, or brought about, along a pass.
* `textOf_runSteps`: the text of a file after a pass; `runSteps_on`: also what is reported of it.
* `changesNothing_iff`: a pass changes nothing if every one of its steps rests.
-/

namespace ProjectSetup

/-- The steps that are reached one after the other, and how each of them ended. -/
def trail (root : Place) (tree : Tree) : List Step → List (Step × Except Failure Verdict)
  | [] => []
  | step :: steps =>
    match step.run root tree with
    | (_, .error failure) => [(step, .error failure)]
    | (tree, .ok verdict) => (step, .ok verdict) :: trail root tree steps

variable {root : Place} {tree : Tree} {here : List String} {steps : List Step} {step : Step}

theorem runSteps_cons_ok {tree' : Tree} {verdict : Verdict}
    (h : step.run root tree = (tree', .ok verdict)) :
    (runSteps root tree (step :: steps)).tree = (runSteps root tree' steps).tree ∧
      (runSteps root tree (step :: steps)).result =
        (runSteps root tree' steps).result.map (⟨step.label, step.file, verdict⟩ :: ·) := by
  rw [runSteps, h]
  exact ⟨rfl, rfl⟩

theorem tree_runPass (root : Place) (steps : List Step) (tree : Tree) :
    (runPass root steps tree).tree = (runSteps root tree steps).tree :=
  rfl

/-- A pass reports what its steps ended in. -/
theorem result_runPass_eq_ok_iff {report : Report} :
    (runPass root steps tree).result = .ok report ↔
      (runSteps root tree steps).result = .ok report.events := by
  rw [runPass]
  cases (runSteps root tree steps).result with
  | error failure => simp [Except.map]
  | ok events =>
    cases report
    simp [Except.map]

theorem runSteps_cons_error {tree' : Tree} {failure : Failure}
    (h : step.run root tree = (tree', .error failure)) :
    runSteps root tree (step :: steps) = ⟨tree', [], .error failure⟩ := by
  rw [runSteps, h]

/-- The first step of a pass that comes to its end, and the steps behind it. -/
theorem exists_of_runSteps_cons {events : List Event}
    (h : (runSteps root tree (step :: steps)).result = .ok events) :
    ∃ mid verdict others, step.run root tree = (mid, .ok verdict) ∧
      (runSteps root mid steps).result = .ok others ∧
      events = ⟨step.label, step.file, verdict⟩ :: others := by
  rcases hrun : step.run root tree with ⟨mid, failure | verdict⟩
  · rw [runSteps_cons_error hrun] at h
    cases h
  · rw [(runSteps_cons_ok hrun).2] at h
    cases hrest : (runSteps root mid steps).result with
    | error failure =>
      rw [hrest] at h
      cases h
    | ok others =>
      rw [hrest] at h
      exact ⟨mid, verdict, others, rfl, hrest, (Except.ok.inj h).symm⟩

theorem trail_cons_ok {tree' : Tree} {verdict : Verdict}
    (h : step.run root tree = (tree', .ok verdict)) :
    trail root tree (step :: steps) = (step, .ok verdict) :: trail root tree' steps := by
  rw [trail, h]

theorem trail_cons_error {tree' : Tree} {failure : Failure}
    (h : step.run root tree = (tree', .error failure)) :
    trail root tree (step :: steps) = [(step, .error failure)] := by
  rw [trail, h]

/-- The first step of a pass is reached. -/
theorem head_mem_trail (root : Place) (tree : Tree) (step : Step) (steps : List Step) :
    (step, (step.run root tree).2) ∈ trail root tree (step :: steps) := by
  rcases hrun : step.run root tree with ⟨tree', failure | verdict⟩
  · rw [trail_cons_error hrun]
    exact List.mem_singleton_self _
  · rw [trail_cons_ok hrun]
    exact List.mem_cons_self ..

/-- The events of a pass that comes to its end tell of its steps, all of which are reached. -/
theorem trail_eq_of_ok {events : List Event} (h : (runSteps root tree steps).result = .ok events) :
    ∃ verdicts : List Verdict, verdicts.length = steps.length ∧
      trail root tree steps = List.zipWith (fun step verdict => (step, .ok verdict)) steps verdicts ∧
      events = List.zipWith (fun step verdict => ⟨step.label, step.file, verdict⟩) steps verdicts := by
  induction steps generalizing tree events with
  | nil =>
    obtain rfl := Except.ok.inj h
    exact ⟨[], rfl, rfl, rfl⟩
  | cons step steps ih =>
    obtain ⟨mid, verdict, others, hrun, hrest, rfl⟩ := exists_of_runSteps_cons h
    obtain ⟨verdicts, hlen, htrail, hevents⟩ := ih hrest
    refine ⟨verdict :: verdicts, by simp [hlen], ?_, ?_⟩
    · rw [trail_cons_ok hrun, htrail, List.zipWith_cons_cons]
    · rw [hevents, List.zipWith_cons_cons]

/-- An event of the report of a pass tells of the step at its place, which is reached. -/
theorem mem_trail_of_event {report : Report} {event : Event} {k : Nat}
    (h : (runPass root steps tree).result = .ok report) (hstep : steps[k]? = some step)
    (hevent : report.events[k]? = some event) :
    event.label = step.label ∧ event.file = step.file ∧
      (step, .ok event.verdict) ∈ trail root tree steps := by
  obtain ⟨verdicts, -, htrail, hevents⟩ := trail_eq_of_ok (result_runPass_eq_ok_iff.1 h)
  rw [hevents, List.getElem?_zipWith, hstep] at hevent
  cases hverdict : verdicts[k]? with
  | none =>
    rw [hverdict] at hevent
    cases hevent
  | some verdict =>
    rw [hverdict] at hevent
    obtain rfl := Option.some.inj hevent
    refine ⟨rfl, rfl, List.mem_of_getElem? (i := k) ?_⟩
    rw [htrail, List.getElem?_zipWith, hstep, hverdict]

/-- The log of a pass tells of the steps that are reached and do not fail. -/
theorem log_eq_trail : (runSteps root tree steps).log =
    (trail root tree steps).filterMap fun (step, result) =>
      result.toOption.map fun verdict => Event.logLine ⟨step.label, step.file, verdict⟩ := by
  induction steps generalizing tree with
  | nil => rfl
  | cons step steps ih =>
    rcases hrun : step.run root tree with ⟨tree', failure | verdict⟩
    · rw [runSteps_cons_error hrun, trail_cons_error hrun]
      rfl
    · rw [trail_cons_ok hrun, List.filterMap_cons, ← ih, runSteps, hrun]
      rfl

/-! ### What is kept along a pass -/

/-- What every step keeps is kept. -/
theorem invariant_runSteps {P : Tree → Prop}
    (hstep : ∀ step ∈ steps, ∀ tree, P tree → P (step.run root tree).1) (h : P tree) :
    P (runSteps root tree steps).tree := by
  induction steps generalizing tree with
  | nil => exact h
  | cons step steps ih =>
    have hnext := hstep step (by simp) tree h
    rcases hrun : step.run root tree with ⟨tree', failure | verdict⟩
    · rw [hrun] at hnext
      rw [runSteps_cons_error hrun]
      exact hnext
    · rw [hrun] at hnext
      rw [(runSteps_cons_ok hrun).1]
      exact ih (fun s hs => hstep s (List.mem_cons_of_mem _ hs)) hnext

/-- Every step that is reached ran on a tree with all that the steps keep. -/
theorem exists_of_mem_trail {P : Tree → Prop}
    (hstep : ∀ step ∈ steps, ∀ tree, P tree → P (step.run root tree).1) (h : P tree)
    {result : Except Failure Verdict} (hmem : (step, result) ∈ trail root tree steps) :
    step ∈ steps ∧ ∃ mid, P mid ∧ (step.run root mid).2 = result := by
  induction steps generalizing tree with
  | nil => cases hmem
  | cons first steps ih =>
    have hnext := hstep first (by simp) tree h
    rcases hrun : first.run root tree with ⟨tree', failure | verdict⟩
    · rw [trail_cons_error hrun] at hmem
      obtain ⟨rfl, rfl⟩ := Prod.mk.inj (List.mem_singleton.1 hmem)
      exact ⟨by simp, tree, h, by rw [hrun]⟩
    · rw [hrun] at hnext
      rw [trail_cons_ok hrun] at hmem
      rcases List.mem_cons.1 hmem with heq | hmem
      · obtain ⟨rfl, rfl⟩ := Prod.mk.inj heq
        exact ⟨by simp, tree, h, by rw [hrun]⟩
      · obtain ⟨hin, hmid⟩ := ih (fun s hs => hstep s (List.mem_cons_of_mem _ hs)) hnext hmem
        exact ⟨List.mem_cons_of_mem _ hin, hmid⟩

/-- What a step brings about when it ends in a certain way, and every step keeps, holds at the end
of a pass that reaches the step and in which it ends in that way. -/
theorem established_runSteps {P Q : Tree → Prop}
    (hP : ∀ step ∈ steps, ∀ tree, P tree → P (step.run root tree).1)
    (hQ : ∀ step ∈ steps, ∀ tree, P tree → Q tree → Q (step.run root tree).1)
    {result : Except Failure Verdict}
    (hstart : ∀ tree, P tree → (step.run root tree).2 = result → Q (step.run root tree).1)
    (h : P tree) (hmem : (step, result) ∈ trail root tree steps) :
    Q (runSteps root tree steps).tree := by
  induction steps generalizing tree with
  | nil => cases hmem
  | cons first steps ih =>
    have hnext := hP first (by simp) tree h
    have hP' : ∀ step ∈ steps, ∀ tree, P tree → P (step.run root tree).1 :=
      fun s hs => hP s (List.mem_cons_of_mem _ hs)
    have hQ' : ∀ step ∈ steps, ∀ tree, P tree → Q tree → Q (step.run root tree).1 :=
      fun s hs => hQ s (List.mem_cons_of_mem _ hs)
    rcases hrun : first.run root tree with ⟨tree', failure | verdict⟩
    · rw [trail_cons_error hrun] at hmem
      obtain ⟨rfl, rfl⟩ := Prod.mk.inj (List.mem_singleton.1 hmem)
      rw [runSteps_cons_error hrun]
      have := hstart tree h (by rw [hrun])
      rwa [hrun] at this
    · rw [hrun] at hnext
      rw [trail_cons_ok hrun] at hmem
      rw [(runSteps_cons_ok hrun).1]
      rcases List.mem_cons.1 hmem with heq | hmem
      · obtain ⟨rfl, rfl⟩ := Prod.mk.inj heq
        have hthere := hstart tree h (by rw [hrun])
        rw [hrun] at hthere
        have hboth : P (runSteps root tree' steps).tree ∧ Q (runSteps root tree' steps).tree :=
          invariant_runSteps (P := fun tree => P tree ∧ Q tree)
            (fun s hs tree h => ⟨hP' s hs tree h.1, hQ' s hs tree h.1 h.2⟩) ⟨hnext, hthere⟩
        exact hboth.2
      · exact ih hP' hQ' hnext hmem

theorem leadsTo_runSteps (hfiles : ∀ step ∈ steps, step.file ∈ Plan.files)
    (hlead : tree.LeadsTo root.parts here) :
    (runSteps root tree steps).tree.LeadsTo root.parts here :=
  invariant_runSteps (P := fun tree => tree.LeadsTo root.parts here)
    (fun step hstep _ hlead => (frame_run hlead (hfiles step hstep)).leadsTo) hlead

/-! ### A file after a pass -/

/-- The text of a file after an edit on it. -/
def FileEdit.textAfter (edit : FileEdit) (text? : Option String) : Option String :=
  match edit.onText text? with
  | .rewritten text => some text
  | _ => text?

/-- The text of the file of a step after the step. -/
def Step.textAfter (step : Step) (text? : Option String) : Option String :=
  if step.requires.isSome && text?.isNone then none else step.edit.textAfter text?

/-- The text of a file after the steps on it. -/
def textThrough (file : String) (steps : List Step) (text? : Option String) : Option String :=
  steps.foldl (fun text? step => if step.file = file then step.textAfter text? else text?) text?

/-- The step needs at most its own file. -/
def Step.NeedsOwn (step : Step) : Prop :=
  ∀ file, step.requires = some file → file = step.file

/-- Steps on other files leave the text of a file alone. -/
theorem textThrough_filter (file : String) (steps : List Step) (text? : Option String) :
    textThrough file (steps.filter fun step => step.file = file) text? =
      textThrough file steps text? := by
  unfold textThrough
  rw [List.foldl_filter]
  congr 1
  funext text? step
  by_cases h : step.file = file <;> simp [h]

theorem Step.textAfter_some (step : Step) (text : String) :
    step.textAfter (some text) = step.edit.textAfter (some text) := by
  rw [Step.textAfter, Option.isNone_some, Bool.and_false]
  rfl

/-- No edit takes a file away. -/
theorem FileEdit.exists_textAfter (edit : FileEdit) (text : String) :
    ∃ new, edit.textAfter (some text) = some new := by
  rw [FileEdit.textAfter]
  split
  · exact ⟨_, rfl⟩
  · exact ⟨text, rfl⟩

theorem exists_textThrough (file : String) (steps : List Step) (text : String) :
    ∃ new, textThrough file steps (some text) = some new := by
  induction steps generalizing text with
  | nil => exact ⟨text, rfl⟩
  | cons step steps ih =>
    rw [textThrough, List.foldl_cons]
    split_ifs
    · obtain ⟨new, hnew⟩ := step.edit.exists_textAfter text
      rw [Step.textAfter_some, hnew]
      exact ih new
    · exact ih text

theorem missingFile?_eq {text? : Option String} (hown : step.NeedsOwn)
    (htext : tree.textOf root step.file = .ok text?) :
    step.missingFile? root tree =
      if step.requires.isSome && text?.isNone then some step.file else none := by
  rw [Step.missingFile?]
  cases hreq : step.requires with
  | none => rfl
  | some file =>
    obtain rfl := hown file hreq
    rw [Option.filter, Tree.has_of_textOf htext]
    cases text? <;> rfl

/-- How a step ends by the text of its file. -/
def Step.verdictOn (step : Step) (text? : Option String) : Verdict :=
  if step.requires.isSome && text?.isNone then .skipped (.prerequisiteMissing step.file)
  else
    match step.edit.onText text? with
    | .rewritten _ => .applied
    | .alreadyApplied => .alreadyApplied
    | .skipped reason => .skipped reason

theorem Step.verdictOn_of_rewritten {step : Step} {old new : String}
    (h : step.edit.onText (some old) = .rewritten new) : step.verdictOn (some old) = .applied := by
  rw [Step.verdictOn, Option.isNone_some, Bool.and_false, if_neg Bool.false_ne_true, h]

/-- A step that does not fail leaves a text and ends in a way that both depend on the text of its
file alone. -/
theorem textOf_run {verdict : Verdict} {text? : Option String} (hown : step.NeedsOwn)
    (hfile : step.file ∈ Plan.files) (hlead : tree.LeadsTo root.parts here)
    (hok : (step.run root tree).2 = .ok verdict) (htext : tree.textOf root step.file = .ok text?) :
    (step.run root tree).1.textOf root step.file = .ok (step.textAfter text?) ∧
      verdict = step.verdictOn text? := by
  have hmissing := missingFile?_eq hown htext
  have hout := outcome_run hlead hfile
  rw [Step.textAfter, Step.verdictOn]
  generalize step.run root tree = run at hout hok
  cases hout with
  | unread => cases hok
  | unwritten => cases hok
  | lacking hlack =>
    obtain rfl := Except.ok.inj hok
    rw [hlack] at hmissing
    split_ifs at hmissing with hcond
    rw [if_pos hcond, if_pos hcond, htext, Option.some.inj hmissing]
    rw [Bool.and_eq_true, Option.isNone_iff_eq_none] at hcond
    rw [hcond.2]
    exact ⟨rfl, rfl⟩
  | skipped hlack htext' hedit =>
    obtain rfl := Except.ok.inj hok
    rw [hlack] at hmissing
    rw [htext] at htext'
    obtain rfl := Except.ok.inj htext'
    split_ifs at hmissing with hcond
    rw [if_neg hcond, if_neg hcond, htext, FileEdit.textAfter, hedit]
    exact ⟨rfl, rfl⟩
  | inPlace hlack htext' hedit =>
    obtain rfl := Except.ok.inj hok
    rw [hlack] at hmissing
    rw [htext] at htext'
    obtain rfl := Except.ok.inj htext'
    split_ifs at hmissing with hcond
    rw [if_neg hcond, if_neg hcond, htext, FileEdit.textAfter, hedit]
    exact ⟨rfl, rfl⟩
  | written hlack htext' hedit hnew =>
    obtain rfl := Except.ok.inj hok
    rw [hlack] at hmissing
    rw [htext] at htext'
    obtain rfl := Except.ok.inj htext'
    split_ifs at hmissing with hcond
    rw [if_neg hcond, if_neg hcond, hnew, FileEdit.textAfter, hedit]
    exact ⟨rfl, rfl⟩

/-- What is reported of the steps on a file, each of which has its text from the one before. -/
def eventsThrough (file : String) : List Step → Option String → List Event
  | [], _ => []
  | step :: steps, text? =>
    if step.file = file then
      ⟨step.label, step.file, step.verdictOn text?⟩ ::
        eventsThrough file steps (step.textAfter text?)
    else eventsThrough file steps text?

/-- Nothing is reported of a file by the steps on other files. -/
theorem eventsThrough_filter (file : String) (steps : List Step) (text? : Option String) :
    eventsThrough file (steps.filter fun step => step.file = file) text? =
      eventsThrough file steps text? := by
  induction steps generalizing text? with
  | nil => rfl
  | cons step steps ih =>
    rw [List.filter_cons, eventsThrough]
    by_cases h : step.file = file
    · rw [if_pos (decide_eq_true h), eventsThrough, if_pos h, if_pos h, ih]
    · rw [if_neg (by simpa using h), if_neg h, ih]

/-- **What a pass makes of a file** when it comes to its end, and what it reports of it: both depend
on the text that the file had. -/
theorem runSteps_on {file : String} {text? : Option String} {events : List Event}
    (hown : ∀ step ∈ steps, step.NeedsOwn) (hfiles : ∀ step ∈ steps, step.file ∈ Plan.files)
    (hfile : file ∈ Plan.files) (hlead : tree.LeadsTo root.parts here)
    (hok : (runSteps root tree steps).result = .ok events)
    (htext : tree.textOf root file = .ok text?) :
    (runSteps root tree steps).tree.textOf root file = .ok (textThrough file steps text?) ∧
      events.filter (fun event => event.file = file) = eventsThrough file steps text? := by
  induction steps generalizing tree text? events with
  | nil =>
    obtain rfl := Except.ok.inj hok
    exact ⟨htext, rfl⟩
  | cons step steps ih =>
    have hframe := frame_run hlead (hfiles step (by simp))
    obtain ⟨mid, verdict, others, hrun, hrest, rfl⟩ := exists_of_runSteps_cons hok
    rw [hrun] at hframe
    have hnext : ∀ {text? : Option String}, mid.textOf root file = .ok text? →
        (runSteps root mid steps).tree.textOf root file = .ok (textThrough file steps text?) ∧
          others.filter (fun event => event.file = file) = eventsThrough file steps text? :=
      ih (fun s hs => hown s (List.mem_cons_of_mem _ hs))
        (fun s hs => hfiles s (List.mem_cons_of_mem _ hs)) hframe.leadsTo hrest
    rw [(runSteps_cons_ok hrun).1, textThrough, List.foldl_cons, eventsThrough, List.filter_cons]
    by_cases heq : step.file = file
    · subst heq
      obtain ⟨htext', hverdict⟩ :=
        textOf_run (hown step (by simp)) hfile hlead (by rw [hrun]) htext
      rw [hrun] at htext'
      obtain ⟨hend, hothers⟩ := hnext htext'
      rw [if_pos rfl, if_pos rfl, if_pos (decide_eq_true rfl), hothers, hverdict]
      exact ⟨hend, rfl⟩
    · have htext' : mid.textOf root file = .ok text? := by
        rw [hframe.textOf hfile (Ne.symm heq), htext]
      rw [if_neg heq, if_neg heq, if_neg (by simpa using heq)]
      exact hnext htext'

/-- **The text of a file after a pass** that comes to its end. -/
theorem textOf_runSteps {file : String} {text? : Option String} {events : List Event}
    (hown : ∀ step ∈ steps, step.NeedsOwn) (hfiles : ∀ step ∈ steps, step.file ∈ Plan.files)
    (hfile : file ∈ Plan.files) (hlead : tree.LeadsTo root.parts here)
    (hok : (runSteps root tree steps).result = .ok events)
    (htext : tree.textOf root file = .ok text?) :
    (runSteps root tree steps).tree.textOf root file = .ok (textThrough file steps text?) :=
  (runSteps_on hown hfiles hfile hlead hok htext).1

/-- The step needs its file, which is not there. -/
def Step.Lacks (root : Place) (tree : Tree) (step : Step) : Prop :=
  step.requires = some step.file ∧ tree.has (root.resolve step.file).parts = false

theorem run_of_lacks (h : step.Lacks root tree) :
    step.run root tree = (tree, .ok (.skipped (.prerequisiteMissing step.file))) := by
  have hmissing : step.missingFile? root tree = some step.file := by
    rw [Step.missingFile?, h.1, Option.filter, h.2]
    rfl
  rw [Step.run, hmissing]

/-- A step that does not fail has read its file, or lacks it. -/
theorem textOf_or_lacks_of_run {verdict : Verdict} (hown : step.NeedsOwn)
    (hfile : step.file ∈ Plan.files) (hlead : tree.LeadsTo root.parts here)
    (hok : (step.run root tree).2 = .ok verdict) :
    (∃ text?, tree.textOf root step.file = .ok text?) ∨ step.Lacks root tree := by
  have hout := outcome_run hlead hfile
  generalize step.run root tree = run at hout hok
  cases hout with
  | unread => cases hok
  | unwritten => cases hok
  | @lacking file hlack =>
    rw [Step.missingFile?, Option.filter_eq_some_iff, Bool.not_eq_true'] at hlack
    obtain ⟨hreq, hgone⟩ := hlack
    obtain rfl := hown file hreq
    exact .inr ⟨hreq, hgone⟩
  | skipped _ htext => exact .inl ⟨_, htext⟩
  | inPlace _ htext => exact .inl ⟨_, htext⟩
  | written _ htext => exact .inl ⟨_, htext⟩

/-- Every step of a pass that comes to its end could have read its file at the start, or lacked
it there. -/
theorem textOf_or_lacks {events : List Event} (hown : ∀ step ∈ steps, step.NeedsOwn)
    (hfiles : ∀ step ∈ steps, step.file ∈ Plan.files) (hlead : tree.LeadsTo root.parts here)
    (hok : (runSteps root tree steps).result = .ok events) (hstep : step ∈ steps) :
    (∃ text?, tree.textOf root step.file = .ok text?) ∨ step.Lacks root tree := by
  induction steps generalizing tree events with
  | nil => cases hstep
  | cons first steps ih =>
    have hfirst := hfiles first (by simp)
    obtain ⟨mid, verdict, others, hrun, hrest, -⟩ := exists_of_runSteps_cons hok
    have hread := textOf_or_lacks_of_run (hown first (by simp)) hfirst hlead (by rw [hrun])
    rcases List.mem_cons.1 hstep with rfl | hstep
    · exact hread
    have hframe := frame_run hlead hfirst
    rw [hrun] at hframe
    have hlater := ih (fun s hs => hown s (List.mem_cons_of_mem _ hs))
      (fun s hs => hfiles s (List.mem_cons_of_mem _ hs)) hframe.leadsTo hrest hstep
    by_cases hsame : step.file = first.file
    · rcases hread with hread | hlacks
      · rw [hsame]
        exact .inl hread
      · rw [run_of_lacks hlacks] at hrun
        obtain ⟨rfl, -⟩ := Prod.mk.inj hrun
        exact hlater
    · have hmem := hfiles step (List.mem_cons_of_mem _ hstep)
      have hsight := hframe.sightOf step.file hmem hsame
      rw [hframe.textOf hmem hsame, Step.Lacks, Tree.has_of_sightOf hsight] at hlater
      exact hlater

/-- A file that is not there is still not there after steps that need the file they edit. -/
theorem has_runSteps {file : String} (hfile : file ∈ Plan.files)
    (hfiles : ∀ step ∈ steps, step.file ∈ Plan.files)
    (hreq : ∀ step ∈ steps, step.file = file → step.requires = some step.file)
    (hlead : tree.LeadsTo root.parts here) (h : tree.has (root.resolve file).parts = false) :
    (runSteps root tree steps).tree.has (root.resolve file).parts = false := by
  have hboth : (runSteps root tree steps).tree.LeadsTo root.parts here ∧
      (runSteps root tree steps).tree.has (root.resolve file).parts = false := by
    refine invariant_runSteps (P := fun tree => tree.LeadsTo root.parts here ∧
      tree.has (root.resolve file).parts = false) (fun step hstep tree h => ?_) ⟨hlead, h⟩
    have hframe := frame_run h.1 (hfiles step hstep)
    refine ⟨hframe.leadsTo, ?_⟩
    by_cases hsame : step.file = file
    · have hlacks : step.Lacks root tree := ⟨hreq step hstep hsame, by rw [hsame]; exact h.2⟩
      rw [run_of_lacks hlacks]
      exact h.2
    · rw [Tree.has_of_sightOf (hframe.sightOf file hfile (Ne.symm hsame))]
      exact h.2
  exact hboth.2

/-! ### Passes that change nothing -/

/-- The step leaves the tree as it is: it finds nothing left to do, or is skipped. -/
def Step.Rests (root : Place) (tree : Tree) (step : Step) : Prop :=
  ∃ verdict, verdict ≠ .applied ∧ step.run root tree = (tree, .ok verdict)

/-- The edit leaves the text of a file as it is. -/
def FileEdit.Idle (edit : FileEdit) (text? : Option String) : Prop :=
  ∀ text, edit.onText text? ≠ .rewritten text

theorem FileEdit.Idle.textAfter {edit : FileEdit} {text? : Option String} (h : edit.Idle text?) :
    edit.textAfter text? = text? := by
  rw [FileEdit.textAfter]
  cases hedit : edit.onText text? with
  | rewritten text => exact absurd hedit (h text)
  | alreadyApplied => rfl
  | skipped => rfl

theorem FileEdit.textAfter_of_rewritten {edit : FileEdit} {text? : Option String} {text : String}
    (h : edit.onText text? = .rewritten text) : edit.textAfter text? = some text := by
  rw [FileEdit.textAfter, h]

theorem rests_of_not_applied {verdict : Verdict} (hlead : tree.LeadsTo root.parts here)
    (hfile : step.file ∈ Plan.files) (hok : (step.run root tree).2 = .ok verdict)
    (hne : verdict ≠ .applied) : step.Rests root tree := by
  have hout := outcome_run hlead hfile
  rw [Step.Rests]
  generalize step.run root tree = run at hout hok
  cases hout with
  | unread => cases hok
  | unwritten => cases hok
  | lacking => exact ⟨_, by simp, rfl⟩
  | skipped => exact ⟨_, by simp, rfl⟩
  | inPlace => exact ⟨_, by simp, rfl⟩
  | written => exact absurd (Except.ok.inj hok).symm hne

/-- A step rests if it lacks its file, or if its edit leaves the text as it is. -/
theorem rests_iff {text? : Option String} (hlead : tree.LeadsTo root.parts here)
    (hfile : step.file ∈ Plan.files) (hown : step.NeedsOwn)
    (htext : tree.textOf root step.file = .ok text?) :
    step.Rests root tree ↔
      (step.requires.isSome = true ∧ text? = none) ∨ step.edit.Idle text? := by
  have hmissing := missingFile?_eq hown htext
  have hcond : (step.requires.isSome && text?.isNone) = true ↔
      step.requires.isSome = true ∧ text? = none := by
    rw [Bool.and_eq_true, Option.isNone_iff_eq_none]
  have hrewrites : ∀ {old : Option String} {text : String}, step.missingFile? root tree = none →
      tree.textOf root step.file = .ok old → step.edit.onText old = .rewritten text →
      ¬ ((step.requires.isSome = true ∧ text? = none) ∨ step.edit.Idle text?) := by
    intro old text hlack htext' hedit
    rw [hlack] at hmissing
    rw [htext] at htext'
    obtain rfl := Except.ok.inj htext'
    split_ifs at hmissing with hc
    rw [← hcond]
    rintro (hc' | hidle)
    · exact hc hc'
    · exact hidle text hedit
  have hidle : ∀ {old : Option String}, tree.textOf root step.file = .ok old →
      (∀ text, step.edit.onText old ≠ .rewritten text) → step.edit.Idle text? := by
    intro old htext' hedit
    rw [htext] at htext'
    obtain rfl := Except.ok.inj htext'
    exact hedit
  have hout := outcome_run hlead hfile
  rw [Step.Rests]
  generalize step.run root tree = run at hout
  cases hout with
  | unread hfail =>
    rw [htext] at hfail
    cases hfail
  | unwritten hlack htext' hedit _ =>
    refine ⟨?_, fun h => absurd h (hrewrites hlack htext' hedit)⟩
    rintro ⟨verdict, -, heq⟩
    cases (Prod.mk.inj heq).2
  | lacking hlack =>
    rw [hlack] at hmissing
    split_ifs at hmissing with hc
    exact ⟨fun _ => .inl (hcond.1 hc), fun _ => ⟨_, by simp, rfl⟩⟩
  | skipped hlack htext' hedit =>
    have := hidle htext' fun text h => by (rw [hedit] at h; cases h)
    exact ⟨fun _ => .inr this, fun _ => ⟨_, by simp, rfl⟩⟩
  | inPlace hlack htext' hedit =>
    have := hidle htext' fun text h => by (rw [hedit] at h; cases h)
    exact ⟨fun _ => .inr this, fun _ => ⟨_, by simp, rfl⟩⟩
  | written hlack htext' hedit hnew =>
    refine ⟨?_, fun h => absurd h (hrewrites hlack htext' hedit)⟩
    rintro ⟨verdict, hne, heq⟩
    exact absurd (Except.ok.inj (Prod.mk.inj heq).2).symm hne

theorem rests_of_lacks (h : step.Lacks root tree) : step.Rests root tree :=
  ⟨_, by simp, run_of_lacks h⟩

/-- **A pass changes nothing** if every one of its steps rests. -/
theorem changesNothing_iff (hfiles : ∀ step ∈ steps, step.file ∈ Plan.files)
    (hlead : tree.LeadsTo root.parts here) :
    ((∃ events, (runSteps root tree steps).result = .ok events ∧
        ∀ event ∈ events, event.verdict ≠ .applied) ∧ (runSteps root tree steps).tree = tree) ↔
      ∀ step ∈ steps, step.Rests root tree := by
  induction steps with
  | nil => simp [runSteps]
  | cons step steps ih =>
    have hrest := ih fun s hs => hfiles s (List.mem_cons_of_mem _ hs)
    constructor
    · rintro ⟨⟨events, hok, hverdicts⟩, htree⟩
      obtain ⟨mid, verdict, others, hrun, hothers, rfl⟩ := exists_of_runSteps_cons hok
      have hfirst : step.Rests root tree :=
        rests_of_not_applied hlead (hfiles step (by simp)) (by rw [hrun])
          (hverdicts ⟨step.label, step.file, verdict⟩ (by simp))
      obtain rfl : tree = mid := by
        obtain ⟨verdict', -, hsame⟩ := hfirst
        rw [hrun] at hsame
        exact (Prod.mk.inj hsame).1.symm
      rw [(runSteps_cons_ok hrun).1] at htree
      have hall := hrest.1 ⟨⟨others, hothers, fun e he => hverdicts e (by simp [he])⟩, htree⟩
      exact List.forall_mem_cons.2 ⟨hfirst, hall⟩
    · intro hall
      obtain ⟨verdict, hne, hrun⟩ := hall step (by simp)
      obtain ⟨⟨events, hok, hverdicts⟩, htree⟩ :=
        hrest.2 fun s hs => hall s (List.mem_cons_of_mem _ hs)
      rw [(runSteps_cons_ok hrun).1, (runSteps_cons_ok hrun).2, hok]
      refine ⟨⟨_, rfl, fun event hevent => ?_⟩, htree⟩
      rcases List.mem_cons.1 hevent with rfl | hevent
      · exact hne
      · exact hverdicts event hevent

end ProjectSetup
