import ProjectSetup.Step

/-!
# Passes over a project

A pass takes steps one after the other.  A step that cannot read or write its file ends the pass,
and what the steps before it wrote stays.
-/

namespace ProjectSetup

/-- A run over a tree: the tree it left, what it logged, and what came of it. -/
structure Run (α : Type) where
  tree : Tree
  log : List LogLine
  result : Except Failure α

/-- Runs the steps one after the other. -/
def runSteps (root : Place) (tree : Tree) : List Step → Run (List Event)
  | [] => ⟨tree, [], .ok []⟩
  | step :: steps =>
    match step.run root tree with
    | (tree, .error failure) => ⟨tree, [], .error failure⟩
    | (tree, .ok verdict) =>
      let event : Event := ⟨step.label, step.file, verdict⟩
      let others := runSteps root tree steps
      ⟨others.tree, event.logLine :: others.log, others.result.map (event :: ·)⟩

/-- Runs the steps and reports how each of them ended. -/
def runPass (root : Place) (steps : List Step) (tree : Tree) : Run Report :=
  let run := runSteps root tree steps
  ⟨run.tree, run.log, run.result.map Report.mk⟩

end ProjectSetup
