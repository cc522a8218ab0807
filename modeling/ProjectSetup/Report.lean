import ProjectSetup.Edited

/-!
# What is reported of a pass

Each step of a pass ends in an event, and the events make up the report; every event also gives a
line of the log.
-/

namespace ProjectSetup

/-- How a step ended. -/
inductive Verdict where
  | applied
  | alreadyApplied
  | skipped (reason : SkipReason)
deriving Repr, DecidableEq

/-- The end of a step. -/
structure Event where
  label : String
  file : String
  verdict : Verdict
deriving Repr, DecidableEq

/-- The ends of the steps of a run, in order. -/
structure Report where
  events : List Event := []
deriving Repr, DecidableEq

namespace Report

/-- How many steps were applied. -/
def applied (report : Report) : Nat :=
  report.events.countP fun event => event.verdict == .applied

/-- How many steps found that they had been applied before. -/
def alreadyApplied (report : Report) : Nat :=
  report.events.countP fun event => event.verdict == .alreadyApplied

/-- Why steps were skipped. -/
def skipped (report : Report) : List SkipReason :=
  report.events.filterMap fun event =>
    match event.verdict with
    | .skipped reason => some reason
    | _ => none

end Report

/-- How much a line of the log matters. -/
inductive LogLevel where
  | info
  | debug
  | warn
deriving Repr, DecidableEq

/-- A line of the log. -/
structure LogLine where
  level : LogLevel
  text : String
deriving Repr, DecidableEq

/-- The line of the log that tells of an event. -/
def Event.logLine (event : Event) : LogLine :=
  match event.verdict with
  | .applied => ⟨.info, event.file ++ ": " ++ event.label⟩
  | .alreadyApplied => ⟨.debug, event.file ++ ": " ++ event.label ++ " already applied"⟩
  | .skipped reason =>
    ⟨.warn, event.file ++ ": skipped " ++ event.label ++ ": " ++ reason.message⟩

end ProjectSetup
