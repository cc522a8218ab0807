import ProjectSetup.Pattern.Parser
import ProjectSetup.Text.Search

/-!
# Matchers and anchors

A matcher is a test on single lines: it asks for a text or for a pattern.  An anchor is the line
that a matcher accepts and that is nearest to the start of the file, or nearest to its end.
-/

namespace ProjectSetup

/-- A test on single lines. -/
inductive Matcher where
  | substring (needle : String)
  | pattern (pattern : Pattern)
deriving Repr, DecidableEq

namespace Matcher

/-- The matcher accepts the line. -/
def accepts : Matcher → String → Bool
  | substring needle, line => Text.occursIn needle.toList line.toList
  | pattern p, line => p.occursIn line

/-- The matcher as messages show it: the text itself, a pattern between slashes. -/
def display : Matcher → String
  | substring needle => needle
  | pattern p => "/" ++ p.source ++ "/"

/-- The matcher accepts some line. -/
def foundIn (matcher : Matcher) (lines : List String) : Bool :=
  lines.any matcher.accepts

end Matcher

/-- Some line contains one of the texts. -/
def containsAny (lines needles : List String) : Bool :=
  lines.any fun line => needles.any fun needle => Text.occursIn needle.toList line.toList

/-- From which end of a file lines are looked at. -/
inductive Direction where
  | forward
  | backward
deriving Repr, DecidableEq

/-- The index of the last line that the test accepts. -/
def lastIdx? {α : Type} (test : α → Bool) : List α → Option Nat
  | [] => none
  | a :: rest =>
    match lastIdx? test rest with
    | some i => some (i + 1)
    | none => if test a then some 0 else none

/-- A line by what it looks like: the first or the last one that the matcher accepts. -/
structure Anchor where
  matcher : Matcher
  direction : Direction := .forward
deriving Repr, DecidableEq

/-- The index of the anchor line. -/
def Anchor.find? (anchor : Anchor) (lines : List String) : Option Nat :=
  match anchor.direction with
  | .forward => lines.findIdx? anchor.matcher.accepts
  | .backward => lastIdx? anchor.matcher.accepts lines

end ProjectSetup
