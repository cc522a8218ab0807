import ProjectSetup.Text.Blank
import ProjectSetup.Text.Search

/-!
# The argument of a call on a line

`CallShape.classify?` looks at the first parenthesis of the first occurrence of a call on a line
and tells three forms of argument apart: none, an object literal that ends on the line, and one
that goes on.  A shape holds the parts that the line is cut into, so that `line` puts it together
again; the byte offsets of the parts follow from their sizes.

* `line_of_classify?`: the parts of a shape make up the line it was found on.
-/

namespace ProjectSetup

/-- A line cut at the argument of a call. -/
inductive CallShape where
  /-- The call has no argument: `before()after`. -/
  | emptyCall (before after : List Char)
  /-- The argument is an object that ends on the line: `before({inner})after`. -/
  | inlineObject (before inner after : List Char)
  /-- The argument is an object that goes on after the line: `before({after`. -/
  | multilineObject (before after : List Char)
deriving Repr, DecidableEq

namespace CallShape

/-- What stands before the parenthesis of the call. -/
def before : CallShape → List Char
  | emptyCall before _ => before
  | inlineObject before _ _ => before
  | multilineObject before _ => before

/-- The line that is cut. -/
def line : CallShape → List Char
  | emptyCall before after => before ++ ['(', ')'] ++ after
  | inlineObject before inner after => before ++ ['(', '\x7b'] ++ inner ++ ['\x7d', ')'] ++ after
  | multilineObject before after => before ++ ['(', '\x7b'] ++ after

/-- The byte offset of the parenthesis. -/
def openOffset (shape : CallShape) : Nat :=
  Text.byteSize shape.before

/-- The byte offset of the brace that closes an object on the line. -/
def closeOffset? : CallShape → Option Nat
  | inlineObject before inner _ => some (Text.byteSize before + 2 + Text.byteSize inner)
  | _ => none

/-- Tells the form of the argument by what follows the parenthesis. -/
def ofArgument? (before : List Char) : List Char → Option CallShape
  | [] => none
  | c :: rest =>
    if c == '\x7b' then
      match Text.splitFirst? ['\x7d', ')'] rest with
      | some (inner, after) => some (.inlineObject before inner after)
      | none => some (.multilineObject before rest)
    else if c == ')' then some (.emptyCall before rest)
    else none

/-- Cuts a line at the argument of the first occurrence of `call`. -/
def classify? (line call : List Char) : Option CallShape := do
  let (before, after) ← Text.splitFirst? call line
  let (inCall, argument) ← Text.splitFirst? ['('] (call ++ after)
  ofArgument? (before ++ inCall) argument

theorem line_of_ofArgument? {before argument : List Char} {shape : CallShape}
    (h : ofArgument? before argument = some shape) : shape.line = before ++ '(' :: argument := by
  unfold ofArgument? at h
  split at h
  · simp at h
  · next c rest =>
    split at h
    · next hc =>
      obtain rfl := beq_iff_eq.1 hc
      split at h
      · next hs =>
        obtain rfl := Option.some.inj h
        simp [line, Text.eq_of_splitFirst? hs]
      · obtain rfl := Option.some.inj h
        simp [line]
    · split at h
      · next hc =>
        obtain rfl := beq_iff_eq.1 hc
        obtain rfl := Option.some.inj h
        simp [line]
      · simp at h

theorem line_of_classify? {text call : List Char} {shape : CallShape}
    (h : classify? text call = some shape) : shape.line = text := by
  obtain ⟨⟨before, after⟩, hcall, h⟩ := Option.bind_eq_some_iff.1 h
  obtain ⟨⟨inCall, argument⟩, hparen, h⟩ := Option.bind_eq_some_iff.1 h
  have hline := Text.eq_of_splitFirst? hcall
  have hrest := Text.eq_of_splitFirst? hparen
  rw [List.append_assoc, hrest] at hline
  rw [line_of_ofArgument? h, hline]
  simp

/-- The object on the line names `key` as a whole word. -/
def names (shape : CallShape) (key : List Char) : Bool :=
  match shape with
  | inlineObject _ inner _ => Text.hasWord key inner
  | _ => false

end CallShape

end ProjectSetup
