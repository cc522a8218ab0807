import ProjectSetup.Text.Blank

/-!
# Patterns: matching a line

A pattern is a regular expression with the anchors `^` and `$`, which hold at the two ends of the
text only.  `Expr.after` gives, for an expression set at some spot of a text, every spot that it
may lead to; a pattern occurs in a line when it leads anywhere from some spot of it.

Only whether a pattern occurs matters, so which of several matches is preferred plays no part.
A star goes round at most as often as there are characters left, since a round that uses up no
character adds nothing; the star of a set of characters, `many`, is a constructor of its own.
-/

namespace ProjectSetup

namespace Pattern

/-- What a set of characters is made of. -/
inductive Item where
  | range (low high : Char)
  | blank
  | nonBlank
deriving Repr, DecidableEq

/-- The character belongs to the item. -/
def Item.has (c : Char) : Item → Bool
  | range low high => low ≤ c && c ≤ high
  | blank => Text.isBlank c
  | nonBlank => !Text.isBlank c

/-- A set of characters: those that belong to one of the items, or those that belong to none. -/
structure CharSet where
  negated : Bool
  items : List Item
deriving Repr, DecidableEq

/-- The character belongs to the set. -/
def CharSet.has (set : CharSet) (c : Char) : Bool :=
  set.items.any (Item.has c) != set.negated

/-- The set of one character. -/
def CharSet.single (c : Char) : CharSet :=
  ⟨false, [.range c c]⟩

/-- Every character but the line feed. -/
def CharSet.notLineFeed : CharSet :=
  ⟨true, [.range '\n' '\n']⟩

/-- The blank characters. -/
def CharSet.blanks : CharSet :=
  ⟨false, [.blank]⟩

/-- A regular expression with anchors. -/
inductive Expr where
  | empty
  | one (set : CharSet)
  | many (set : CharSet)
  | seq (first second : Expr)
  | alt (left right : Expr)
  | star (body : Expr)
  | start
  | stop
deriving Repr, DecidableEq

/-- A spot in a text: what is left from there, and whether it is the start of the text. -/
structure Spot where
  atStart : Bool
  rest : List Char
deriving Repr, DecidableEq

/-- The spots behind the first characters of the text as long as they belong to the set. -/
def CharSet.run (set : CharSet) : List Char → List Spot
  | [] => []
  | c :: rest => if set.has c then ⟨false, rest⟩ :: set.run rest else []

/-- The spots that any number of rounds of `step` may lead to, of which only those are gone on
with that use up some of the text. -/
def rounds (step : Spot → List Spot) : Nat → Spot → List Spot
  | 0, spot => [spot]
  | n + 1, spot =>
    spot :: (step spot).flatMap fun next =>
      if next.rest.length < spot.rest.length then rounds step n next else []

/-- The spots that the expression may lead to from a spot. -/
def Expr.after : Expr → Spot → List Spot
  | empty, spot => [spot]
  | one set, spot =>
    match spot.rest with
    | [] => []
    | c :: rest => if set.has c then [⟨false, rest⟩] else []
  | many set, spot => spot :: set.run spot.rest
  | seq first second, spot => (first.after spot).flatMap second.after
  | alt left right, spot => left.after spot ++ right.after spot
  | star body, spot => rounds body.after spot.rest.length spot
  | start, spot => if spot.atStart then [spot] else []
  | stop, spot => if spot.rest.isEmpty then [spot] else []

/-- The expression matches at the spot. -/
def Expr.matchesAt (expr : Expr) (spot : Spot) : Bool :=
  !(expr.after spot).isEmpty

/-- The expression matches somewhere behind the start of a text. -/
def Expr.matchesBehind (expr : Expr) : List Char → Bool
  | [] => false
  | _ :: rest => expr.matchesAt ⟨false, rest⟩ || expr.matchesBehind rest

/-- The expressions one after the other. -/
def Expr.all (parts : List Expr) : Expr :=
  parts.foldr .seq .empty

/-- The expressions that match the characters of a text. -/
def literal (text : String) : List Expr :=
  text.toList.map fun c => .one (.single c)

end Pattern

/-- A pattern: a regular expression and the text it was written as. -/
structure Pattern where
  source : String
  expr : Pattern.Expr
deriving Repr, DecidableEq

/-- The pattern occurs somewhere in the line. -/
def Pattern.occursIn (pattern : Pattern) (line : String) : Bool :=
  pattern.expr.matchesAt ⟨true, line.toList⟩ || pattern.expr.matchesBehind line.toList

end ProjectSetup
