import ProjectSetup.Text.Search

/-!
# Paths

Paths are written with slashes and are not normalised: joining two of them puts a slash between
them unless there is one.  A `Place` is a path as messages show it together with its parts, which
are followed from the root of the file tree: names of entries, and steps to the directory above or
to the same directory.

* `parts_resolve`: a path that is resolved against a place adds the parts of the path to those of
  the place, whatever slashes it starts with or repeats.
-/

namespace ProjectSetup

namespace Path

/-- Two paths one after the other. -/
def join (base name : List Char) : List Char :=
  if base = [] then name
  else if base.getLast? = some '/' then base ++ name
  else base ++ '/' :: name

/-- The path without the steps to the current directory that it starts with. -/
def dropDotSlash : List Char → List Char
  | '.' :: '/' :: rest => dropDotSlash rest
  | path => path

/-- The names between the slashes of a path. -/
def names (path : List Char) : List (List Char) :=
  (Text.pieces (· == '/') path).filter (· != [])

/-- A reversed path without the slashes and the steps to the same directory that it ends with. -/
def dropTail : List Char → List Char
  | '/' :: rest => dropTail rest
  | '.' :: '/' :: rest => dropTail rest
  | path => path

/-- The directory that holds the path. -/
def parent (path : List Char) : List Char :=
  match (dropTail path.reverse).dropWhile (· != '/') with
  | [] => ['.']
  | head =>
    match dropTail head with
    | [] => ['/']
    | dir => dir.reverse

end Path

/-- A part of a path. -/
inductive PathPart where
  /-- The step to the same directory. -/
  | same
  /-- The step to the directory above. -/
  | above
  /-- The step to what has the name in the directory. -/
  | entry (name : String)
deriving Repr, DecidableEq

namespace PathPart

/-- The part that a name in a path stands for. -/
def ofName : List Char → PathPart
  | ['.'] => same
  | ['.', '.'] => above
  | name => entry (String.ofList name)

theorem ofName_eq_above_iff {name : List Char} : ofName name = above ↔ name = ['.', '.'] := by
  unfold ofName
  split <;> simp_all

/-- The names that lead from the root to where the part leads from a directory.  Nothing is above
the root. -/
def applyTo (here : List String) : PathPart → List String
  | same => here
  | above => here.dropLast
  | entry name => here ++ [name]

end PathPart

/-- The parts of a path; a slash at the end stands for a step to the same directory. -/
def Path.parts (path : List Char) : List PathPart :=
  (names path).map .ofName ++ if path.getLast? = some '/' then [.same] else []

/-- A place in the file tree. -/
structure Place where
  /-- The path as messages show it. -/
  shown : String
  /-- The parts of the path from the root of the tree. -/
  parts : List PathPart
deriving Repr, DecidableEq

namespace Place

/-- The place of a path.  It is taken from the root of the tree if it starts with a slash, and else
from the directory that `current` leads to. -/
def ofPath (current : List PathPart) (path : String) : Place where
  shown := path
  parts := if path.toList.head? = some '/' then Path.parts path.toList
    else current ++ Path.parts path.toList

/-- What is called `name` in the place. -/
def join (place : Place) (name : List Char) : Place where
  shown := String.ofList (Path.join place.shown.toList name)
  parts := place.parts ++ [.ofName name]

/-- The place that a path below the given place leads to. -/
def resolve (root : Place) (path : String) : Place :=
  (Path.names (Path.dropDotSlash path.toList)).foldl join root

/-- What is at the path below the place, which is not normalised. -/
def below (place : Place) (path : List Char) : Place where
  shown := String.ofList (Path.join place.shown.toList path)
  parts := place.parts ++ Path.parts path

/-- The place of a path in which a leading `~` stands for the home directory. -/
def expandTilde (home : Place) (current : List PathPart) (path : String) : Place :=
  match path.toList with
  | ['~'] => home.below []
  | '~' :: '/' :: rest => home.below (rest.dropWhile (· == '/'))
  | _ => ofPath current path

/-- The directory of the place as messages show it. -/
def parentShown (place : Place) : String :=
  String.ofList (Path.parent place.shown.toList)

theorem parts_foldl_join (names : List (List Char)) (place : Place) :
    (names.foldl join place).parts = place.parts ++ names.map .ofName := by
  induction names generalizing place with
  | nil => simp
  | cons name names ih => simp [ih, join]

theorem parts_resolve (root : Place) (path : String) :
    (root.resolve path).parts =
      root.parts ++ (Path.names (Path.dropDotSlash path.toList)).map .ofName :=
  parts_foldl_join _ root

end Place

end ProjectSetup
