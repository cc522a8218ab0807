import ProjectSetup.Path
import ProjectSetup.Tree

/-!
# Following paths through a tree

The parts of a path are followed from the root of a tree.  Every part is a step on from a
directory, also the step to the same directory and the step to the one above; where the path steps
on from a file or from what is not there, it leads nowhere.

`putFile` writes a file at the end of a path.  First it makes the directories that the path leads
through, and those stay even if the file then cannot be written.

* `follow_append`: a path is followed part after part.
* `sight_entries`: a path of names alone leads to what stands where the names lead.
-/

namespace ProjectSetup

/-- What a path steps on from, where it leads nowhere. -/
inductive Obstacle where
  | missing
  | file
deriving Repr, DecidableEq

namespace Tree

/-- The names that lead to where the parts lead from the directory `here`.  What the last part
leads to need not be there. -/
def follow (tree : Tree) (here : List String) : List PathPart → Except Obstacle (List String)
  | [] => .ok here
  | part :: parts =>
    match tree.look here with
    | .directory => tree.follow (part.applyTo here) parts
    | .missing => .error .missing
    | .file _ | .belowFile => .error .file

/-- What stands where the parts lead from the directory `here`. -/
def sightFrom (tree : Tree) (here : List String) (parts : List PathPart) : Sight :=
  match tree.follow here parts with
  | .ok names => tree.look names
  | .error .missing => .missing
  | .error .file => .belowFile

/-- What stands at the end of a path. -/
def sight (tree : Tree) (parts : List PathPart) : Sight :=
  tree.sightFrom [] parts

/-- Something stands at the end of a path. -/
def has (tree : Tree) (parts : List PathPart) : Bool :=
  match tree.sight parts with
  | .file _ | .directory => true
  | .missing | .belowFile => false

/-- The path without the steps to the same directory that it ends with. -/
def dropSame (parts : List PathPart) : List PathPart :=
  (parts.reverse.dropWhile (· == .same)).reverse

/-- The path of the directory that holds the end of a path. -/
def holder (parts : List PathPart) : List PathPart :=
  dropSame (dropSame parts).dropLast

/-- Makes the directories that are not there on a path from the directory `here`.  A file at the
end of the path stands in the place of a directory to be made; so does every file behind a
directory that was made, because from there on each is made after the one before it. -/
def makeWay (tree : Tree) (made : Bool) (here : List String) :
    List PathPart → Tree × Except WriteFault Unit
  | [] => (tree, .ok ())
  | .same :: parts => makeWay tree made here parts
  | .above :: parts => makeWay tree made here.dropLast parts
  | .entry name :: parts =>
    let next := here ++ [name]
    match tree.look next with
    | .directory => makeWay tree made next parts
    | .missing => makeWay (tree.makeDirectory next) true next parts
    | .file _ | .belowFile =>
      (tree, .error (if made || parts.isEmpty then .parentIsFile else .ancestorIsFile))

/-- Writes a file at the end of a path whose directory is there. -/
def putEntry (tree : Tree) (content : Content) (parts : List PathPart) :
    Except WriteFault Tree :=
  match tree.follow [] parts, parts.getLast? with
  | .error .missing, _ => .error .throughNothing
  | .error .file, _ => .error .throughFile
  | .ok _, some .same | .ok _, some .above => .error .unnamed
  | .ok names, _ => tree.write content names

/-- Writes a file at the end of a path and makes the directories that lead to it. -/
def putFile (tree : Tree) (content : Content) (parts : List PathPart) :
    Tree × Except WriteFault Unit :=
  match tree.makeWay false [] (holder parts) with
  | (tree, .error fault) => (tree, .error fault)
  | (tree, .ok ()) =>
    match tree.putEntry content parts with
    | .error fault => (tree, .error fault)
    | .ok tree => (tree, .ok ())

/-! ### Paths that are only names -/

theorem look_append_of_missing {tree : Tree} {here : List String} (names : List String)
    (h : tree.look here = .missing) : tree.look (here ++ names) = .missing := by
  fun_induction look tree here <;> simp_all [look]

theorem look_append_of_belowFile {tree : Tree} {here : List String} (names : List String)
    (h : tree.look here = .belowFile) : tree.look (here ++ names) = .belowFile := by
  fun_induction look tree here <;> simp_all [look]

theorem look_append_of_file {tree : Tree} {here : List String} {content : Content}
    (name : String) (names : List String) (h : tree.look here = .file content) :
    tree.look (here ++ name :: names) = .belowFile := by
  fun_induction look tree here <;> simp_all [look]

theorem follow_append (tree : Tree) (here : List String) (front back : List PathPart) :
    tree.follow here (front ++ back) =
      (tree.follow here front).bind fun names => tree.follow names back := by
  induction front generalizing here with
  | nil => rfl
  | cons part front ih =>
    simp only [List.cons_append, follow]
    split
    · exact ih _
    · rfl
    · rfl
    · rfl

theorem sightFrom_entries (tree : Tree) (here names : List String) :
    tree.sightFrom here (names.map .entry) = tree.look (here ++ names) := by
  induction names generalizing here with
  | nil => simp [sightFrom, follow]
  | cons name names ih =>
    cases h : tree.look here with
    | directory => simpa [sightFrom, follow, h, PathPart.applyTo] using ih (here ++ [name])
    | missing => simp [sightFrom, follow, h, look_append_of_missing _ h]
    | file content => simp [sightFrom, follow, h, look_append_of_file _ _ h]
    | belowFile => simp [sightFrom, follow, h, look_append_of_belowFile _ h]

theorem sight_entries (tree : Tree) (names : List String) :
    tree.sight (names.map .entry) = tree.look names :=
  tree.sightFrom_entries [] names

theorem holder_append_entry (parts : List PathPart) (name : String) :
    holder (parts ++ [.entry name]) = dropSame parts := by
  simp [holder, dropSame]

end Tree

end ProjectSetup
