/-!
# File trees

A file tree is a file or a directory with named entries.  `look` says what stands where the names
from the root of the tree lead, and `write` puts a file there together with the directories that
lead to it.  A write fails where a file stands in the way or a directory stands at the end, and then
it changes nothing.
-/

namespace ProjectSetup

/-- The content of a file: a text, or bytes that are no text in UTF-8. -/
inductive Content where
  | text (text : String)
  | binary (bytes : List UInt8)
deriving DecidableEq

/-- The content that is made of bytes. -/
def Content.ofBytes (bytes : ByteArray) : Content :=
  match String.fromUTF8? bytes with
  | some string => .text string
  | none => .binary bytes.toList

/-- The bytes of a content. -/
def Content.bytes : Content → ByteArray
  | text string => string.toUTF8
  | binary bytes => bytes.toByteArray

/-- A file, or a directory with its entries. -/
inductive Tree where
  | file (content : Content)
  | directory (entries : List (String × Tree))

/-- What stands at a path. -/
inductive Sight where
  | file (content : Content)
  | directory
  | missing
  | belowFile
deriving DecidableEq

/-- Why a file cannot be written. -/
inductive WriteFault where
  /-- A directory stands at the path. -/
  | ontoDirectory
  /-- The directory of the path is a file. -/
  | parentIsFile
  /-- A directory further up is a file. -/
  | ancestorIsFile
  /-- The path steps on from a file. -/
  | throughFile
  /-- The path steps on from what is not there. -/
  | throughNothing
  /-- The path does not end in a name. -/
  | unnamed
deriving Repr, DecidableEq

namespace Tree

/-- The empty directory. -/
def empty : Tree := .directory []

/-- The entry with the name. -/
def entry? (name : String) : List (String × Tree) → Option Tree
  | [] => none
  | (n, tree) :: rest => if n = name then some tree else entry? name rest

/-- The entries with a tree put under the name. -/
def setEntry (name : String) (tree : Tree) : List (String × Tree) → List (String × Tree)
  | [] => [(name, tree)]
  | (n, old) :: rest => if n = name then (n, tree) :: rest else (n, old) :: setEntry name tree rest

/-- What stands where the names lead. -/
def look : Tree → List String → Sight
  | file content, [] => .file content
  | directory _, [] => .directory
  | file _, _ :: _ => .belowFile
  | directory entries, name :: rest =>
    match entry? name entries with
    | none => .missing
    | some tree => look tree rest

/-- Directories, each in the one before, around what stands at the end. -/
def nest (leaf : Tree) : List String → Tree
  | [] => leaf
  | name :: rest => .directory [(name, nest leaf rest)]

/-- The tree with a file where the names lead. -/
def write (content : Content) : List String → Tree → Except WriteFault Tree
  | [], file _ => .ok (.file content)
  | [], directory _ => .error .ontoDirectory
  | [_], file _ => .error .parentIsFile
  | _ :: _ :: _, file _ => .error .ancestorIsFile
  | name :: rest, directory entries =>
    match entry? name entries with
    | none => .ok (.directory (setEntry name (nest (.file content) rest) entries))
    | some tree =>
      (write content rest tree).map fun tree => .directory (setEntry name tree entries)

/-- The tree with a directory where the names lead, unless a file is in the way. -/
def makeDirectory : List String → Tree → Tree
  | [], tree => tree
  | _ :: _, file content => .file content
  | name :: rest, directory entries =>
    match entry? name entries with
    | none => .directory (setEntry name (nest empty rest) entries)
    | some tree => .directory (setEntry name (makeDirectory rest tree) entries)

mutual

/-- The paths of all files and directories of the tree, its root at `path`, with what stands
there. -/
def walk (path : List String) : Tree → List (List String × Sight)
  | file content => [(path, .file content)]
  | directory entries => (path, .directory) :: walkEntries path entries

/-- The paths of all files and directories in the entries of a directory. -/
def walkEntries (path : List String) : List (String × Tree) → List (List String × Sight)
  | [] => []
  | (name, tree) :: rest => walk (path ++ [name]) tree ++ walkEntries path rest

end

/-- A file with its new content, or a new directory, with a path that ends in a slash. -/
structure Change where
  path : String
  content : Option Content

/-- The change that what stands at a path in one tree is over another tree. -/
def changeAt? (before : Tree) (path : List String) (sight : Sight) : Option Change :=
  let shown := "/".intercalate path
  if before.look path = sight then none
  else
    match sight with
    | .file content => some ⟨shown, some content⟩
    | .directory => some ⟨shown ++ "/", none⟩
    | .missing | .belowFile => none

/-- Every new or changed file and every new directory, sorted by path. -/
def changes (before after : Tree) : List Change :=
  ((after.walk []).filterMap fun (path, sight) => changeAt? before path sight).mergeSort
    fun a b => a.path ≤ b.path

end Tree

end ProjectSetup
