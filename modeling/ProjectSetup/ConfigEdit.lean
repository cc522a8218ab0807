import ProjectSetup.Edited
import ProjectSetup.Json.Value

/-!
# Edits on the lists of a config

A config is an object, some of whose fields are lists.  An entry of such a list is a bare tag or a
list that starts with its tag and may go on with an object of options.  An edit makes sure that
tags are in a list, or that a tag is there with some options; a list that is absent is either
created or a reason to skip the config.  An edit that leaves the config the same, whatever the
order of members, counts as applied already.
-/

namespace ProjectSetup

open Json (Value Members)

/-- What to do where the list is absent. -/
inductive MissingField where
  | skip
  | create
deriving Repr, DecidableEq

/-- An edit on a list of a config. -/
inductive ConfigEdit where
  /-- Puts options to the entry with the tag. -/
  | upsertTagged (field tag : String) (options : Members) (missing : MissingField)
  /-- Makes sure that the tags are there. -/
  | ensureEntries (field : String) (tags : List String) (missing : MissingField)
deriving Repr

namespace ConfigEdit

/-- The tag of an entry: the entry itself, or the first item of a list. -/
def entryTag? : Value → Option String
  | .string tag => some tag
  | .array (first :: _) => first.string?
  | _ => none

/-- A tag with its options. -/
def taggedEntry (tag : String) (options : Members) : Value :=
  .array [.string tag, .object options]

/-- The entry, which has the tag, with the options put to it. -/
def withOptions (tag : String) (options : Members) : Value → Value
  | .array (first :: .object old :: more) =>
    .array (first :: .object (Members.overlay old options) :: more)
  | _ => taggedEntry tag options

/-- The list with the options put to the first entry with the tag, or to a new one at the end. -/
def upsert (tag : String) (options : Members) : List Value → List Value
  | [] => [taggedEntry tag options]
  | entry :: rest =>
    if entryTag? entry = some tag then withOptions tag options entry :: rest
    else entry :: upsert tag options rest

/-- The list with the tag put to the end, unless an entry has it. -/
def ensure (list : List Value) (tag : String) : List Value :=
  if list.any fun entry => entryTag? entry == some tag then list else list ++ [.string tag]

/-- The list that a field of a config holds, empty if it is to be created. -/
def list? (field : String) (missing : MissingField) (config : Members) :
    Except SkipReason (List Value) :=
  match Members.get? field config, missing with
  | none, .skip => .error (.configFieldMissing field)
  | none, .create => .ok []
  | some (.array items), _ => .ok items
  | some _, _ => .error (.notAList field)

/-- Changes the list that a field of a config holds. -/
def onList (field : String) (missing : MissingField) (change : List Value → List Value)
    (config : Value) : Edited Value :=
  match config with
  | .object members =>
    match list? field missing members with
    | .error reason => .skipped reason
    | .ok list =>
      let next := .object (Members.insert field (.array (change list)) members)
      if config.same next then .alreadyApplied else .rewritten next
  | _ => .skipped (.configUnreadable .configNotObject)

/-- Applies the edit to a config. -/
def apply : ConfigEdit → Value → Edited Value
  | upsertTagged field tag options missing => onList field missing (upsert tag options)
  | ensureEntries field tags missing => onList field missing (tags.foldl ensure)

end ConfigEdit

end ProjectSetup
