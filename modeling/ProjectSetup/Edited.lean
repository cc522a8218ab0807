import ProjectSetup.Json.Error

/-!
# Results of an edit

An edit looks at the content of a file and either rewrites it, or finds that there is nothing left
to do, or skips the file for a reason.  An edit that does not find its place, or a file that does not
look as it has to, is no failure: the file is left as it is, and the reason is reported.
-/

namespace ProjectSetup

/-- Why a config module cannot be edited. -/
inductive Unreadable where
  | openString
  | openComment
  | templateLiteral
  | noExport
  | invalidJson (error : Json.Error)
  | exportNotObject
  | configNotObject
deriving Repr, DecidableEq

/-- The reason in words. -/
def Unreadable.message : Unreadable → String
  | openString => "unterminated string"
  | openComment => "unterminated comment"
  | templateLiteral => "template literals are not supported"
  | noExport => "expected `module.exports = \x7b ... \x7d`"
  | invalidJson error => error.message
  | exportNotObject => "exported value is not an object"
  | configNotObject => "config is not an object"

/-- Why a file is left as it is. -/
inductive SkipReason where
  | anchorNotFound (anchor : String)
  | shapeUnrecognized (line : String)
  | notAList (field : String)
  | configFieldMissing (field : String)
  | configUnreadable (why : Unreadable)
  | prerequisiteMissing (file : String)
deriving Repr, DecidableEq

namespace SkipReason

/-- What the reason is about. -/
def detail : SkipReason → String
  | anchorNotFound anchor => anchor
  | shapeUnrecognized line => line
  | notAList field => "`" ++ field ++ "` is not a list"
  | configFieldMissing field => field
  | configUnreadable why => why.message
  | prerequisiteMissing file => file

/-- The reason in words. -/
def message (reason : SkipReason) : String :=
  match reason with
  | anchorNotFound _ => "no line matches anchor `" ++ reason.detail ++ "`"
  | shapeUnrecognized _ | notAList _ =>
    "unrecognized construct shape on line `" ++ reason.detail ++ "`"
  | configFieldMissing _ => "config has no `" ++ reason.detail ++ "` list to attach to"
  | configUnreadable _ => "config module could not be read: " ++ reason.detail
  | prerequisiteMissing _ => "required file `" ++ reason.detail ++ "` is missing"

end SkipReason

/-- What an edit makes of a content. -/
inductive Edited (α : Type) where
  | rewritten (content : α)
  | alreadyApplied
  | skipped (reason : SkipReason)
deriving Repr, DecidableEq

/-- The content after the edit: the new one, or the one it was applied to. -/
def Edited.contentAfter {α : Type} (before : α) : Edited α → α
  | rewritten content => content
  | alreadyApplied => before
  | skipped _ => before

end ProjectSetup
