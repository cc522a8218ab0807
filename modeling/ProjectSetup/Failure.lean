import ProjectSetup.Json.Error

/-!
# Failures that end a run

A failure is a file that cannot be read or written, a JSON text that cannot be read, or a content
that is not what it has to be.  `message` puts it into words, and `causes` are the causes beneath
it, the nearest one first.
-/

namespace ProjectSetup

/-- Why a file cannot be read or written. -/
inductive FileFault where
  | missing
  | fileInTheWay
  | notADirectory
  | isADirectory
  | busy
  | notUtf8
deriving Repr, DecidableEq

/-- The fault in words. -/
def FileFault.message : FileFault → String
  | missing => "No such file or directory (os error 2)"
  | fileInTheWay => "File exists (os error 17)"
  | notADirectory => "Not a directory (os error 20)"
  | isADirectory => "Is a directory (os error 21)"
  | busy => "Device or resource busy (os error 16)"
  | notUtf8 => "stream did not contain valid UTF-8"

/-- What ends a run. -/
inductive Failure where
  | file (path : String) (fault : FileFault)
  | json (error : Json.Error)
  | manifestNotObject (path : String)
  | sectionNotObject (name path : String)
  | invalidPattern (source : String)
deriving Repr, DecidableEq

namespace Failure

/-- The failure in words. -/
def message : Failure → String
  | file path fault => "IO error on " ++ path ++ ": " ++ fault.message
  | json error => "JSON error: " ++ error.message
  | manifestNotObject path => path ++ " does not contain a JSON object"
  | sectionNotObject name path => "`" ++ name ++ "` in " ++ path ++ " is not an object"
  | invalidPattern source => "invalid line pattern `" ++ source ++ "`"

/-- The causes beneath the failure, in words. -/
def causes : Failure → List String
  | file _ fault => [fault.message]
  | json error => [error.message]
  | _ => []

end Failure

end ProjectSetup
