import ProjectSetup.ConfigModule.Token
import ProjectSetup.Json.Printer
import ProjectSetup.Json.Reader

/-!
# Config modules

A config module exports one object literal.  It is read by writing its tokens as a JSON text, so
that strings in single quotes, keys without quotes, comments and a comma behind the last item are
understood; everything else that is no plain data makes the module unreadable.  A module without
any content exports the empty object.
-/

namespace ProjectSetup.ConfigModule

/-- What a config module starts with. -/
def exportWords : List Char :=
  "module.exports".toList

/-- The text without the semicolons it ends with. -/
def dropSemicolons (text : List Char) : List Char :=
  (text.reverse.dropWhile (· == ';')).reverse

/-- The exported expression of a module written as JSON, which is trimmed. -/
def exported? (text : List Char) : Option (List Char) := do
  let rest ← Text.stripPrefix? exportWords text
  let body ← Text.stripPrefix? ['='] (Text.trimStart rest)
  some (dropSemicolons (Text.trim body))

/-- The object that the module written as JSON exports. -/
def parseJson (text : List Char) : Except Unreadable Json.Value :=
  if Text.trim text = [] then .ok (.object [])
  else
    match exported? (Text.trim text) with
    | none => .error .noExport
    | some body =>
      match Json.Value.parse (String.ofList body) with
      | .error error => .error (.invalidJson error)
      | .ok value => if value.isObject then .ok value else .error .exportNotObject

/-- The object that a module exports. -/
def parse (source : String) : Except Unreadable Json.Value := do
  let tokens ← tokenize source.toList
  parseJson (jsonText tokens)

/-- The module that exports a value. -/
def render (config : Json.Value) : String :=
  String.ofList (exportWords ++ " = ".toList ++ config.prettyText 0 ++ ['\n'])

end ProjectSetup.ConfigModule
