import ProjectSetup.Json.Printer
import ProjectSetup.Json.Record

/-!
# Options of the setup

The options say which parts of the framework a project takes.  They are written as an object; the
preset is left out where there is none, and the fonts where the list is empty.
-/

namespace ProjectSetup

/-- The options of the setup. -/
structure Options where
  /-- The project is written in TypeScript. -/
  typescript : Bool := false
  /-- The language polyfill is loaded. -/
  polyfill : Bool := false
  /-- Components are imported one by one. -/
  aLaCarte : Bool := false
  /-- The start components are put in place of those of the project. -/
  replaceComponents : Bool := false
  /-- The name of a preset. -/
  preset : Option String := none
  /-- Font families, which may have weights behind a colon. -/
  fonts : List String := []
  /-- The component explorer is set up. -/
  storybook : Bool := false
deriving Repr, DecidableEq

namespace Options

open Json (Value RecordField)

/-- The entry script of the project. -/
def mainFile (options : Options) : String :=
  if options.typescript then "src/main.ts" else "src/main.js"

/-- The Babel configuration is only touched in projects that are not in TypeScript. -/
def patchesBabel (options : Options) : Bool :=
  !options.typescript

/-- The options as a JSON value. -/
def toJson (options : Options) : Value :=
  let preset := match options.preset with
    | none => []
    | some name => [("preset", Value.string name)]
  let fonts :=
    if options.fonts.isEmpty then []
    else [("fonts", Value.array (options.fonts.map Value.string))]
  .object <|
    [("typescript", .bool options.typescript), ("usePolyfill", .bool options.polyfill),
      ("useAlaCarte", .bool options.aLaCarte),
      ("replaceComponents", .bool options.replaceComponents)] ++
    preset ++ fonts ++ [("storybook", .bool options.storybook)]

/-- A field whose value `reader` reads and `set` puts into the options. -/
def field {α : Type} (name : String) (reader : Json.Reader α) (set : Options → α → Options) :
    RecordField Options where
  name := name
  read options text := do
    let (value, rest) ← reader text
    return (set options value, rest)

/-- The fields of the options, in order. -/
def fields : List (RecordField Options) :=
  [field "typescript" Json.readBool fun options value => { options with typescript := value },
    field "usePolyfill" Json.readBool fun options value => { options with polyfill := value },
    field "useAlaCarte" Json.readBool fun options value => { options with aLaCarte := value },
    field "replaceComponents" Json.readBool fun options value =>
      { options with replaceComponents := value },
    field "preset" (Json.readOptional Json.readText) fun options value =>
      { options with preset := value },
    field "fonts" (Json.readList Json.readText) fun options value =>
      { options with fonts := value },
    field "storybook" Json.readBool fun options value => { options with storybook := value }]

/-- Reads the text of options. -/
def parse (text : String) : Except Json.Error Options :=
  Json.readWhole (Json.readRecord "struct GeneratorOptions" fields {}) text

end Options

end ProjectSetup
