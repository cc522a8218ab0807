import ProjectSetup.Setup

/-!
# The command line

The words of the command line are read from left to right: options, each at most once but for
fonts, and at most one project directory.  A word that starts with a dash is an option, unless it
is a lone dash or stands behind `--`; an option takes its value from behind `=` or from the next
word, which may then not look like an option.  The requests for help, `--help` and `-h`, are left
out, with the text that they print: they are read as unknown options.

`CommandLine.run` carries a request out on a file tree and gives the exit code, what is printed, what
is logged, and the tree that is left.
-/

namespace ProjectSetup.CommandLine

/-- The options that take no value. -/
inductive Switch where
  | typescript
  | polyfill
  | aLaCarte
  | replaceComponents
  | storybook
  | patchOnly
deriving Repr, DecidableEq

/-- The options that take a value. -/
inductive Setting where
  | options
  | preset
  | font
deriving Repr, DecidableEq

/-- What the command line gives. -/
structure Arguments where
  project : Option String := none
  switches : List Switch := []
  optionsFile : Option String := none
  preset : Option String := none
  fonts : List String := []
deriving Repr, DecidableEq

/-- What the command line asks for. -/
inductive Request where
  | version
  | setUp (arguments : Arguments)
deriving Repr, DecidableEq

/-- The option behind the two dashes. -/
inductive Name where
  | version
  | switch (switch : Switch)
  | setting (setting : Setting)
deriving Repr, DecidableEq

/-- The option of a name; `help` is left out. -/
def name? (name : List Char) : Option Name :=
  [("version", .version), ("typescript", .switch .typescript), ("polyfill", .switch .polyfill),
    ("a-la-carte", .switch .aLaCarte), ("replace-components", .switch .replaceComponents),
    ("storybook", .switch .storybook), ("patch-only", .switch .patchOnly),
    ("options", .setting .options), ("preset", .setting .preset),
    ("font", .setting .font)].lookup (String.ofList name)

/-- The arguments with a switch turned on, which may not be on already. -/
def turnOn? (switch : Switch) (arguments : Arguments) : Option Arguments :=
  if arguments.switches.contains switch then none
  else some { arguments with switches := arguments.switches ++ [switch] }

/-- The arguments with a value for a setting.  Only fonts are given more than once, and a file
has a name. -/
def set? (setting : Setting) (value : String) (arguments : Arguments) : Option Arguments :=
  match setting with
  | .options =>
    if value.isEmpty || arguments.optionsFile.isSome then none
    else some { arguments with optionsFile := some value }
  | .preset =>
    if arguments.preset.isSome then none else some { arguments with preset := some value }
  | .font => some { arguments with fonts := arguments.fonts ++ [value] }

/-- The arguments with a project directory, of which there is one. -/
def setProject? (project : String) (arguments : Arguments) : Option Arguments :=
  if arguments.project.isSome then none else some { arguments with project := some project }

/-- The word looks like an option. -/
def looksLikeOption (word : String) : Bool :=
  match word.toList with
  | '-' :: _ :: _ => true
  | _ => false

/-- Reads words that are no options. -/
def readPlain? (arguments : Arguments) (words : List String) : Option Request :=
  (words.foldlM (fun arguments word => setProject? word arguments) arguments).map .setUp

/-- Reads the words of a command line; nothing comes of one that is not well formed. -/
def read? (arguments : Arguments) : List String → Option Request
  | [] => some (.setUp arguments)
  | word :: words =>
    match word.toList with
    | ['-', '-'] => readPlain? arguments words
    | '-' :: '-' :: long =>
      let value? := match long.dropWhile (· != '=') with
        | _ :: value => some (String.ofList value)
        | [] => none
      match name? (long.takeWhile (· != '=')), value?, words with
      | some .version, none, _ => some .version
      | some (.switch switch), none, words => do read? (← turnOn? switch arguments) words
      | some (.setting setting), some value, words => do
        read? (← set? setting value arguments) words
      | some (.setting setting), none, value :: words =>
        if looksLikeOption value then none
        else do read? (← set? setting value arguments) words
      | _, _, _ => none
    | '-' :: 'V' :: _ => some .version
    | '-' :: _ :: _ => none
    | _ => do read? (← setProject? word arguments) words

/-- The request of a command line. -/
def parse? (words : List String) : Option Request :=
  read? {} words

/-- The options that the arguments spell. -/
def Arguments.options (arguments : Arguments) : Options where
  typescript := arguments.switches.contains .typescript
  polyfill := arguments.switches.contains .polyfill
  aLaCarte := arguments.switches.contains .aLaCarte
  replaceComponents := arguments.switches.contains .replaceComponents
  preset := arguments.preset
  fonts := arguments.fonts
  storybook := arguments.switches.contains .storybook

/-! ### Carrying out a request -/

/-- What is left of a run of the command. -/
structure Ending where
  code : Nat
  /-- What it printed, without the log. -/
  output : String := ""
  errors : String := ""
  /-- What it logged, at all levels; the environment chooses those that are written out, each line
  with the time in front. -/
  log : List LogLine := []
  tree : Tree

/-- The name of the command and its version. -/
def versionLine : String := "vuetify-scaffold 0.3.1\n"

/-- The line that tells of an event. -/
def eventLine (event : Event) : String :=
  let place := event.file ++ ": " ++ event.label
  match event.verdict with
  | .applied => "  patched  " ++ place ++ "\n"
  | .alreadyApplied => "  ok       " ++ place ++ "\n"
  | .skipped reason => "  skipped  " ++ place ++ " (" ++ reason.message ++ ")\n"

/-- The lines that tell of a run. -/
def reportText (report : Report) : String :=
  let skipped := report.skipped.length
  let closing :=
    if skipped = 0 then ""
    else Nat.repr skipped ++
      " step(s) could not be applied; those files were left unchanged.\n"
  String.join (report.events.map eventLine) ++ closing

/-- A cause with its number, or without one if it is the only cause; the lines behind the first
are indented. -/
def causeText (number : Option Nat) (cause : String) : String :=
  let (lead, indent) := match number with
    | none => ("    ", "    ")
    | some n =>
      let digits := Nat.repr n
      (String.ofList (List.replicate (5 - digits.length) ' ') ++ digits ++ ": ", "       ")
  let lines := (Text.pieces (· == '\n') cause.toList).map String.ofList
  lead ++ ("\n" ++ indent).intercalate lines ++ "\n"

/-- The text of an error with the causes beneath it. -/
def errorText (message : String) (causes : List String) : String :=
  let listed := match causes with
    | [] => ""
    | [cause] => "\nCaused by:\n" ++ causeText none cause
    | causes =>
      "\nCaused by:\n" ++
        String.join (causes.zipIdx.map fun (cause, n) => causeText (some n) cause)
  "Error: " ++ message ++ "\n" ++ listed

/-- Where a command is run. -/
structure Session where
  /-- The home directory of the user. -/
  home : Place
  /-- The parts of the path from the root of the tree to the current directory. -/
  current : List PathPart := []
deriving Repr

/-- The root of the project. -/
def Session.project (session : Session) (arguments : Arguments) : Place :=
  session.home.expandTilde session.current (arguments.project.getD ".")

/-- The options of a run, or the text of the error that they cannot be read. -/
def loadOptions (session : Session) (arguments : Arguments) (tree : Tree) :
    Except String Options :=
  match arguments.optionsFile with
  | none => .ok arguments.options
  | some path =>
    (tree.readOptions (.ofPath session.current path)).mapError fun failure =>
      errorText ("reading options from " ++ path) (failure.message :: failure.causes)

/-- The line of the log that comes before those of a run. -/
def announcement (root : Place) : LogLine :=
  ⟨.info, "Scaffolding Vuetify into " ++ root.shown⟩

/-- Sets a project up, or only runs the steps on its files. -/
def setUp (session : Session) (arguments : Arguments) (tree : Tree) : Ending :=
  let root := session.project arguments
  match loadOptions session arguments tree with
  | .error errors => ⟨1, "", errors, [], tree⟩
  | .ok options =>
    let run :=
      if arguments.switches.contains .patchOnly then runPass root (Plan.steps options) tree
      else Setup.run root options tree
    let log := announcement root :: run.log
    match run.result with
    | .error failure => ⟨1, "", errorText failure.message failure.causes, log, run.tree⟩
    | .ok report => ⟨0, reportText report, "", log, run.tree⟩

/-- Carries out a command line in a file tree. -/
def run (session : Session) (words : List String) (tree : Tree) : Ending :=
  match parse? words with
  | none => ⟨2, "", "", [], tree⟩
  | some .version => ⟨0, versionLine, "", [], tree⟩
  | some (.setUp arguments) => setUp session arguments tree

/-- The places that a command line can read or write. -/
def places (session : Session) (words : List String) : List Place :=
  match parse? words with
  | some (.setUp arguments) =>
    (arguments.optionsFile.toList.map (Place.ofPath session.current)) ++
      ["package.json", "src/main.js", "src/main.ts", Plan.babelConfig, Plan.indexPage,
        Plan.pluginFile, Setup.routerFile, "src/App.vue", "src/views/Home.vue",
        "src/components/HelloWorld.vue"].map (session.project arguments).resolve
  | _ => []

end ProjectSetup.CommandLine
