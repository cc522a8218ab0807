import ProjectSetup.Extension
import ProjectSetup.Options
import ProjectSetup.Step

/-!
# What the options ask for

`Plan.extension` gives the entries that the options add to the package manifest, and `Plan.steps`
the steps that edit the files of the project, in the order in which they have to run: a file is
imported before it is used, and a page takes the icon font before other fonts.
-/

namespace ProjectSetup.Plan

open Json (Value)

/-! ### Names of files and texts that are put in -/

/-- The module that registers the plugin. -/
def pluginFile : String := "src/plugins/vuetify.js"

/-- The Babel configuration. -/
def babelConfig : String := "babel.config.js"

/-- The page of the application. -/
def indexPage : String := "public/index.html"

/-- The import of the plugin module. -/
def pluginImport : String := "import './plugins/vuetify'"

/-- The import of the language polyfill. -/
def polyfillImport : String := "import '@babel/polyfill'"

/-- The stylesheet with the icon font. -/
def iconFontLink : String :=
  "<link href=\"https://fonts.googleapis.com/css?family=" ++
    "Roboto:100,300,400,500,700,900|Material+Icons\" rel=\"stylesheet\">"

/-- The weights of a font family that is given without any. -/
def defaultWeights : String := "100,300,400,500,700,900"

/-! ### Patterns -/

/-- Lines that import the framework. -/
def vueImport : Pattern :=
  ⟨"^import Vue", .all (.start :: Pattern.literal "import Vue")⟩

/-- Lines that import anything. -/
def anyImport : Pattern :=
  ⟨"^import\\s", .all (.start :: Pattern.literal "import" ++ [.one .blanks])⟩

/-- Lines that load the language polyfill. -/
def polyfillMarker : Pattern where
  source := "^(import|require).*@babel/polyfill.*$"
  expr := .all <|
    [.start, .alt (.all (Pattern.literal "import")) (.all (Pattern.literal "require")),
      .many .notLineFeed] ++
    Pattern.literal "@babel/polyfill" ++ [.many .notLineFeed, .stop]

theorem parse?_vueImport : Pattern.parse? vueImport.source = some vueImport := by
  decide +kernel

theorem parse?_anyImport : Pattern.parse? anyImport.source = some anyImport := by
  decide +kernel

theorem parse?_polyfillMarker : Pattern.parse? polyfillMarker.source = some polyfillMarker := by
  decide +kernel

/-! ### The package manifest -/

/-- Entries of a section. -/
def entries (pairs : List (String × String)) : Section :=
  Std.TreeMap.ofList pairs

/-- The entries for the component explorer. -/
def storybookExtension : Extension where
  devDependencies := entries
    [("@babel/preset-react", "^7.6.3"), ("@mdi/font", "^4.5.95"),
      ("@storybook/addon-a11y", "^5.2"), ("@storybook/addon-actions", "^5.2"),
      ("@storybook/addon-knobs", "^5.2"), ("@storybook/addon-notes", "^5.2"),
      ("@storybook/addon-viewport", "^5.2"), ("@storybook/addons", "^5.2"),
      ("@storybook/vue", "^5.2"), ("babel-preset-vue", "^2.0.2"), ("js-beautify", "^1.11.0"),
      ("prism-react-renderer", "^0.1.7"), ("prismjs", "^1.17.1"), ("vue-storybook", "^1.1.0")]
  scripts := entries
    [("serve:storybook", "start-storybook -p 6006"), ("build:storybook", "build-storybook")]

/-- The package of a preset. -/
def presetPackage (preset : String) : String :=
  "vue-cli-plugin-vuetify-preset-" ++ preset

/-- The entries that the options add to the package manifest. -/
def extension (options : Options) : Extension :=
  let dependencies :=
    [("vuetify", "^2.2.11")] ++
    if options.polyfill then [("@babel/polyfill", "^7.8.3")] else []
  let aLaCarte :=
    if options.aLaCarte then
      [("sass", "^1.19.0"), ("sass-loader", "^8.0.0")] ++
      if options.patchesBabel then [("babel-plugin-transform-imports", "^1.4.1")] else []
    else []
  let preset := match options.preset with
    | some name => [(presetPackage name, "latest")]
    | none => []
  let base : Extension := ⟨entries dependencies, entries (aLaCarte ++ preset), ∅⟩
  if options.storybook then base.merge storybookExtension else base

/-! ### The steps -/

/-- A font family with its weights. -/
def fontFamily (font : String) : String :=
  if font.toList.contains ':' then font else font ++ ":" ++ defaultWeights

/-- The address of the stylesheet for the fonts. -/
def fontUrl (fonts : List String) : String :=
  "https://fonts.googleapis.com/css?family=" ++ "|".intercalate (fonts.map fontFamily)

/-- The link to the stylesheet for the fonts. -/
def fontLink (fonts : List String) : String :=
  "<link rel=\"stylesheet\" href=\"" ++ fontUrl fonts ++ "&display=swap\">"

/-- The plugin module is imported into the entry script. -/
def importPlugin (options : Options) : Step where
  label := "import vuetify plugin"
  file := options.mainFile
  edit := .lines (.insertImport ⟨.pattern vueImport, .forward⟩ pluginImport)

/-- The Babel preset of the project takes built-ins from the polyfill. -/
def polyfillEntry : Step where
  label := "polyfill entry for @vue/app preset"
  file := babelConfig
  edit := .config <|
    .upsertTagged "presets" "@vue/app" [("useBuiltIns", .string "entry")] .skip

/-- The polyfill is imported into the entry script. -/
def importPolyfill (options : Options) : Step where
  label := "import @babel/polyfill"
  file := options.mainFile
  edit := .lines (.prependLine polyfillImport (.pattern polyfillMarker))

/-- Components are imported one by one. -/
def transformImports : Step where
  label := "transform-imports for vuetify components"
  file := babelConfig
  edit := .config <|
    .upsertTagged "plugins" "transform-imports"
      [("vuetify", .object
        [("transform", .string "vuetify/es5/components/$\x7bmember\x7d"),
          ("preventFullImport", .bool true)])]
      .create

/-- The page loads the icon font. -/
def linkIconFont : Step where
  label := "material icons stylesheet"
  file := indexPage
  edit := .lines (.insertLink iconFontLink .afterLastLink)

/-- The page loads the fonts. -/
def linkFonts (fonts : List String) : Step where
  label := "font stylesheet"
  file := indexPage
  edit := .lines (.insertLink (fontLink fonts) .beforeClosingHead)

/-- The preset is imported into the plugin module. -/
def importPreset (preset : String) : Step where
  label := "import preset " ++ preset
  file := pluginFile
  requires := some pluginFile
  edit := .lines <|
    .insertImport ⟨.pattern anyImport, .backward⟩
      ("import \x7b preset \x7d from '" ++ presetPackage preset ++ "/preset'")

/-- The preset is passed to the framework. -/
def usePreset : Step where
  label := "preset option"
  file := pluginFile
  requires := some pluginFile
  edit := .lines (.objectKey "new Vuetify(" "preset")

/-- The Babel presets that the component explorer needs. -/
def storybookPresets : Step where
  label := "storybook babel presets"
  file := babelConfig
  edit := .config <|
    .ensureEntries "presets" ["@babel/preset-env", "@babel/preset-react"] .create

/-- The steps that the options ask for, in order. -/
def steps (options : Options) : List Step :=
  [importPlugin options] ++
  (if options.polyfill && options.patchesBabel then [polyfillEntry, importPolyfill options]
    else []) ++
  (if options.aLaCarte && options.patchesBabel then [transformImports] else []) ++
  [linkIconFont] ++
  (if options.fonts.isEmpty then [] else [linkFonts options.fonts]) ++
  (match options.preset with
    | some preset => [importPreset preset, usePreset]
    | none => []) ++
  (if options.storybook then [storybookPresets] else [])

end ProjectSetup.Plan
