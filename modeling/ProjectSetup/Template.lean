import ProjectSetup.Options
import ProjectSetup.Text.Search

/-!
# Templates of the files that are written

Each template is a list of lines; the last line is empty, so that the text ends with a line feed.
-/

namespace ProjectSetup.Template

/-- The lines of the module that registers the plugin. -/
def pluginLines (options : Options) : List String :=
  ["import Vue from 'vue'"] ++
  (if options.typescript then ["// @ts-ignore: vuetify ships its own declarations"] else []) ++
  (if options.aLaCarte then ["import Vuetify from 'vuetify/lib'"]
    else ["import Vuetify from 'vuetify'", "import 'vuetify/dist/vuetify.min.css'"]) ++
  ["", "Vue.use(Vuetify)", "", "export default new Vuetify(\x7b", "  icons: \x7b",
    "    iconfont: 'mdi',", "  \x7d,", "\x7d)", ""]

/-- The module that registers the plugin. -/
def plugin (options : Options) : String :=
  Text.joinLines (pluginLines options)

/-- The script of the start component of a project without a router. -/
def appScript : List String :=
  ["<script>", "import HelloWorld from './components/HelloWorld'", "", "export default \x7b",
    "  name: 'App',", "", "  components: \x7b", "    HelloWorld,", "  \x7d,", "\x7d", "</script>"]

/-- The start component; what it shows depends on whether the project has a router. -/
def app (router : Bool) : String :=
  Text.joinLines <|
    ["<template>", "  <v-app>", "    <v-app-bar app color=\"primary\" dark>",
      "      <v-toolbar-title>Vuetify</v-toolbar-title>", "    </v-app-bar>", "",
      "    <v-main>", if router then "      <router-view />" else "      <HelloWorld />",
      "    </v-main>", "  </v-app>", "</template>"] ++
    (if router then [] else "" :: appScript) ++ [""]

/-- A component of the given name that shows a welcome. -/
def component (name : String) : String :=
  Text.joinLines
    ["<template>", "  <v-container>", "    <v-row class=\"text-center\">",
      "      <v-col cols=\"12\">",
      "        <h1 class=\"display-2 font-weight-bold mb-3\">", "          Welcome to Vuetify",
      "        </h1>", "      </v-col>", "    </v-row>", "  </v-container>", "</template>", "",
      "<script>", "export default \x7b", "  name: '" ++ name ++ "',", "\x7d", "</script>", ""]

/-- The view that a router shows first. -/
def home : String :=
  component "Home"

/-- The component that a project without a router shows. -/
def helloWorld : String :=
  component "HelloWorld"

end ProjectSetup.Template
