import ProjectSetup.CallShape
import ProjectSetup.Edited
import ProjectSetup.Matcher

/-!
# Edits on the lines of a file

Every edit first looks whether it has been applied before: it asks for a marker, or for the text
it would put in.  Then it finds its place by an anchor, and changes or adds one line there.  Where
the place is not found, or does not look as expected, the file is skipped.
-/

namespace ProjectSetup

/-- Where a line is put with regard to its anchor. -/
inductive Placement where
  | before
  | after
  | replace
deriving Repr, DecidableEq

/-- Where a link is put in a page. -/
inductive LinkPlacement where
  /-- A line above the last closing tag of the head. -/
  | beforeClosingHead
  /-- A line below the last link, indented as that one. -/
  | afterLastLink
deriving Repr, DecidableEq

/-- An edit on the lines of a file. -/
inductive LineEdit where
  /-- Puts an import below the anchor. -/
  | insertImport (anchor : Anchor) (text : String)
  /-- Puts a line at the anchor, unless the marker is found. -/
  | insertLine (anchor : Anchor) (placement : Placement) (text : String) (marker : Matcher)
  /-- Puts a line above all others, unless the marker is found. -/
  | prependLine (text : String) (marker : Matcher)
  /-- Puts a link into the head of a page. -/
  | insertLink (link : String) (placement : LinkPlacement)
  /-- Puts a key into the object that is passed to the first call. -/
  | objectKey (call key : String)
deriving Repr, DecidableEq

namespace LineEdit

/-- The lines with one put at a place of its own, or in the place of another. -/
def place (lines : List String) (index : Nat) (text : String) : Placement → List String
  | .before => lines.insertIdx index text
  | .after => lines.insertIdx (index + 1) text
  | .replace => lines.set index text

/-- Puts a line at the anchor, unless the marker is found. -/
def applyLine (anchor : Anchor) (placement : Placement) (text : String) (marker : Matcher)
    (lines : List String) : Edited (List String) :=
  if marker.foundIn lines then .alreadyApplied
  else
    match anchor.find? lines with
    | none => .skipped (.anchorNotFound anchor.matcher.display)
    | some index => .rewritten (place lines index text placement)

/-- Puts a line above all others, unless the marker is found. -/
def applyPrepend (text : String) (marker : Matcher) (lines : List String) :
    Edited (List String) :=
  if marker.foundIn lines then .alreadyApplied else .rewritten (text :: lines)

/-- Lines that close the head of a page. -/
def closingHead : Pattern :=
  ⟨"^\\s*</head>", .all ([.start, .many .blanks] ++ Pattern.literal "</head>")⟩

/-- Lines that start with a link. -/
def linkTag : Pattern :=
  ⟨"^\\s*<link", .all ([.start, .many .blanks] ++ Pattern.literal "<link")⟩

theorem parse?_closingHead : Pattern.parse? closingHead.source = some closingHead := by
  decide

theorem parse?_linkTag : Pattern.parse? linkTag.source = some linkTag := by
  decide

/-- The line a link is put at: the last one that closes the head, or the last link. -/
def linkAnchor : LinkPlacement → Anchor
  | .beforeClosingHead => ⟨.pattern closingHead, .backward⟩
  | .afterLastLink => ⟨.pattern linkTag, .backward⟩

/-- The lines with a link put at its anchor. -/
def placeLink (lines : List String) (index : Nat) (link : String) :
    LinkPlacement → List String
  | .beforeClosingHead => lines.insertIdx index ("    " ++ link)
  | .afterLastLink =>
    let indent := Text.indent (lines.getD index "").toList
    lines.insertIdx (index + 1) (String.ofList indent ++ link)

/-- Puts a link into the head of a page, unless some line contains it. -/
def applyLink (link : String) (placement : LinkPlacement) (lines : List String) :
    Edited (List String) :=
  if containsAny lines [link] then .alreadyApplied
  else
    match (linkAnchor placement).find? lines with
    | none => .skipped (.anchorNotFound (linkAnchor placement).matcher.display)
    | some index => .rewritten (placeLink lines index link placement)

/-- An object literal that holds only the key. -/
def onlyKey (key : List Char) : List Char :=
  "(\x7b ".toList ++ key ++ " \x7d)".toList

/-- The lines with a key put into the object that is passed on the line of the given index; none
if the object is on that line and names the key. -/
def placeKey? (lines : List String) (index : Nat) (key : List Char) :
    CallShape → Option (List String)
  | .emptyCall before after =>
    some (lines.set index (String.ofList (before ++ onlyKey key ++ after)))
  | .inlineObject before inner after =>
    if Text.hasWord key inner then none
    else if inner.all Text.isBlank then
      some (lines.set index (String.ofList (before ++ onlyKey key ++ after)))
    else
      let members := Text.trimStart inner ++ "\x7d)".toList ++ after
      some (lines.set index
        (String.ofList (before ++ "(\x7b ".toList ++ key ++ ", ".toList ++ members)))
  | .multilineObject before after =>
    let indent := Text.indent (before ++ "(\x7b".toList ++ after)
    some (lines.insertIdx (index + 1)
      (String.ofList (indent ++ "  ".toList ++ key ++ ",".toList)))

/-- Puts a key into the object that is passed to the first call, unless some line has the key with
a comma or a colon behind it. -/
def applyKey (call key : String) (lines : List String) : Edited (List String) :=
  if containsAny lines [key ++ ",", key ++ ":"] then .alreadyApplied
  else
    match lines.findIdx? (Matcher.substring call).accepts with
    | none => .skipped (.anchorNotFound call)
    | some index =>
      let line := (lines.getD index "").toList
      match CallShape.classify? line call.toList with
      | none => .skipped (.shapeUnrecognized (String.ofList (Text.trim line)))
      | some shape =>
        match placeKey? lines index key.toList shape with
        | none => .alreadyApplied
        | some lines => .rewritten lines

/-- Applies the edit to the lines of a file. -/
def apply : LineEdit → List String → Edited (List String)
  | insertImport anchor text => applyLine anchor .after text (.substring text)
  | insertLine anchor placement text marker => applyLine anchor placement text marker
  | prependLine text marker => applyPrepend text marker
  | insertLink link placement => applyLink link placement
  | objectKey call key => applyKey call key

end LineEdit

end ProjectSetup
