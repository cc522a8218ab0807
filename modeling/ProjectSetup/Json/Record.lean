import ProjectSetup.Json.Reader

/-!
# Texts whose form is known

Readers for texts that have to hold a value of a certain kind; a value of another kind is a fault
that names what was found and what is wanted.  A record is written as an object, whose fields may
come in any order, may be missing and may stand beside others that are passed over, or as a list
of its fields in their order, of which the last ones may be missing.
-/

namespace ProjectSetup.Json

/-- The value as it is named where another kind of value is wanted. -/
def Value.found : Value → Found
  | .null => .null
  | .bool value => .bool value
  | .number value => .number value
  | .string text => .string text
  | .array _ => .array
  | .object _ => .object

/-- The fault of a value that starts with the given character where another kind is wanted.  A
scalar is read to the end first; a list or an object is not looked into. -/
def wrongType {α : Type} (wanted : String) (c : Char) (text : List Char) :
    Except Fault (α × List Char) :=
  if c == '[' then .error (.here (.wrongType .array wanted) (c :: text))
  else if c == '\x7b' then .error (.here (.wrongType .object wanted) (c :: text))
  else
    match readScalar c text with
    | .error fault => .error fault
    | .ok (value, rest) => .error (.here (.wrongType value.found wanted) rest)

/-- Reads a boolean. -/
def readBool (text : List Char) : Except Fault (Bool × List Char) :=
  match skipSpace text with
  | [] => .error (.here .endInValue [])
  | c :: rest =>
    if c == 't' then do return (true, ← readKeyword "rue".toList rest)
    else if c == 'f' then do return (false, ← readKeyword "alse".toList rest)
    else wrongType "a boolean" c rest

/-- Reads a string. -/
def readText (text : List Char) : Except Fault (String × List Char) :=
  match skipSpace text with
  | [] => .error (.here .endInValue [])
  | c :: rest =>
    if c == '\x22' then do
      let (chars, rest) ← readString rest
      return (String.ofList chars, rest)
    else wrongType "a string" c rest

/-- Reads what `inner` reads, or `null` for nothing. -/
def readOptional {α : Type} (inner : Reader α) (text : List Char) :
    Except Fault (Option α × List Char) :=
  match skipSpace text with
  | 'n' :: rest => do return (none, ← readKeyword "ull".toList rest)
  | text => do
    let (value, rest) ← inner text
    return (some value, rest)

/-- Reads a list of what `inner` reads. -/
def readList {α : Type} (inner : Reader α) (text : List Char) :
    Except Fault (List α × List Char) :=
  match skipSpace text with
  | [] => .error (.here .endInValue [])
  | c :: rest =>
    if c == '[' then do
      let add (items : List α) (text : List Char) : Except Fault (List α × List Char) := do
        let (value, rest) ← inner text
        return (value :: items, rest)
      let (items, rest) ← readItems .kept add [] rest
      return (items.reverse, rest)
    else wrongType "a sequence" c rest

/-- Reads an object with any keys: `add` puts what `inner` reads under a key into the state. -/
def readMap {α σ : Type} (inner : Reader α) (add : String → α → σ → σ) (empty : σ)
    (text : List Char) : Except Fault (σ × List Char) :=
  match skipSpace text with
  | [] => .error (.here .endInValue [])
  | c :: rest =>
    if c == '\x7b' then
      let member (state : σ) (text : List Char) : Except Fault (σ × List Char) := do
        let (key, text) ← readString text
        let text ← readColon text
        let (value, rest) ← inner text
        return (add (String.ofList key) value state, rest)
      readMembers .kept member empty rest
    else wrongType "a map" c rest

/-- A field of a record: its name, and how its value is read into the record. -/
structure RecordField (σ : Type) where
  name : String
  read : σ → Reader σ

/-- The fault of a field that is there already.  It points behind the space after the key, and
behind the brace if that closes the object there. -/
def duplicateField (name : String) (rest : List Char) : Fault :=
  match skipSpace rest with
  | '\x7d' :: rest => .here (.duplicateField name) rest
  | rest => .here (.duplicateField name) rest

/-- Reads a member of a record, of which the opening quote of the key has been read; the state is
the names of the fields read so far and the record. -/
def readField {σ : Type} (fields : List (RecordField σ)) (state : List String × σ)
    (text : List Char) : Except Fault ((List String × σ) × List Char) := do
  let (key, text) ← readString text
  match fields.find? fun field => field.name == String.ofList key with
  | none =>
    let text ← readColon text
    let ((), rest) ← skipValue text.length text
    return (state, rest)
  | some field =>
    if state.1.contains field.name then .error (duplicateField field.name text)
    else
      let text ← readColon text
      let (record, rest) ← field.read state.2 text
      return ((field.name :: state.1, record), rest)

/-- Reads the bracket that closes a list of fields when all of them have been read. -/
def closeFields {σ : Type} (record : σ) (text : List Char) : Except Fault (σ × List Char) :=
  match skipSpace text with
  | [] => .error (.here .endInList [])
  | c :: rest =>
    if c == ']' then .ok (record, rest)
    else if c == ',' then
      match skipSpace rest with
      | ']' :: rest => .error (.next .trailingComma (']' :: rest))
      | rest => .error (.next .trailingCharacters rest)
    else .error (.next .trailingCharacters (c :: rest))

/-- Reads the fields that follow in a list, the first one of the list if `first` says so. -/
def listFields {σ : Type} (first : Bool) : List (RecordField σ) → σ → Reader σ
  | [], record, text => closeFields record text
  | field :: fields, record, text =>
    match skipSpace text with
    | [] => .error (.here .endInList [])
    | c :: rest =>
      if c == ']' then .ok (record, rest)
      else if first then do
        let (record, text) ← field.read record (c :: rest)
        listFields false fields record text
      else if c == ',' then do
        let text ← afterListComma .kept rest
        let (record, text) ← field.read record text
        listFields false fields record text
      else .error (.next .expectedListSeparator (c :: rest))

/-- Reads a record, which is `empty` where nothing is read into it. -/
def readRecord {σ : Type} (wanted : String) (fields : List (RecordField σ)) (empty : σ)
    (text : List Char) : Except Fault (σ × List Char) :=
  match skipSpace text with
  | [] => .error (.here .endInValue [])
  | c :: rest =>
    if c == '[' then listFields true fields empty rest
    else if c == '\x7b' then do
      let ((_, record), rest) ← readMembers .kept (readField fields) ([], empty) rest
      return (record, rest)
    else wrongType wanted c rest

/-- Reads a text that is one object. -/
def Members.parse (text : String) : Except Error Members :=
  readWhole (readMap (readValue (maxDepth - 1)) Members.insert []) text

end ProjectSetup.Json
