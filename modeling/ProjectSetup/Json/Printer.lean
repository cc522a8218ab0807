import ProjectSetup.Json.Value

/-!
# Writing JSON values

`Value.compact` writes a value without any space.  `Value.pretty` puts every item and member on a
line of its own, two spaces deeper than the brackets around it, with a space after the colon; an
empty array or object stays on one line.
-/

namespace ProjectSetup.Json

/-- The four hexadecimal digits of a character below U+10000. -/
def hexDigits (n : Nat) : List Char :=
  [Nat.digitChar (n / 4096 % 16), Nat.digitChar (n / 256 % 16), Nat.digitChar (n / 16 % 16),
    Nat.digitChar (n % 16)]

/-- One character as it is written in a string: the quote, the backslash and the control
characters are escaped, by a letter where there is one. -/
def escaped (c : Char) : List Char :=
  if c == '\x22' then ['\x5c', '\x22']
  else if c == '\x5c' then ['\x5c', '\x5c']
  else if 0x20 ≤ c.toNat then [c]
  else if c == '\x08' then ['\x5c', 'b']
  else if c == '\x0c' then ['\x5c', 'f']
  else if c == '\n' then ['\x5c', 'n']
  else if c == '\r' then ['\x5c', 'r']
  else if c == '\t' then ['\x5c', 't']
  else '\x5c' :: 'u' :: hexDigits c.toNat

/-- A string with its quotes. -/
def stringText (text : String) : List Char :=
  '\x22' :: text.toList.flatMap escaped ++ ['\x22']

namespace Value

/-- The values that are written in one piece. -/
def scalarText : Value → List Char
  | null => "null".toList
  | bool true => "true".toList
  | bool false => "false".toList
  | number value => value.text
  | string text => stringText text
  | array _ | object _ => []

mutual

/-- The value without any space. -/
def compactText : Value → List Char
  | array items => '[' :: compactItems items ++ [']']
  | object members => '\x7b' :: compactMembers members ++ ['\x7d']
  | value => scalarText value

/-- The items with commas between them. -/
def compactItems : List Value → List Char
  | [] => []
  | [item] => compactText item
  | item :: rest => compactText item ++ ',' :: compactItems rest

/-- The members with commas between them. -/
def compactMembers : List (String × Value) → List Char
  | [] => []
  | [(key, value)] => stringText key ++ ':' :: compactText value
  | (key, value) :: rest =>
    stringText key ++ ':' :: compactText value ++ ',' :: compactMembers rest

end

/-- A new line, indented by so many levels. -/
def newLine (level : Nat) : List Char :=
  '\n' :: List.replicate (2 * level) ' '

mutual

/-- The value with a line for each item and member, set at the given level. -/
def prettyText (level : Nat) : Value → List Char
  | array [] => ['[', ']']
  | array items => '[' :: prettyItems (level + 1) items ++ newLine level ++ [']']
  | object [] => ['\x7b', '\x7d']
  | object members => '\x7b' :: prettyMembers (level + 1) members ++ newLine level ++ ['\x7d']
  | value => scalarText value

/-- The items with commas between them, each on a line of its own. -/
def prettyItems (level : Nat) : List Value → List Char
  | [] => []
  | [item] => newLine level ++ prettyText level item
  | item :: rest => newLine level ++ prettyText level item ++ ',' :: prettyItems level rest

/-- The members with commas between them, each on a line of its own. -/
def prettyMembers (level : Nat) : List (String × Value) → List Char
  | [] => []
  | [(key, value)] => newLine level ++ stringText key ++ ':' :: ' ' :: prettyText level value
  | (key, value) :: rest =>
    newLine level ++ stringText key ++ ':' :: ' ' :: prettyText level value ++
      ',' :: prettyMembers level rest

end

/-- The value without any space. -/
def compact (value : Value) : String :=
  String.ofList value.compactText

/-- The value on several lines. -/
def pretty (value : Value) : String :=
  String.ofList (value.prettyText 0)

end Value

end ProjectSetup.Json
