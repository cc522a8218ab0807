import ProjectSetup.Json.Value
import ProjectSetup.Text.Quoted
import ProjectSetup.Text.Search

/-!
# Errors of reading a JSON text

A `Fault` says why reading stopped and how many bytes of the text were left behind the place it
points at; with the whole text it becomes an `Error`, whose place is a line and a column.  Lines
count from one, and the column is the number of bytes from the start of the line up to the place.
A fault points behind the bytes that were read (`Fault.here`) or behind the next byte as well
(`Fault.next`).
-/

namespace ProjectSetup.Json

/-- What was found where another kind of value is wanted. -/
inductive Found where
  | null
  | bool (value : Bool)
  | number (value : Number)
  | string (text : String)
  | array
  | object
deriving Repr, DecidableEq

/-- Why a JSON text cannot be read. -/
inductive Cause where
  | expectedValue
  | endInValue
  | endInList
  | endInObject
  | endInString
  | expectedKeyword
  | expectedColon
  | expectedListSeparator
  | expectedObjectSeparator
  | keyNotString
  | trailingComma
  | trailingCharacters
  | invalidNumber
  | numberOutOfRange
  | invalidEscape
  | loneSurrogate
  | unfinishedSurrogatePair
  | controlCharacter
  | tooDeep
  | duplicateField (name : String)
  | wrongType (found : Found) (wanted : String)
deriving Repr, DecidableEq

/-- What was found, in words. -/
def Found.message : Found → String
  | null => "null"
  | bool value => "boolean `" ++ (if value then "true" else "false") ++ "`"
  | number (.floating value) => "floating point `" ++ String.ofList (Number.floatText value) ++ "`"
  | number value => "integer `" ++ String.ofList value.text ++ "`"
  | string text => "string " ++ Text.quoted text
  | array => "sequence"
  | object => "map"

/-- The cause in words. -/
def Cause.message : Cause → String
  | expectedValue => "expected value"
  | endInValue => "EOF while parsing a value"
  | endInList => "EOF while parsing a list"
  | endInObject => "EOF while parsing an object"
  | endInString => "EOF while parsing a string"
  | expectedKeyword => "expected ident"
  | expectedColon => "expected `:`"
  | expectedListSeparator => "expected `,` or `]`"
  | expectedObjectSeparator => "expected `,` or `\x7d`"
  | keyNotString => "key must be a string"
  | trailingComma => "trailing comma"
  | trailingCharacters => "trailing characters"
  | invalidNumber => "invalid number"
  | numberOutOfRange => "number out of range"
  | invalidEscape => "invalid escape"
  | loneSurrogate => "lone leading surrogate in hex escape"
  | unfinishedSurrogatePair => "unexpected end of hex escape"
  | controlCharacter => "control character (\\u0000-\\u001F) found while parsing a string"
  | tooDeep => "recursion limit exceeded"
  | duplicateField name => "duplicate field `" ++ name ++ "`"
  | wrongType found wanted => "invalid type: " ++ found.message ++ ", expected " ++ wanted

/-- Why reading stopped, and how many bytes of the text are behind the place it points at. -/
structure Fault where
  cause : Cause
  left : Nat
deriving Repr, DecidableEq

/-- The fault that points right in front of the text that is left. -/
def Fault.here (cause : Cause) (rest : List Char) : Fault :=
  ⟨cause, Text.byteSize rest⟩

/-- The fault that points behind the next byte, if there is one. -/
def Fault.next (cause : Cause) (rest : List Char) : Fault :=
  ⟨cause, Text.byteSize rest - 1⟩

/-- An error with its place in the text. -/
structure Error where
  cause : Cause
  line : Nat
  column : Nat
deriving Repr, DecidableEq

/-- The line and the column of the place `bytes` bytes further on in the text. -/
def placeAfter (bytes line column : Nat) : List Char → Nat × Nat
  | [] => (line, column)
  | c :: rest =>
    if bytes < c.utf8Size then (line, column + bytes)
    else if c == '\n' then placeAfter (bytes - c.utf8Size) (line + 1) 0 rest
    else placeAfter (bytes - c.utf8Size) line (column + c.utf8Size) rest

/-- The fault with its place in the text that was read. -/
def Fault.locate (text : List Char) (fault : Fault) : Error :=
  let (line, column) := placeAfter (Text.byteSize text - fault.left) 1 0 text
  ⟨fault.cause, line, column⟩

/-- The error in words. -/
def Error.message (error : Error) : String :=
  error.cause.message ++ " at line " ++ Nat.repr error.line ++ " column " ++ Nat.repr error.column

end ProjectSetup.Json
