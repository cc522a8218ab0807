import ProjectSetup.Json.Numeral

/-!
# Reading JSON texts

A reader takes the text that is left and gives what it read with the text that is left after it,
or a `Fault`.  Lists and objects are read by loops over a state, `readItems` and `readMembers`, to
which the reader of one item or member is given; they serve for values that are kept
(`readValue`), for values that are only passed over (`skipValue`) and for texts of which the form
is known beforehand.

Values that are kept are nested at most 127 deep, and they are decoded: numbers are in range and
surrogates paired.  Values that are passed over only have to be well formed.
-/

namespace ProjectSetup.Json

/-- A reader takes the text that is left and gives what it read and the text that is then left. -/
abbrev Reader (α : Type) := List Char → Except Fault (α × List Char)

/-- The characters allowed between the tokens of a JSON text. -/
def isSpace (c : Char) : Bool :=
  c == ' ' || c == '\t' || c == '\n' || c == '\r'

/-- The text behind the spaces it starts with. -/
def skipSpace (text : List Char) : List Char :=
  text.dropWhile isSpace

/-! ### Keywords and strings -/

/-- Reads the characters that a keyword still needs. -/
def readKeyword : List Char → List Char → Except Fault (List Char)
  | [], text => .ok text
  | _ :: _, [] => .error (.here .endInValue [])
  | k :: keyword, c :: text =>
    if c == k then readKeyword keyword text else .error (.next .expectedKeyword (c :: text))

/-- The value of a hexadecimal digit. -/
def hexValue? (c : Char) : Option Nat :=
  if c.isDigit then some (c.toNat - '0'.toNat)
  else if 'a' ≤ c && c ≤ 'f' then some (c.toNat - 'a'.toNat + 10)
  else if 'A' ≤ c && c ≤ 'F' then some (c.toNat - 'A'.toNat + 10)
  else none

/-- The number that four hexadecimal digits spell. -/
def hexNumber? (a b c d : Char) : Option Nat := do
  let high := (← hexValue? a) * 16 + (← hexValue? b)
  let low := (← hexValue? c) * 16 + (← hexValue? d)
  some (high * 256 + low)

/-- Reads four hexadecimal digits.  Four bytes are looked at, whatever characters they belong
to. -/
def readHex : Reader Nat
  | a :: b :: c :: d :: text =>
    match hexNumber? a b c d with
    | some n => .ok (n, text)
    | none => .error ⟨.invalidEscape, Text.byteSize (a :: b :: c :: d :: text) - 4⟩
  | text =>
    if Text.byteSize text < 4 then .error (.here .endInString [])
    else .error ⟨.invalidEscape, Text.byteSize text - 4⟩

/-- The number is the first half of a surrogate pair. -/
def isLeading (n : Nat) : Bool :=
  0xD800 ≤ n && n ≤ 0xDBFF

/-- The number is the second half of a surrogate pair. -/
def isTrailing (n : Nat) : Bool :=
  0xDC00 ≤ n && n ≤ 0xDFFF

/-- The character of a surrogate pair. -/
def joinSurrogates (leading trailing : Nat) : Char :=
  Char.ofNat (0x10000 + (leading - 0xD800) * 0x400 + (trailing - 0xDC00))

/-- Reads the second escape of a surrogate pair. -/
def readTrailing (leading : Nat) : Reader Char
  | [] => .error (.here .endInString [])
  | c :: text =>
    if c != '\x5c' then .error (.next .unfinishedSurrogatePair (c :: text))
    else
      match text with
      | [] => .error (.here .endInString [])
      | u :: text =>
        if u != 'u' then .error (.next .unfinishedSurrogatePair (u :: text))
        else
          match readHex text with
          | .error fault => .error fault
          | .ok (n, rest) =>
            if isTrailing n then .ok (joinSurrogates leading n, rest)
            else .error (.here .loneSurrogate rest)

/-- Reads a character by its code, or by the codes of its two surrogates. -/
def readUnicode (text : List Char) : Except Fault (Char × List Char) :=
  match readHex text with
  | .error fault => .error fault
  | .ok (n, rest) =>
    if isTrailing n then .error (.here .loneSurrogate rest)
    else if isLeading n then readTrailing n rest
    else .ok (Char.ofNat n, rest)

/-- The character that a letter stands for behind a backslash. -/
def escapeLetter? (c : Char) : Option Char :=
  if c == '\x22' then some '\x22'
  else if c == '\x5c' then some '\x5c'
  else if c == '/' then some '/'
  else if c == 'b' then some '\x08'
  else if c == 'f' then some '\x0c'
  else if c == 'n' then some '\n'
  else if c == 'r' then some '\r'
  else if c == 't' then some '\t'
  else none

/-- Reads an escape whose backslash has been read. -/
def readEscape : Reader Char
  | [] => .error (.here .endInString [])
  | c :: text =>
    match escapeLetter? c with
    | some letter => .ok (letter, text)
    | none => if c == 'u' then readUnicode text else .error (.next .invalidEscape (c :: text))

/-- Checks the form of an escape whose backslash has been read. -/
def skipEscape : Reader Unit
  | [] => .error (.here .endInString [])
  | c :: text =>
    if (escapeLetter? c).isSome then .ok ((), text)
    else if c == 'u' then
      match readHex text with
      | .error fault => .error fault
      | .ok (_, rest) => .ok ((), rest)
    else .error (.next .invalidEscape (c :: text))

theorem readHex_length {text rest : List Char} {n : Nat} (h : readHex text = .ok (n, rest)) :
    rest.length < text.length := by
  unfold readHex at h
  split at h
  · split at h <;> simp_all
    omega
  · split at h <;> simp at h

theorem readTrailing_length {leading : Nat} {text rest : List Char} {c : Char}
    (h : readTrailing leading text = .ok (c, rest)) : rest.length < text.length := by
  unfold readTrailing at h
  repeat' split at h
  all_goals try simp at h
  next hx _ =>
    have := readHex_length hx
    simp only [h.2, List.length_cons] at this ⊢
    omega

theorem readUnicode_length {text rest : List Char} {c : Char}
    (h : readUnicode text = .ok (c, rest)) : rest.length < text.length := by
  unfold readUnicode at h
  split at h
  · simp at h
  · next hx =>
    have := readHex_length hx
    split at h
    · simp at h
    · split at h
      · exact Nat.lt_trans (readTrailing_length h) this
      · simp_all

theorem readEscape_length {text rest : List Char} {c : Char} (h : readEscape text = .ok (c, rest)) :
    rest.length < text.length := by
  unfold readEscape at h
  repeat' split at h
  all_goals try simp at h
  · simp [h.2]
  · exact Nat.lt_trans (readUnicode_length h) (by simp)

theorem skipEscape_length {text rest : List Char} (h : skipEscape text = .ok ((), rest)) :
    rest.length < text.length := by
  unfold skipEscape at h
  repeat' split at h
  all_goals try simp at h
  · simp [h]
  · next hx =>
    have := readHex_length hx
    subst h
    simp only [List.length_cons]
    omega

/-- Reads a string whose opening quote has been read. -/
def readString (text : List Char) : Except Fault (List Char × List Char) :=
  match text with
  | [] => .error (.here .endInString [])
  | c :: text =>
    if c == '\x22' then .ok ([], text)
    else if c == '\x5c' then
      match h : readEscape text with
      | .error fault => .error fault
      | .ok (d, rest) =>
        have := readEscape_length h
        match readString rest with
        | .error fault => .error fault
        | .ok (more, rest) => .ok (d :: more, rest)
    else if c.toNat < 0x20 then .error (.next .controlCharacter (c :: text))
    else
      match readString text with
      | .error fault => .error fault
      | .ok (more, rest) => .ok (c :: more, rest)
termination_by text.length

/-- Checks the form of a string whose opening quote has been read. -/
def skipString (text : List Char) : Except Fault (Unit × List Char) :=
  match text with
  | [] => .error (.here .endInString [])
  | c :: text =>
    if c == '\x22' then .ok ((), text)
    else if c == '\x5c' then
      match h : skipEscape text with
      | .error fault => .error fault
      | .ok ((), rest) =>
        have := skipEscape_length h
        skipString rest
    else if c.toNat < 0x20 then .error (.here .controlCharacter (c :: text))
    else skipString text
termination_by text.length

/-! ### Numbers and other scalars -/

/-- Reads a number whose sign has been read. -/
def readNumber (minus : Bool) (text : List Char) : Except Fault (Number × List Char) := do
  let (numeral, rest) ← Numeral.scan .kept text
  match numeral.number minus with
  | .ok number => .ok (number, rest)
  | .error left => .error ⟨.numberOutOfRange, Text.byteSize rest + left⟩

/-- Reads a value that is neither a list nor an object and starts with the given character. -/
def readScalar (c : Char) (text : List Char) : Except Fault (Value × List Char) :=
  if c == 'n' then do return (.null, ← readKeyword "ull".toList text)
  else if c == 't' then do return (.bool true, ← readKeyword "rue".toList text)
  else if c == 'f' then do return (.bool false, ← readKeyword "alse".toList text)
  else if c == '-' then do
    let (number, rest) ← readNumber true text
    return (.number number, rest)
  else if c.isDigit then do
    let (number, rest) ← readNumber false (c :: text)
    return (.number number, rest)
  else if c == '\x22' then do
    let (string, rest) ← readString text
    return (.string (String.ofList string), rest)
  else .error (.next .expectedValue (c :: text))

/-- Checks the form of a value that is neither a list nor an object. -/
def skipScalar (c : Char) (text : List Char) : Except Fault (Unit × List Char) :=
  if c == 'n' then do return ((), ← readKeyword "ull".toList text)
  else if c == 't' then do return ((), ← readKeyword "rue".toList text)
  else if c == 'f' then do return ((), ← readKeyword "alse".toList text)
  else if c == '-' then do
    let (_, rest) ← Numeral.scan .skipped text
    return ((), rest)
  else if c.isDigit then do
    let (_, rest) ← Numeral.scan .skipped (c :: text)
    return ((), rest)
  else if c == '\x22' then skipString text
  else .error (.next .expectedValue (c :: text))

/-! ### Lists and objects -/

/-- Steps over the space behind a comma in a list, where in a text that is kept the bracket may
not stand. -/
def afterListComma (reading : Reading) (text : List Char) : Except Fault (List Char) :=
  match reading, skipSpace text with
  | .kept, ']' :: rest => .error (.next .trailingComma (']' :: rest))
  | _, rest => .ok rest

/-- Reads the items behind an item, up to the closing bracket.  Each round takes at least the
comma, so that the length of the text bounds their number. -/
def moreItems {σ : Type} (reading : Reading) (item : σ → Reader σ) :
    Nat → σ → Reader σ
  | 0, _, text => .error (.here .endInList text)
  | bound + 1, state, text =>
    match skipSpace text with
    | [] => .error (.here .endInList [])
    | c :: rest =>
      if c == ']' then .ok (state, rest)
      else if c == ',' then do
        let text ← afterListComma reading rest
        let (state, text) ← item state text
        moreItems reading item bound state text
      else .error (.next .expectedListSeparator (c :: rest))

/-- Reads the items of a list whose opening bracket has been read: `item` reads one and adds it to
the state. -/
def readItems {σ : Type} (reading : Reading) (item : σ → Reader σ) (state : σ)
    (text : List Char) : Except Fault (σ × List Char) :=
  match skipSpace text with
  | [] => .error (.here .endInList [])
  | c :: rest =>
    if c == ']' then .ok (state, rest)
    else do
      let (state, text) ← item state (c :: rest)
      moreItems reading item text.length state text

/-- Steps up to the opening quote of a key behind a comma. -/
def afterObjectComma (reading : Reading) (text : List Char) : Except Fault (List Char) :=
  match reading, skipSpace text with
  | _, '\x22' :: rest => .ok rest
  | .kept, [] => .error (.here .endInValue [])
  | .skipped, [] => .error (.here .endInObject [])
  | .kept, '\x7d' :: rest => .error (.next .trailingComma ('\x7d' :: rest))
  | _, rest => .error (.next .keyNotString rest)

/-- Reads the members behind a member, up to the closing brace. -/
def moreMembers {σ : Type} (reading : Reading) (member : σ → Reader σ) :
    Nat → σ → Reader σ
  | 0, _, text => .error (.here .endInObject text)
  | bound + 1, state, text =>
    match skipSpace text with
    | [] => .error (.here .endInObject [])
    | c :: rest =>
      if c == '\x7d' then .ok (state, rest)
      else if c == ',' then do
        let text ← afterObjectComma reading rest
        let (state, text) ← member state text
        moreMembers reading member bound state text
      else .error (.next .expectedObjectSeparator (c :: rest))

/-- Reads the members of an object whose opening brace has been read: `member` reads one, of
which the opening quote of the key has been read, and adds it to the state. -/
def readMembers {σ : Type} (reading : Reading) (member : σ → Reader σ) (state : σ)
    (text : List Char) : Except Fault (σ × List Char) :=
  match skipSpace text with
  | [] => .error (.here .endInObject [])
  | c :: rest =>
    if c == '\x7d' then .ok (state, rest)
    else if c == '\x22' then do
      let (state, text) ← member state rest
      moreMembers reading member text.length state text
    else .error (.next .keyNotString (c :: rest))

/-- Reads the colon behind a key. -/
def readColon (text : List Char) : Except Fault (List Char) :=
  match skipSpace text with
  | [] => .error (.here .endInObject [])
  | c :: rest => if c == ':' then .ok rest else .error (.next .expectedColon (c :: rest))

/-! ### Values -/

/-- Reads an item with `inner` and puts it behind the items read before, which are kept last
first. -/
def readItem (inner : Reader Value) (items : List Value) (text : List Char) :
    Except Fault (List Value × List Char) := do
  let (value, rest) ← inner text
  return (value :: items, rest)

/-- Reads a member, of which the opening quote of the key has been read, and puts it into the
object. -/
def readMember (inner : Reader Value) (members : Members) (text : List Char) :
    Except Fault (Members × List Char) := do
  let (key, text) ← readString text
  let text ← readColon text
  let (value, rest) ← inner text
  return (members.insert (String.ofList key) value, rest)

/-- Reads a value; lists and objects only if there is a reader for what they hold. -/
def readValueWith (inner? : Option (Reader Value)) (text : List Char) :
    Except Fault (Value × List Char) :=
  match skipSpace text with
  | [] => .error (.here .endInValue [])
  | c :: rest =>
    if c == '[' then
      match inner? with
      | none => .error (.next .tooDeep (c :: rest))
      | some inner => do
        let (items, rest) ← readItems .kept (readItem inner) [] rest
        return (.array items.reverse, rest)
    else if c == '\x7b' then
      match inner? with
      | none => .error (.next .tooDeep (c :: rest))
      | some inner => do
        let (members, rest) ← readMembers .kept (readMember inner) [] rest
        return (.object members, rest)
    else readScalar c rest

/-- Reads a value whose lists and objects are nested at most `depth` deep. -/
def readValue : Nat → Reader Value
  | 0 => readValueWith none
  | depth + 1 => readValueWith (some (readValue depth))

/-- How deep lists and objects can be nested. -/
def maxDepth : Nat := 127

/-- Passes over a member, of which the opening quote of the key has been read. -/
def skipMember (inner : Reader Unit) (_ : Unit) (text : List Char) :
    Except Fault (Unit × List Char) := do
  let ((), text) ← skipString text
  let text ← readColon text
  inner text

/-- Passes over a value whose lists and objects are nested at most `depth` deep. -/
def skipValue : Nat → Reader Unit
  | 0, text => .error (.here .endInValue text)
  | depth + 1, text =>
    match skipSpace text with
    | [] => .error (.here .endInValue [])
    | c :: rest =>
      if c == '[' then readItems .skipped (fun _ => skipValue depth) () rest
      else if c == '\x7b' then readMembers .skipped (skipMember (skipValue depth)) () rest
      else skipScalar c rest

/-- Reads a whole text with a reader: behind what is read there may only be spaces. -/
def readWhole {α : Type} (reader : Reader α) (text : String) : Except Error α :=
  let chars := text.toList
  match reader chars with
  | .error fault => .error (fault.locate chars)
  | .ok (value, rest) =>
    match skipSpace rest with
    | [] => .ok value
    | rest => .error (Fault.locate chars (.next .trailingCharacters rest))

/-- Reads a text that is one value. -/
def Value.parse (text : String) : Except Error Value :=
  readWhole (readValue maxDepth) text

end ProjectSetup.Json
