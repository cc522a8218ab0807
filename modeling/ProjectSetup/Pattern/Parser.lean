import ProjectSetup.Pattern.Basic

/-!
# Reading patterns

The written form of a pattern has literal characters, `.` for any character but the line feed,
sets in brackets with ranges and `^` for the complement, `\s` and `\S` for blank characters and
the others, groups in parentheses (also `(?:…)`), alternatives `|`, the anchors `^` and `$`, and
the repetitions `*`, `+`, `?`, `{n}`, `{n,}` and `{n,m}`, each with an optional `?` after it.
`Pattern.parse?` refuses a group or set that is not closed, a group that is not opened, a
repetition of nothing, a range or count that runs backwards, and a backslash with nothing to
escape.

A pattern is first cut into tokens, which are then put together with a stack of open groups.
-/

namespace ProjectSetup.Pattern

/-- A token of a written pattern. -/
inductive Token where
  | atom (expr : Expr)
  | opening
  | closing
  | bar
  | repetition (least : Nat) (most : Option Nat)
deriving Repr, DecidableEq

/-- The item that a backslash and the character stand for. -/
def escape? (c : Char) : Option Item :=
  let single (d : Char) : Option Item := some (.range d d)
  if c == 's' then some .blank
  else if c == 'S' then some .nonBlank
  else if c == 'n' then single '\n'
  else if c == 'r' then single '\r'
  else if c == 't' then single '\t'
  else if c == 'f' then single '\x0c'
  else if c == 'v' then single '\x0b'
  else if c == 'a' then single '\x07'
  else if c == '<' || c == '>' || c.isAlphanum then none
  else if c.toNat < 0x80 && 0x20 < c.toNat then single c
  else none

/-- The items of a set up to the bracket that closes it, and what follows. -/
def readItems? : List Char → Option (List Item × List Char)
  | [] => none
  | c :: text =>
    if c == ']' then some ([], text)
    else if c == '[' then none
    else if c == '\x5c' then
      match text with
      | [] => none
      | e :: text => do
        let item ← escape? e
        let (items, rest) ← readItems? text
        some (item :: items, rest)
    else
      match text with
      | '-' :: high :: after =>
        if high == ']' then do
          let (items, rest) ← readItems? ('-' :: high :: after)
          some (.range c c :: items, rest)
        else if c ≤ high && high != '[' && high != '\x5c' then do
          let (items, rest) ← readItems? after
          some (.range c high :: items, rest)
        else none
      | text => do
        let (items, rest) ← readItems? text
        some (.range c c :: items, rest)
termination_by text => text.length

/-- The set whose opening bracket has been read; a closing bracket that comes first belongs to
the set. -/
def readSet? (text : List Char) : Option (CharSet × List Char) := do
  let (negated, text) := match text with
    | '^' :: text => (true, text)
    | text => (false, text)
  let (first, text) := match text with
    | ']' :: text => ([Item.range ']' ']'], text)
    | text => ([], text)
  let (items, rest) ← readItems? text
  some (⟨negated, first ++ items⟩, rest)

/-- The number that a run of digits spells. -/
def number? (digits : List Char) : Option Nat :=
  (String.ofList digits).toNat?

/-- The counts of a repetition whose opening brace has been read. -/
def readCounts? (text : List Char) : Option (Nat × Option Nat × List Char) := do
  let least ← number? (text.takeWhile Char.isDigit)
  match text.dropWhile Char.isDigit with
  | '\x7d' :: rest => some (least, some least, rest)
  | ',' :: '\x7d' :: rest => some (least, none, rest)
  | ',' :: text =>
    let most ← number? (text.takeWhile Char.isDigit)
    match text.dropWhile Char.isDigit with
    | '\x7d' :: rest => if least ≤ most then some (least, some most, rest) else none
    | _ => none
  | _ => none

/-- What follows a repetition, without the `?` that may stand there. -/
def dropPreference : List Char → List Char
  | '?' :: rest => rest
  | rest => rest

/-- The first token of a pattern that is not empty, and what follows it. -/
def nextToken? (c : Char) (text : List Char) : Option (Token × List Char) :=
  if c == '(' then
    match text with
    | '?' :: ':' :: rest => some (.opening, rest)
    | '?' :: _ => none
    | rest => some (.opening, rest)
  else if c == ')' then some (.closing, text)
  else if c == '|' then some (.bar, text)
  else if c == '*' then some (.repetition 0 none, dropPreference text)
  else if c == '+' then some (.repetition 1 none, dropPreference text)
  else if c == '?' then some (.repetition 0 (some 1), dropPreference text)
  else if c == '\x7b' then do
    let (least, most, rest) ← readCounts? text
    some (.repetition least most, dropPreference rest)
  else if c == '[' then do
    let (set, rest) ← readSet? text
    some (.atom (.one set), rest)
  else if c == '.' then some (.atom (.one .notLineFeed), text)
  else if c == '^' then some (.atom .start, text)
  else if c == '$' then some (.atom .stop, text)
  else if c == '\x5c' then
    match text with
    | [] => none
    | e :: rest => do
      let item ← escape? e
      some (.atom (.one ⟨false, [item]⟩), rest)
  else some (.atom (.one (.single c)), text)

/-- The tokens of a pattern, of which there are no more than `fuel`. -/
def tokens? : Nat → List Char → Option (List Token)
  | _, [] => some []
  | 0, _ :: _ => none
  | fuel + 1, c :: text => do
    let (token, rest) ← nextToken? c text
    let others ← tokens? fuel rest
    some (token :: others)

/-- A group that is still open: the alternatives that are complete, and the parts of the one
being read, the last part first. -/
structure Group where
  done : Option Expr
  parts : List Expr
deriving Repr

/-- The group as an expression. -/
def Group.close (group : Group) : Expr :=
  match group.done with
  | none => Expr.all group.parts.reverse
  | some done => .alt done (Expr.all group.parts.reverse)

/-- The expression at most `n` times. -/
def upTo (body : Expr) : Nat → Expr
  | 0 => .empty
  | n + 1 => .alt .empty (.seq body (upTo body n))

/-- The expression `n` times and then `rest`. -/
def times (body rest : Expr) : Nat → Expr
  | 0 => rest
  | n + 1 => .seq body (times body rest n)

/-- The expression any number of times. -/
def anyTimes : Expr → Expr
  | .one set => .many set
  | body => .star body

/-- The expression as often as the counts say. -/
def repeated (body : Expr) (least : Nat) : Option Nat → Expr
  | none => times body (anyTimes body) least
  | some most => times body (upTo body (most - least)) least

/-- Puts the tokens together; `outer` are the groups around the one being read. -/
def assemble? : List Token → Group → List Group → Option Expr
  | [], group, [] => some group.close
  | [], _, _ :: _ => none
  | .atom expr :: rest, group, outer =>
    assemble? rest { group with parts := expr :: group.parts } outer
  | .opening :: rest, group, outer => assemble? rest ⟨none, []⟩ (group :: outer)
  | .closing :: _, _, [] => none
  | .closing :: rest, group, around :: outer =>
    assemble? rest { around with parts := group.close :: around.parts } outer
  | .bar :: rest, group, outer => assemble? rest ⟨some group.close, []⟩ outer
  | .repetition least most :: rest, group, outer =>
    match group.parts with
    | [] => none
    | part :: parts =>
      assemble? rest { group with parts := repeated part least most :: parts } outer

/-- Reads a written pattern. -/
def parse? (source : String) : Option Pattern := do
  let tokens ← tokens? source.toList.length source.toList
  let expr ← assemble? tokens ⟨none, []⟩ []
  some ⟨source, expr⟩

end ProjectSetup.Pattern
