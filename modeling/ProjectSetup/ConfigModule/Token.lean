import ProjectSetup.Edited
import ProjectSetup.Text.Blank
import ProjectSetup.Text.Search

/-!
# Tokens of a config module

The source of a config module is cut into blank characters, comments, words, quoted strings,
commas and other characters.  Every token keeps how it is spelled, so that the spellings of the
tokens make up the source (`Token.spelling`, `spelling_tokenize`).

`jsonText` writes tokens as a JSON text: comments are left out, quoted strings take double quotes,
a word in front of a colon is put between quotes, and a comma in front of a closing bracket or
brace is dropped.  Blank characters and comments do not count when the next character is asked
for.
-/

namespace ProjectSetup.ConfigModule

/-- A piece of the source of a config module. -/
inductive Token where
  | blank (c : Char)
  | comment (text : List Char)
  | word (name : List Char)
  | quoted (quote : Char) (body : List Char)
  | comma
  | other (c : Char)
deriving Repr, DecidableEq

namespace Token

/-- The token as it stands in the source. -/
def spelling : Token → List Char
  | blank c => [c]
  | comment text => text
  | word name => name
  | quoted quote body => quote :: body ++ [quote]
  | comma => [',']
  | other c => [c]

/-- The token is neither blank nor a comment. -/
def isSignificant : Token → Bool
  | blank _ => false
  | comment _ => false
  | _ => true

end Token

/-! ### Cutting the source -/

/-- The body of a quoted string up to its quote, and what follows.  A backslash takes the next
character with it, and a line feed may only stand behind one. -/
def scanQuoted? (quote : Char) : List Char → Option (List Char × List Char)
  | [] => none
  | '\x5c' :: [] => none
  | '\x5c' :: c :: text =>
    (scanQuoted? quote text).map fun (body, rest) => ('\x5c' :: c :: body, rest)
  | c :: text =>
    if c == quote then some ([], text)
    else if c == '\n' then none
    else (scanQuoted? quote text).map fun (body, rest) => (c :: body, rest)

/-- The token that starts with the character, and what follows it. -/
def nextToken (c : Char) (text : List Char) : Except Unreadable (Token × List Char) :=
  if Text.isBlank c then .ok (.blank c, text)
  else if c == '\x27' || c == '\x22' then
    match scanQuoted? c text with
    | some (body, rest) => .ok (.quoted c body, rest)
    | none => .error .openString
  else if c == '\x60' then .error .templateLiteral
  else if c == '/' then
    match text with
    | '/' :: _ =>
      .ok (.comment (c :: text.takeWhile (· != '\n')), text.dropWhile (· != '\n'))
    | '*' :: text =>
      match Text.splitFirst? ['*', '/'] text with
      | some (body, rest) => .ok (.comment (c :: '*' :: body ++ ['*', '/']), rest)
      | none => .error .openComment
    | text => .ok (.other c, text)
  else if c == ',' then .ok (.comma, text)
  else if Text.isWordStart c then
    .ok (.word (c :: text.takeWhile Text.isWordChar), text.dropWhile Text.isWordChar)
  else .ok (.other c, text)

theorem length_dropWhile_le {α : Type} (p : α → Bool) (l : List α) :
    (l.dropWhile p).length ≤ l.length :=
  (List.dropWhile_suffix p).length_le

theorem scanQuoted?_spelling {quote : Char} {text body rest : List Char}
    (h : scanQuoted? quote text = some (body, rest)) : body ++ quote :: rest = text := by
  fun_induction scanQuoted? quote text generalizing body with
  | case1 => simp at h
  | case2 => simp at h
  | case3 c text ih =>
    obtain ⟨⟨b, r⟩, hs, heq⟩ := Option.map_eq_some_iff.1 h
    obtain ⟨rfl, rfl⟩ : _ = body ∧ r = rest := by simpa using heq
    simp [ih hs]
  | case4 c text _ _ hc =>
    obtain ⟨rfl, rfl⟩ : [] = body ∧ text = rest := by simpa using h
    simpa using (beq_iff_eq.1 hc).symm
  | case5 => simp at h
  | case6 c text _ _ _ _ ih =>
    obtain ⟨⟨b, r⟩, hs, heq⟩ := Option.map_eq_some_iff.1 h
    obtain ⟨rfl, rfl⟩ : _ = body ∧ r = rest := by simpa using heq
    simp [ih hs]

/-- A token and what follows it make up the text. -/
theorem spelling_nextToken {c : Char} {text rest : List Char} {token : Token}
    (h : nextToken c text = .ok (token, rest)) : token.spelling ++ rest = c :: text := by
  unfold nextToken at h
  repeat' split at h
  all_goals simp only [reduceCtorEq, Except.ok.injEq, Prod.mk.injEq] at h
  all_goals obtain ⟨rfl, rfl⟩ := h
  · rfl
  · next hs => simp [Token.spelling, scanQuoted?_spelling hs]
  · simp [Token.spelling, List.takeWhile_append_dropWhile]
  · next hs => simp [Token.spelling, Text.eq_of_splitFirst? hs]
  · rfl
  · next hc => simp [Token.spelling, beq_iff_eq.1 hc]
  · simp [Token.spelling, List.takeWhile_append_dropWhile]
  · rfl

theorem spelling_ne_nil {c : Char} {text rest : List Char} {token : Token}
    (h : nextToken c text = .ok (token, rest)) : token.spelling ≠ [] := by
  unfold nextToken at h
  repeat' split at h
  all_goals simp only [reduceCtorEq, Except.ok.injEq, Prod.mk.injEq] at h
  all_goals obtain ⟨rfl, rfl⟩ := h
  all_goals simp [Token.spelling]

theorem length_nextToken {c : Char} {text rest : List Char} {token : Token}
    (h : nextToken c text = .ok (token, rest)) : rest.length ≤ text.length := by
  have hlen := congrArg List.length (spelling_nextToken h)
  have hpos := List.length_pos_iff.2 (spelling_ne_nil h)
  simp only [List.length_append, List.length_cons] at hlen
  omega

/-- The tokens of a source. -/
def tokenize (text : List Char) : Except Unreadable (List Token) :=
  match text with
  | [] => .ok []
  | c :: text =>
    match h : nextToken c text with
    | .error why => .error why
    | .ok (token, rest) =>
      have := length_nextToken h
      (tokenize rest).map (token :: ·)
termination_by text.length

/-- The tokens of a source make it up. -/
theorem spelling_tokenize {text : List Char} {tokens : List Token}
    (h : tokenize text = .ok tokens) : tokens.flatMap Token.spelling = text := by
  fun_induction tokenize text generalizing tokens with
  | case1 =>
    obtain rfl := Except.ok.inj h
    rfl
  | case2 => simp at h
  | case3 c text token rest hnext _ ih =>
    cases hrest : tokenize rest with
    | error why => simp [hrest, Except.map] at h
    | ok others =>
      simp only [hrest, Except.map, Except.ok.injEq] at h
      obtain rfl := h
      rw [List.flatMap_cons, ih hrest, spelling_nextToken hnext]

/-! ### Writing tokens as JSON -/

/-- The body of a quoted string between double quotes: an escaped apostrophe stands alone, and a
double quote is escaped. -/
def jsonBody : List Char → List Char
  | [] => []
  | '\x5c' :: c :: body =>
    if c == '\x27' then c :: jsonBody body else '\x5c' :: c :: jsonBody body
  | c :: body => if c == '\x22' then '\x5c' :: c :: jsonBody body else c :: jsonBody body

/-- The next token that is neither blank nor a comment. -/
def nextSignificant? (tokens : List Token) : Option Token :=
  tokens.find? Token.isSignificant

/-- A token as it is written in front of the others. -/
def Token.jsonText (token : Token) (others : List Token) : List Char :=
  match token with
  | blank c => [c]
  | comment _ => []
  | word name =>
    if nextSignificant? others == some (.other ':') then '\x22' :: name ++ ['\x22'] else name
  | quoted _ body => '\x22' :: jsonBody body ++ ['\x22']
  | comma =>
    let next := nextSignificant? others
    if next == some (.other '\x7d') || next == some (.other ']') then [] else [',']
  | other c => [c]

/-- The JSON text of the tokens. -/
def jsonText : List Token → List Char
  | [] => []
  | token :: others => token.jsonText others ++ jsonText others

end ProjectSetup.ConfigModule
