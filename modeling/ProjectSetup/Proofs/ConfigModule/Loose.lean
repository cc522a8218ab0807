import ProjectSetup.Proofs.ConfigModule.Cutting
import ProjectSetup.Proofs.Json.Reading

/-!
# JSON written loosely

`Loose` relates the tokens of a JSON text to the texts that a config module may spell them with:
gaps stand between the tokens, strings may stand in single quotes, keys that are words may stand
without quotes, and a comma may stand behind the last item or member.

* `tokenize_loose`: a loose text is written as a JSON text that has the tokens it is a spelling of,
  whatever follows it in the source.

The statement is carried from the end of a text to its start together with the next token that counts,
since that token decides whether a word is a key and whether a comma is kept.
-/

namespace ProjectSetup.ConfigModule

open Json (Lexeme isBare isSpace isBody lexemes Written)

/-- The body of a string in double quotes, and the bodies it may have in single quotes: each
apostrophe is escaped, and an escaped double quote may stand alone. -/
inductive Requoted : List Char → List Char → Prop
  | nil : Requoted [] []
  | apostrophe {body single : List Char} : Requoted body single →
    Requoted ('\x27' :: body) ('\x5c' :: '\x27' :: single)
  | quote {body single : List Char} : Requoted body single →
    Requoted ('\x5c' :: '\x22' :: body) ('\x22' :: single)
  | escape {c : Char} {body single : List Char} : Requoted body single →
    Requoted ('\x5c' :: c :: body) ('\x5c' :: c :: single)
  | plain {c : Char} {body single : List Char} : c ≠ '\x27' → c ≠ '\x5c' → Requoted body single →
    Requoted (c :: body) (c :: single)

/-- The text is a word, as a key without quotes has to be. -/
def IsWord : List Char → Prop
  | [] => False
  | c :: rest => Text.isWordStart c = true ∧ ∀ d ∈ rest, Text.isWordChar d = true

/-- The mark closes a list or an object. -/
def isCloser (c : Char) : Bool :=
  c == ']' || c == '\x7d'

/-- The loose spellings of tokens; the flag tells that an item has just ended, so that a trailing
comma may follow. -/
inductive Loose : Bool → List Lexeme → List Char → Prop
  | stop {ended : Bool} : Loose ended [] []
  | gap {ended : Bool} {tokens : List Lexeme} {gap text : List Char} : Gap isSpace gap →
    Loose ended tokens text → Loose ended tokens (gap ++ text)
  | trailingComma {c : Char} {tokens : List Lexeme} {text : List Char} : isCloser c = true →
    Loose false (.mark c :: tokens) text → Loose true (.mark c :: tokens) (',' :: text)
  | mark {ended : Bool} {c : Char} {tokens : List Lexeme} {text : List Char} :
    Loose (isCloser c) tokens text → Loose ended (.mark c :: tokens) (c :: text)
  | double {ended : Bool} {body : List Char} {tokens : List Lexeme} {text : List Char} :
    Loose true tokens text →
    Loose ended (.quoted body :: tokens) ('\x22' :: body ++ '\x22' :: text)
  | single {ended : Bool} {body single : List Char} {tokens : List Lexeme} {text : List Char} :
    Requoted body single → Loose true tokens text →
    Loose ended (.quoted body :: tokens) ('\x27' :: single ++ '\x27' :: text)
  | key {ended : Bool} {name : List Char} {tokens : List Lexeme} {text : List Char} : IsWord name →
    Loose true (.mark ':' :: tokens) text →
    Loose ended (.quoted name :: .mark ':' :: tokens) (name ++ text)
  | bare {ended : Bool} {word : List Char} {tokens : List Lexeme} {text : List Char} :
    Loose true tokens text → Loose ended (.bare word :: tokens) (word ++ text)

/-! ### Tokens of values -/

/-- The marks of JSON texts. -/
def isMark (c : Char) : Bool :=
  c == '[' || c == '\x7b' || c == ':' || c == ',' || isCloser c

/-- A mark that stands behind an item or member. -/
def endsItem (c : Char) : Bool :=
  c == ',' || isCloser c

/-- The tokens do not start with a closing mark. -/
def GoesOn (tokens : List Lexeme) : Prop :=
  ∃ first others, tokens = first :: others ∧ ∀ c, first = .mark c → isCloser c = false

/-- The tokens are well formed, a comma is not the last of a list, and a number or keyword ends an
item. -/
def Placed : List Lexeme → Prop
  | [] => True
  | .mark c :: tokens => isMark c = true ∧ (c = ',' → GoesOn tokens) ∧ Placed tokens
  | .quoted body :: tokens => isBody body = true ∧ Placed tokens
  | .bare word :: tokens => word ≠ [] ∧ (∀ c ∈ word, isBare c = true) ∧
    (∃ c others, tokens = .mark c :: others ∧ endsItem c = true) ∧ Placed tokens

theorem isMark_cases {c : Char} (h : isMark c = true) :
    c = '[' ∨ c = '\x7b' ∨ c = ':' ∨ c = ',' ∨ c = ']' ∨ c = '\x7d' := by
  simpa [isMark, isCloser, or_assoc] using h

theorem isCloser_cases {c : Char} (h : isCloser c = true) : c = ']' ∨ c = '\x7d' := by
  simpa [isCloser] using h

theorem endsItem_cases {c : Char} (h : endsItem c = true) : c = ',' ∨ c = ']' ∨ c = '\x7d' := by
  simpa [endsItem, isCloser] using h

/-! ### Strings -/

theorem scanQuoted?_escape {quote c : Char} {text body rest : List Char}
    (h : scanQuoted? quote text = some (body, rest)) :
    scanQuoted? quote ('\x5c' :: c :: text) = some ('\x5c' :: c :: body, rest) := by
  rw [scanQuoted?, h]
  rfl

theorem scanQuoted?_plain {quote c : Char} {text body rest : List Char} (hq : c ≠ quote)
    (hs : c ≠ '\x5c') (hn : c ≠ '\n') (h : scanQuoted? quote text = some (body, rest)) :
    scanQuoted? quote (c :: text) = some (c :: body, rest) := by
  rw [scanQuoted?, if_neg (by simpa using hq), if_neg (by simpa using hn), h]
  · rfl
  · rintro rfl
    exact absurd rfl hs
  · rintro d more rfl
    exact absurd rfl hs

theorem scanQuoted?_body {body : List Char} (h : isBody body = true) (text : List Char) :
    scanQuoted? '\x22' (body ++ '\x22' :: text) = some (body, text) := by
  fun_induction isBody body with
  | case1 => simp [scanQuoted?]
  | case2 c body ih =>
    rw [Bool.and_eq_true] at h
    exact scanQuoted?_escape (ih h.2)
  | case3 c body _ ih =>
    simp only [Bool.and_eq_true, bne_iff_ne] at h
    exact scanQuoted?_plain h.1.1.1 h.1.1.2 h.1.2 (ih h.2)

theorem jsonBody_plain {c : Char} (hq : c ≠ '\x22') (hs : c ≠ '\x5c') (body : List Char) :
    jsonBody (c :: body) = c :: jsonBody body := by
  rw [jsonBody, if_neg (by simpa using hq)]
  rintro d more rfl
  exact absurd rfl hs

theorem jsonBody_body {body : List Char} (h : isBody body = true) : jsonBody body = body := by
  fun_induction isBody body with
  | case1 => rfl
  | case2 c body ih =>
    simp only [Bool.and_eq_true, bne_iff_ne] at h
    rw [jsonBody, if_neg (by simpa using h.1), ih h.2]
  | case3 c body _ ih =>
    simp only [Bool.and_eq_true, bne_iff_ne] at h
    rw [jsonBody_plain h.1.1.1 h.1.1.2, ih h.2]

/-- **A string in single quotes** is cut as a whole, and written in double quotes it has its body
back. -/
theorem scanQuoted?_requoted {body single : List Char} (hr : Requoted body single)
    (h : isBody body = true) (text : List Char) :
    scanQuoted? '\x27' (single ++ '\x27' :: text) = some (single, text) ∧
      jsonBody single = body := by
  induction hr with
  | nil => exact ⟨by simp [scanQuoted?], rfl⟩
  | @apostrophe body single _ ih =>
    obtain ⟨hscan, hbody⟩ := ih (by simpa [isBody] using h)
    refine ⟨scanQuoted?_escape hscan, ?_⟩
    rw [jsonBody, if_pos (by decide), hbody]
  | @quote body single _ ih =>
    simp only [isBody, Bool.and_eq_true] at h
    obtain ⟨hscan, hbody⟩ := ih h.2
    refine ⟨scanQuoted?_plain (by decide) (by decide) (by decide) hscan, ?_⟩
    rw [jsonBody, if_pos (by decide), hbody]
    · rintro d more ⟨⟩
  | @escape c body single _ ih =>
    simp only [isBody, Bool.and_eq_true, bne_iff_ne] at h
    obtain ⟨hscan, hbody⟩ := ih h.2
    refine ⟨scanQuoted?_escape hscan, ?_⟩
    rw [jsonBody, if_neg (by simpa using h.1), hbody]
  | @plain c body single hq hs _ ih =>
    rw [isBody] at h
    · simp only [Bool.and_eq_true, bne_iff_ne] at h
      obtain ⟨hscan, hbody⟩ := ih h.2
      refine ⟨scanQuoted?_plain hq hs h.1.2 hscan, ?_⟩
      rw [jsonBody_plain h.1.1.1 hs, hbody]
    · rintro d more rfl
      exact absurd rfl hs

/-! ### Loose texts -/

/-- The token of a source that a mark becomes. -/
def markToken (c : Char) : Token :=
  if c = ',' then .comma else .other c

/-- The token that counts next, where the first of these tokens is to come. -/
def Announces (ended : Bool) : Lexeme → Token → Prop
  | .mark c, token => token = markToken c ∨ (ended = true ∧ isCloser c = true ∧ token = .comma)
  | _, token => ∀ c, token = .other c → isBare c = true

theorem nextToken_mark {c : Char} (h : isMark c = true) (text : List Char) :
    nextToken c text = .ok (markToken c, text) := by
  unfold nextToken
  rcases isMark_cases h with rfl | rfl | rfl | rfl | rfl | rfl <;> rfl

theorem isSignificant_markToken (c : Char) : (markToken c).isSignificant = true := by
  unfold markToken
  split_ifs <;> rfl

theorem lexemes_of_isMark {c : Char} (h : isMark c = true) (text : List Char) :
    lexemes (c :: text) = .mark c :: lexemes text := by
  rcases isMark_cases h with rfl | rfl | rfl | rfl | rfl | rfl <;>
    exact Json.lexemes_mark (by decide) (by decide) (by decide)

/-- A text that spells a mark first starts with no word. -/
theorem isWordChar_head_of_loose {ended : Bool} {tokens : List Lexeme} {text : List Char}
    (h : Loose ended tokens text) {c : Char} {others : List Lexeme}
    (htokens : tokens = .mark c :: others) (hc : Text.isWordChar c = false) (rest : List Char) :
    ∀ d ∈ (text ++ rest).head?, Text.isWordChar d = false := by
  induction h with
  | stop => cases htokens
  | @gap ended tokens gap text hgap _ ih =>
    cases hgap with
    | nil => exact ih htokens
    | blank hd _ =>
      rintro e he
      cases he
      exact isWordChar_of_isBlank (isBlank_of_isSpace hd)
    | block _ _ =>
      rintro e he
      cases he
      decide
    | line _ _ =>
      rintro e he
      cases he
      decide
  | trailingComma _ _ _ =>
    rintro e he
    cases he
    decide
  | mark _ _ =>
    cases htokens
    rintro e he
    cases he
    exact hc
  | double _ _ => cases htokens
  | single _ _ _ => cases htokens
  | key _ _ _ => cases htokens
  | bare _ _ => cases htokens

theorem isWordChar_of_endsItem {c : Char} (h : endsItem c = true) : Text.isWordChar c = false := by
  rcases endsItem_cases h with rfl | rfl | rfl <;> decide

/-- What the tokens of a source are written as, if a loose spelling of these tokens comes first:
the text has the tokens, and the token that counts next is the one that they start with. -/
structure Spells (ended : Bool) (tokens : List Lexeme) (others : List Token)
    (all : List Token) (text : List Char) : Prop where
  jsonText_eq : jsonText all = text ++ jsonText others
  lexemes_append : ∀ tail, lexemes (text ++ tail) = tokens ++ lexemes tail
  announces : ∀ first rest, tokens = first :: rest →
    ∃ token, nextSignificant? all = some token ∧ Announces ended first token

theorem spells_mark {ended : Bool} {c : Char} {tokens : List Lexeme} {others all : List Token}
    {text : List Char} (hp : Placed (.mark c :: tokens))
    (h : Spells (isCloser c) tokens others all text) :
    Spells ended (.mark c :: tokens) others (markToken c :: all) (c :: text) := by
  obtain ⟨hmark, hcomma, -⟩ := hp
  have hkept : (markToken c).jsonText all = [c] := by
    unfold markToken
    split_ifs with hc
    · subst hc
      obtain ⟨first, rest, rfl, hfirst⟩ := hcomma rfl
      obtain ⟨token, hnext, htoken⟩ := h.announces first rest rfl
      have hgoes : ∀ d, isCloser d = true → token ≠ .other d := by
        rintro d hd rfl
        cases first with
        | mark e =>
          have he := hfirst e rfl
          obtain htoken | ⟨-, -, htoken⟩ := htoken
          · unfold markToken at htoken
            split_ifs at htoken
            obtain rfl := Token.other.inj htoken
            rw [hd] at he
            cases he
          · cases htoken
        | quoted body =>
          have := htoken d rfl
          rcases isCloser_cases hd with rfl | rfl <;> exact absurd this (by decide)
        | bare word =>
          have := htoken d rfl
          rcases isCloser_cases hd with rfl | rfl <;> exact absurd this (by decide)
      have h₁ := hgoes ']' (by decide)
      have h₂ := hgoes '\x7d' (by decide)
      simp [Token.jsonText, hnext, h₁, h₂]
    · rfl
  refine ⟨?_, fun tail => ?_, ?_⟩
  · rw [jsonText, hkept, h.jsonText_eq]
    rfl
  · rw [List.cons_append, lexemes_of_isMark hmark, h.lexemes_append, List.cons_append]
  · rintro first rest ⟨⟩
    exact ⟨_, nextSignificant?_significant (isSignificant_markToken c) all, .inl rfl⟩

theorem spells_quoted {ended : Bool} {body : List Char} {tokens : List Lexeme}
    {others all : List Token} {text : List Char} (hb : isBody body = true)
    (h : Spells true tokens others all text) {token : Token} (hs : token.isSignificant = true)
    (hother : ∀ c, token ≠ .other c)
    (htext : token.jsonText all = '\x22' :: body ++ ['\x22']) :
    Spells ended (.quoted body :: tokens) others (token :: all)
      ('\x22' :: body ++ '\x22' :: text) := by
  refine ⟨?_, fun tail => ?_, ?_⟩
  · rw [jsonText, htext, h.jsonText_eq]
    simp
  · have hcut := Json.lexemes_quote (Json.cutString?_of_isBody hb (text ++ tail))
    rw [h.lexemes_append] at hcut
    simpa using hcut
  · rintro first rest ⟨⟩
    exact ⟨token, nextSignificant?_significant hs all, fun c hc => absurd hc (hother c)⟩

theorem stops_of_lexemes_mark {c : Char} {text : List Char} {others : List Lexeme}
    (h : lexemes text = .mark c :: others) (hc : isBare c = false) : Json.Stops text := by
  obtain ⟨rest, hskip, -⟩ := Json.exists_of_lexemes_mark h
  exact Json.stops_of_skipSpace hskip hc

/-- **Loose texts are written as JSON**: the text that they become has the tokens that they
spell. -/
theorem tokenize_loose {ended : Bool} {tokens : List Lexeme} {text : List Char}
    (h : Loose ended tokens text) (hp : Placed tokens) {rest : List Char} {others : List Token}
    (hrest : tokenize rest = .ok others) :
    ∃ all written, tokenize (text ++ rest) = .ok all ∧ Spells ended tokens others all written := by
  induction h with
  | stop => exact ⟨others, [], hrest, rfl, fun tail => rfl, fun _ _ h => by cases h⟩
  | @gap ended tokens gap text hgap _ ih =>
    obtain ⟨all, written, hall, hspells⟩ := ih hp
    obtain ⟨blanks, hblanks, hcut⟩ := tokenize_gap isBlankClass_isSpace hgap
    obtain ⟨more, hmore, htext, hnext⟩ := hcut _ _ hall
    refine ⟨more, blanks ++ written, by rwa [List.append_assoc], ?_, fun tail => ?_, ?_⟩
    · rw [htext, hspells.jsonText_eq, List.append_assoc]
    · rw [List.append_assoc, Json.lexemes_append_of_spaces hblanks, hspells.lexemes_append]
    · rw [hnext]
      exact hspells.announces
  | @trailingComma c tokens text hc _ ih =>
    obtain ⟨all, written, hall, hspells⟩ := ih hp
    obtain ⟨token, hnext, htoken⟩ := hspells.announces _ _ rfl
    have hclose : nextSignificant? all = some (.other c) := by
      obtain rfl | ⟨hfalse, -, -⟩ := htoken
      · rw [hnext, markToken, if_neg]
        rintro rfl
        exact absurd hc (by decide)
      · cases hfalse
    refine ⟨.comma :: all, written, tokenize_cons (nextToken_mark (c := ',') (by decide) _) hall,
      ?_, hspells.lexemes_append, ?_⟩
    · rw [jsonText, hspells.jsonText_eq, Token.jsonText, hclose]
      rcases isCloser_cases hc with rfl | rfl <;> rfl
    · rintro first others ⟨⟩
      exact ⟨.comma, nextSignificant?_significant rfl all, .inr ⟨rfl, hc, rfl⟩⟩
  | @mark ended c tokens text _ ih =>
    obtain ⟨all, written, hall, hspells⟩ := ih hp.2.2
    exact ⟨markToken c :: all, c :: written, tokenize_cons (nextToken_mark hp.1 _) hall,
      spells_mark hp hspells⟩
  | @double ended body tokens text _ ih =>
    obtain ⟨all, written, hall, hspells⟩ := ih hp.2
    have hcut := nextToken_quoted (.inr rfl) (scanQuoted?_body hp.1 (text ++ rest))
    refine ⟨.quoted '\x22' body :: all, _, ?_, spells_quoted hp.1 hspells rfl (by simp) ?_⟩
    · simpa using tokenize_cons hcut hall
    · rw [Token.jsonText, jsonBody_body hp.1]
  | @single ended body single tokens text hsingle _ ih =>
    obtain ⟨all, written, hall, hspells⟩ := ih hp.2
    obtain ⟨hscan, hbody⟩ := scanQuoted?_requoted hsingle hp.1 (text ++ rest)
    have hcut := nextToken_quoted (.inl rfl) hscan
    refine ⟨.quoted '\x27' single :: all, _, ?_, spells_quoted hp.1 hspells rfl (by simp) ?_⟩
    · simpa using tokenize_cons hcut hall
    · rw [Token.jsonText, hbody]
  | @key ended name tokens text hname hloose ih =>
    obtain ⟨all, written, hall, hspells⟩ := ih hp.2
    obtain ⟨token, hnext, htoken⟩ := hspells.announces _ _ rfl
    have hcolon : nextSignificant? all = some (.other ':') := by
      obtain rfl | ⟨-, hfalse, -⟩ := htoken
      · exact hnext
      · exact absurd hfalse (by decide)
    cases name with
    | nil => exact hname.elim
    | cons c name =>
      have hcut := nextToken_word (isBlank_of_isWordStart hname.1) hname.1 hname.2
        (isWordChar_head_of_loose hloose rfl (by decide) rest)
      refine ⟨.word (c :: name) :: all, _, ?_, spells_quoted hp.1 hspells rfl (by simp) ?_⟩
      · simpa using tokenize_cons hcut hall
      · rw [Token.jsonText, hcolon]
        rfl
  | @bare ended word tokens text hloose ih =>
    obtain ⟨hne, hword, ⟨c, behind, rfl, hc⟩, hp⟩ := hp
    obtain ⟨all, written, hall, hspells⟩ := ih hp
    obtain ⟨token, hnext, htoken⟩ := hspells.announces _ _ rfl
    have hcolon : nextSignificant? all ≠ some (.other ':') := by
      rw [hnext]
      rintro ⟨⟩
      obtain htoken | ⟨-, -, htoken⟩ := htoken
      · rcases endsItem_cases hc with rfl | rfl | rfl <;> exact absurd htoken (by decide)
      · cases htoken
    have hhead := isWordChar_head_of_loose hloose rfl (isWordChar_of_endsItem hc) rest
    obtain ⟨more, hmore, htext, -, hfirst⟩ := tokenize_bare hword hall hhead hcolon
    refine ⟨more, word ++ written, by rwa [List.append_assoc], ?_, fun tail => ?_, ?_⟩
    · rw [htext, hspells.jsonText_eq, List.append_assoc]
    · have hstops : Json.Stops (written ++ tail) :=
        stops_of_lexemes_mark (hspells.lexemes_append tail)
          (by rcases endsItem_cases hc with rfl | rfl | rfl <;> decide)
      cases word with
      | nil => exact absurd rfl hne
      | cons d word =>
        rw [List.append_assoc, Json.lexemes_bare (hword d (by simp))
          (fun e he => hword e (by simp [he])) hstops, hspells.lexemes_append]
        rfl
    · rintro first others ⟨⟩
      obtain ⟨token, hnext, htoken⟩ := hfirst hne
      exact ⟨token, hnext, htoken⟩

end ProjectSetup.ConfigModule
