import ProjectSetup.Proofs.ConfigModule.Export
import ProjectSetup.Proofs.Json.Neighbours

/-!
# The pieces of a module written as JSON

The JSON text of a module is made of strings and of single characters outside strings.  `pieces`
cuts it up like that and keeps the places of comments, which have no text.  Unlike the text, the
pieces of a module tell what stood between two characters in its source.

* `jsonText_eq`: the text that the pieces make up.
* `exists_neighbours`: the tokens of two pieces with nothing but spaces between them.
-/

namespace ProjectSetup.ConfigModule

open Json (Lexeme Value Written cutString? isBare isSpace lexemes Stops)

/-- A piece of a module written as JSON. -/
inductive Piece where
  /-- A character outside strings. -/
  | char (c : Char)
  /-- A string, as it is written between its quotes. -/
  | string (body : List Char)
  /-- The place of a comment. -/
  | comment
deriving Repr, DecidableEq

/-- The piece as it is written. -/
def Piece.text : Piece → List Char
  | char c => [c]
  | string body => '\x22' :: body ++ ['\x22']
  | comment => []

/-- The text that the pieces make up. -/
def textOf (ps : List Piece) : List Char :=
  ps.flatMap Piece.text

/-- The pieces that a token is written as in front of the others. -/
def Token.pieces (token : Token) (others : List Token) : List Piece :=
  match token with
  | blank c => [.char c]
  | comment _ => [.comment]
  | word name =>
    if nextSignificant? others == some (.other ':') then [.string name] else name.map .char
  | quoted _ body => [.string (jsonBody body)]
  | comma =>
    let next := nextSignificant? others
    if next == some (.other '\x7d') || next == some (.other ']') then [] else [.char ',']
  | other c => [.char c]

/-- The pieces of the JSON text of the tokens. -/
def pieces : List Token → List Piece
  | [] => []
  | token :: others => token.pieces others ++ pieces others

@[simp] theorem textOf_nil : textOf [] = [] :=
  rfl

@[simp] theorem textOf_cons (p : Piece) (ps : List Piece) : textOf (p :: ps) = p.text ++ textOf ps :=
  rfl

@[simp] theorem textOf_append (ps qs : List Piece) : textOf (ps ++ qs) = textOf ps ++ textOf qs :=
  List.flatMap_append

theorem textOf_map_char (chars : List Char) : textOf (chars.map .char) = chars := by
  induction chars with
  | nil => rfl
  | cons c chars ih => rw [List.map_cons, textOf_cons, ih]; rfl

theorem mem_textOf_of_char {ps : List Piece} {c : Char} (h : .char c ∈ ps) : c ∈ textOf ps :=
  List.mem_flatMap.2 ⟨_, h, by simp [Piece.text]⟩

/-- **The JSON text of tokens** is made up by their pieces. -/
theorem jsonText_eq (tokens : List Token) : jsonText tokens = textOf (pieces tokens) := by
  induction tokens with
  | nil => rfl
  | cons token others ih =>
    rw [jsonText, pieces, textOf_append, ih]
    congr 1
    cases token with
    | word name =>
      rw [Token.jsonText, Token.pieces]
      split_ifs
      · simp [Piece.text]
      · exact (textOf_map_char name).symm
    | comma =>
      rw [Token.jsonText, Token.pieces]
      split_ifs <;> rfl
    | _ => simp [Token.jsonText, Token.pieces, Piece.text]

/-! ### Pieces of tokens -/

/-- A string goes to its closing quote, and no other piece has a quote. -/
def Piece.Closed : Piece → Prop
  | char c => c ≠ '\x22'
  | string body => ∀ rest, cutString? (body ++ '\x22' :: rest) = some (body, rest)
  | comment => True

theorem cutString?_plain {c : Char} (hq : c ≠ '\x22') (hs : c ≠ '\x5c') (text : List Char) :
    cutString? (c :: text) = (cutString? text).map fun (body, rest) => (c :: body, rest) := by
  rw [cutString?, if_neg hq]
  rintro d more rfl
  exact absurd rfl hs

theorem closed_jsonBody {quote : Char} {text body rest : List Char}
    (h : scanQuoted? quote text = some (body, rest)) : (Piece.string (jsonBody body)).Closed := by
  intro more
  fun_induction scanQuoted? quote text generalizing body with
  | case1 => cases h
  | case2 => cases h
  | case3 c text ih =>
    obtain ⟨⟨front, left⟩, hscan, heq⟩ := Option.map_eq_some_iff.1 h
    obtain ⟨rfl, rfl⟩ := Prod.mk.inj heq
    rw [jsonBody]
    split_ifs with hc
    · rw [List.cons_append, cutString?_plain (by rw [beq_iff_eq.1 hc]; decide)
        (by rw [beq_iff_eq.1 hc]; decide), ih hscan]
      rfl
    · rw [List.cons_append, List.cons_append, cutString?, ih hscan]
      rfl
  | case4 =>
    obtain ⟨rfl, rfl⟩ := Prod.mk.inj (Option.some.inj h)
    rfl
  | case5 => cases h
  | case6 c text hlast hpair hq hn ih =>
    obtain ⟨⟨front, left⟩, hscan, heq⟩ := Option.map_eq_some_iff.1 h
    obtain ⟨rfl, rfl⟩ := Prod.mk.inj heq
    have hs := ne_backslash hlast hpair
    by_cases hc : c = '\x22'
    · subst hc
      have hbody : jsonBody ('\x22' :: front) = '\x5c' :: '\x22' :: jsonBody front := by
        rw [jsonBody]
        · rfl
        · rintro d more hslash
          exact absurd hslash hs
      rw [hbody, List.cons_append, List.cons_append, cutString?, ih hscan]
      rfl
    · rw [jsonBody_plain hc hs, List.cons_append, cutString?_plain hc hs, ih hscan]
      rfl

theorem closed_word {name : List Char} (h : ∀ c ∈ name, Text.isWordChar c = true) :
    (Piece.string name).Closed := by
  intro more
  induction name with
  | nil => rfl
  | cons c name ih =>
    have hc := h c (by simp)
    rw [List.cons_append,
      cutString?_plain (ne_of_class hc (by decide)) (ne_of_class hc (by decide)),
      ih fun d hd => h d (by simp [hd])]
    rfl

theorem closed_pieces_word {name : List Char} (h : ∀ c ∈ name, Text.isWordChar c = true)
    (others : List Token) : ∀ p ∈ (Token.word name).pieces others, p.Closed := by
  intro p hp
  rw [Token.pieces] at hp
  split_ifs at hp
  · obtain rfl := List.mem_singleton.1 hp
    exact closed_word h
  · obtain ⟨c, hc, rfl⟩ := List.mem_map.1 hp
    rintro rfl
    exact absurd (h _ hc) (by decide)

theorem closed_token {token : Token} (h : token.IsCut) (others : List Token) :
    ∀ p ∈ token.pieces others, p.Closed := by
  cases h with
  | word hstart hname =>
    exact closed_pieces_word (List.forall_mem_cons.2 ⟨Text.isWordChar_of_isWordStart hstart, hname⟩)
      others
  | comma =>
    intro p hp
    rw [Token.pieces] at hp
    split_ifs at hp
    · cases hp
    · obtain rfl := List.mem_singleton.1 hp
      exact (by decide : ',' ≠ '\x22')
  | blank hblank =>
    intro p hp
    obtain rfl := List.mem_singleton.1 hp
    rintro rfl
    exact absurd hblank (by decide)
  | comment =>
    intro p hp
    obtain rfl := List.mem_singleton.1 hp
    trivial
  | quoted hscan =>
    intro p hp
    obtain rfl := List.mem_singleton.1 hp
    exact closed_jsonBody hscan
  | other _ hquote =>
    intro p hp
    obtain rfl := List.mem_singleton.1 hp
    exact hquote

theorem closed_pieces {tokens : List Token} (h : ∀ token ∈ tokens, token.IsCut) :
    ∀ p ∈ pieces tokens, p.Closed := by
  induction tokens with
  | nil => simp [pieces]
  | cons token others ih =>
    obtain ⟨htoken, hothers⟩ := List.forall_mem_cons.1 h
    exact List.forall_mem_append.2 ⟨closed_token htoken others, ih hothers⟩

/-! ### The tokens of pieces -/

namespace Piece

/-- The token that has the piece in it. -/
inductive Shows : Piece → Lexeme → Prop
  | string (body : List Char) : Shows (.string body) (.quoted body)
  | bare {c : Char} {word : List Char} : isBare c = true → Shows (.char c) (.bare word)
  | mark {c : Char} : isBare c = false → isSpace c = false → Shows (.char c) (.mark c)

/-- The piece has no token: it is a space or the place of a comment. -/
def IsGap : Piece → Prop
  | char c => isSpace c = true
  | string _ => False
  | comment => True

/-- The piece is a character of a number or keyword. -/
def IsBare : Piece → Prop
  | char c => isBare c = true
  | _ => False

end Piece

theorem stops_text {p : Piece} {ps : List Piece} (hgap : p ≠ .comment) (h : ¬ p.IsBare) :
    Stops (textOf (p :: ps)) := by
  rintro c hc
  cases p with
  | char d =>
    obtain rfl : d = c := by simpa [Piece.text] using hc
    simpa [Piece.IsBare] using h
  | string body =>
    obtain rfl : '\x22' = c := by simpa [Piece.text] using hc
    decide
  | comment => exact absurd rfl hgap

/-- A character of a word in front of a text becomes a word of its own, or belongs to the word that
the text starts with. -/
theorem lexemes_cons_bare {c : Char} (hc : isBare c = true) (text : List Char) :
    (Stops text ∧ lexemes (c :: text) = .bare [c] :: lexemes text) ∨
      ¬ Stops text ∧ ∃ word others, lexemes text = .bare word :: others ∧
        lexemes (c :: text) = .bare (c :: word) :: others := by
  by_cases hstops : Stops text
  · have hword := Json.lexemes_bare hc (List.forall_mem_nil _) hstops
    exact .inl ⟨hstops, hword⟩
  · cases text with
    | nil => exact absurd Json.stops_nil hstops
    | cons d text =>
      have hd : isBare d = true := by
        by_contra hd
        exact hstops fun e he => by
          obtain rfl : d = e := by simpa using he
          simpa using hd
      have hrest : Stops (text.dropWhile isBare) := Json.head?_dropWhile_eq_false isBare text
      have hword : ∀ e ∈ text.takeWhile isBare, isBare e = true :=
        fun e he => List.mem_takeWhile_imp he
      have hlong := Json.lexemes_bare hc (List.forall_mem_cons.2 ⟨hd, hword⟩) hrest
      have hshort := Json.lexemes_bare hd hword hrest
      rw [List.cons_append, List.takeWhile_append_dropWhile] at hshort
      rw [List.cons_append, List.cons_append, List.takeWhile_append_dropWhile] at hlong
      exact .inr ⟨hstops, _, _, hshort, hlong⟩

theorem lexemes_string {body : List Char} (h : (Piece.string body).Closed) (ps : List Piece) :
    lexemes (textOf (.string body :: ps)) = .quoted body :: lexemes (textOf ps) := by
  have hcut := Json.lexemes_quote (h (textOf ps))
  rwa [textOf_cons, Piece.text, List.append_assoc]

theorem lexemes_gap {gap : List Piece} (h : ∀ p ∈ gap, p.IsGap) (text : List Char) :
    lexemes (textOf gap ++ text) = lexemes text := by
  refine Json.lexemes_append_of_spaces fun c hc => ?_
  obtain ⟨p, hp, hcp⟩ := List.mem_flatMap.1 hc
  have hgap := h p hp
  cases p with
  | char d =>
    obtain rfl : c = d := by simpa [Piece.text] using hcp
    exact hgap
  | string body => exact hgap.elim
  | comment => cases hcp

/-- The first token of a text that starts with a piece is the one of the piece. -/
theorem exists_head {p : Piece} (hclosed : p.Closed) (hgap : ¬ p.IsGap) (ps : List Piece) :
    ∃ first others, lexemes (textOf (p :: ps)) = first :: others ∧ p.Shows first := by
  cases p with
  | string body => exact ⟨_, _, lexemes_string hclosed ps, .string body⟩
  | comment => exact absurd trivial hgap
  | char c =>
    have hspace : isSpace c = false := by simpa [Piece.IsGap] using hgap
    cases hbare : isBare c with
    | false => exact ⟨_, _, Json.lexemes_mark hspace hclosed hbare, .mark hbare hspace⟩
    | true =>
      rcases lexemes_cons_bare hbare (textOf ps) with ⟨-, h⟩ | ⟨-, word, others, -, h⟩
      · exact ⟨_, _, h, .bare hbare⟩
      · exact ⟨_, _, h, .bare hbare⟩

/-- The token of a piece and what follows it stay when pieces are put in front. -/
theorem exists_of_append {front : List Piece} (hclosed : ∀ p ∈ front, p.Closed) {p : Piece}
    {ps : List Piece} {first : Lexeme} {others : List Lexeme}
    (h : lexemes (textOf (p :: ps)) = first :: others) (hshows : p.Shows first) :
    ∃ before first', lexemes (textOf (front ++ p :: ps)) = before ++ first' :: others ∧
      p.Shows first' := by
  induction front with
  | nil => exact ⟨[], first, h, hshows⟩
  | cons q front ih =>
    obtain ⟨before, first', hrest, hshows'⟩ := ih fun r hr => hclosed r (by simp [hr])
    have hq := hclosed q (by simp)
    rw [List.cons_append]
    cases q with
    | comment => exact ⟨before, first', hrest, hshows'⟩
    | string body =>
      refine ⟨.quoted body :: before, first', ?_, hshows'⟩
      rw [lexemes_string hq, hrest]
      rfl
    | char c =>
      have htext : textOf (.char c :: (front ++ p :: ps)) = c :: textOf (front ++ p :: ps) := rfl
      rw [htext]
      cases hspace : isSpace c with
      | true => exact ⟨before, first', by rw [Json.lexemes_space hspace, hrest], hshows'⟩
      | false =>
        cases hbare : isBare c with
        | false =>
          exact ⟨.mark c :: before, first', by rw [Json.lexemes_mark hspace hq hbare, hrest]; rfl,
            hshows'⟩
        | true =>
          rcases lexemes_cons_bare hbare (textOf (front ++ p :: ps)) with
            ⟨-, heq⟩ | ⟨-, word, left, hword, heq⟩
          · exact ⟨.bare [c] :: before, first', by rw [heq, hrest]; rfl, hshows'⟩
          · -- the character belongs to the word that stood first
            rw [hrest] at hword
            cases before with
            | nil =>
              obtain ⟨rfl, rfl⟩ := List.cons.inj hword
              refine ⟨[], .bare (c :: word), heq, ?_⟩
              cases hshows' with
              | bare hd => exact .bare hd
            | cons b before =>
              obtain ⟨rfl, rfl⟩ := List.cons.inj hword
              exact ⟨.bare (c :: word) :: before, first', heq, hshows'⟩

/-- A word ends where a gap with a text or another piece that is no character of a word stands. -/
theorem stops_gap {gap back : List Piece} {q : Piece} (hgap : ∀ r ∈ gap, r.IsGap) (hq : ¬ q.IsGap)
    (hapart : textOf gap ≠ [] ∨ ¬ q.IsBare) : Stops (textOf (gap ++ q :: back)) := by
  rw [textOf_append]
  intro c hc
  rcases Json.head?_append_cases hc with hc | ⟨hnil, hc⟩
  · obtain ⟨r, hr, hcr⟩ := List.mem_flatMap.1 (List.mem_of_mem_head? hc)
    have hspace := hgap r hr
    cases r with
    | char d =>
      obtain rfl : c = d := by simpa [Piece.text] using hcr
      exact Json.isBare_of_isSpace hspace
    | string body => exact hspace.elim
    | comment => cases hcr
  · have hother : q ≠ .comment := by
      rintro rfl
      exact hq trivial
    exact stops_text hother (hapart.resolve_left fun h => h hnil) c hc

/-- **Neighbouring pieces** show neighbouring tokens, unless they belong to one word. -/
theorem exists_neighbours {front gap back : List Piece} {p q : Piece}
    (hclosed : ∀ r ∈ front ++ p :: (gap ++ q :: back), r.Closed) (hgap : ∀ r ∈ gap, r.IsGap)
    (hp : ¬ p.IsGap) (hq : ¬ q.IsGap) (hapart : textOf gap ≠ [] ∨ ¬ (p.IsBare ∧ q.IsBare)) :
    ∃ before a b after,
      lexemes (textOf (front ++ p :: (gap ++ q :: back))) = before ++ a :: b :: after ∧
        p.Shows a ∧ q.Shows b := by
  have hclosed' : ∀ r ∈ p :: (gap ++ q :: back), r.Closed :=
    fun r hr => hclosed r (List.mem_append_right _ hr)
  obtain ⟨b, after, hb, hshows⟩ := exists_head (hclosed' q (by simp)) hq back
  have hrest : lexemes (textOf (gap ++ q :: back)) = b :: after := by
    rw [textOf_append, lexemes_gap hgap, hb]
  obtain ⟨a, ha, hshows'⟩ : ∃ a, lexemes (textOf (p :: (gap ++ q :: back))) = a :: b :: after ∧
      p.Shows a := by
    cases p with
    | string body =>
      exact ⟨_, by rw [lexemes_string (hclosed' _ (by simp)), hrest], .string body⟩
    | comment => exact absurd trivial hp
    | char c =>
      have htext : textOf (.char c :: (gap ++ q :: back)) = c :: textOf (gap ++ q :: back) := rfl
      have hspace : isSpace c = false := by simpa [Piece.IsGap] using hp
      have hquote : c ≠ '\x22' := hclosed' (.char c) (by simp)
      cases hbare : isBare c with
      | false =>
        refine ⟨.mark c, ?_, .mark hbare hspace⟩
        rw [htext, Json.lexemes_mark hspace hquote hbare, hrest]
      | true =>
        have hstops : Stops (textOf (gap ++ q :: back)) :=
          stops_gap hgap hq (hapart.imp_right fun h hbare' => h ⟨hbare, hbare'⟩)
        refine ⟨.bare [c], ?_, .bare hbare⟩
        rw [htext, ← hrest]
        exact Json.lexemes_bare hbare (List.forall_mem_nil _) hstops
  obtain ⟨before, a', ha', hshows''⟩ :=
    exists_of_append (fun r hr => hclosed r (List.mem_append_left _ hr)) ha hshows'
  exact ⟨before, a', b, after, ha', hshows'', hshows⟩

end ProjectSetup.ConfigModule
