import Mathlib
import ProjectSetup.Proofs.ConfigModule.Layout

/-!
# Comments and spaces

`spaceComments` puts a space in the place of each comment of a source.  The loader drops comments
and leaves nothing in their place.  That is the same but for comments between two characters of a
word or number, or between two semicolons: the dropped comments make one word or one run of them,
and the spaces do not.

* `parse_spaceComments_iff`: what is read of a source with spaces for comments.
-/

namespace ProjectSetup.ConfigModule

open Json (Lexeme Value Written isBare isSpace lexemes Stops)
open Text (infix_of_infix_append_left infix_of_infix_append_right infix_or_infix_of_notMem)

/-! ### Sources -/

/-- The source with a space in the place of each comment outside strings; it is left as it is from a
string or comment on that does not end. -/
def spaceComments : List Char → List Char
  | [] => []
  | c :: text =>
    if c == '\x27' || c == '\x22' then
      match h : scanQuoted? c text with
      | none => c :: text
      | some (body, rest) =>
        have := congrArg List.length (scanQuoted?_spelling h)
        c :: body ++ c :: spaceComments rest
    else if c == '/' && text.head? == some '/' then
      have := length_dropWhile_le (· != '\n') text
      ' ' :: spaceComments (text.dropWhile (· != '\n'))
    else if c == '/' && text.head? == some '*' then
      match h : Text.splitFirst? ['*', '/'] text.tail with
      | none => c :: text
      | some (before, rest) =>
        have := congrArg List.length (Text.eq_of_splitFirst? h)
        ' ' :: spaceComments rest
    else c :: spaceComments text
termination_by text => text.length
decreasing_by
  all_goals simp only [List.length_append, List.length_cons, List.length_tail] at *
  all_goals omega

theorem spaceComments_plain {c : Char} {text : List Char} (h₁ : c ≠ '\x27') (h₂ : c ≠ '\x22')
    (hslash : c = '/' → ∀ d ∈ text.head?, d ≠ '/' ∧ d ≠ '*') :
    spaceComments (c :: text) = c :: spaceComments text := by
  have hline : ¬ (c = '/' ∧ text.head? = some '/') := fun h => (hslash h.1 _ h.2).1 rfl
  have hblock : ¬ (c = '/' ∧ text.head? = some '*') := fun h => (hslash h.1 _ h.2).2 rfl
  rw [spaceComments, if_neg (by simp [h₁, h₂]), if_neg (by simpa using hline),
    if_neg (by simpa using hblock)]

/-- A character of a class without the quotes and the slash is left as it is. -/
theorem spaceComments_of_class {p : Char → Bool} {c : Char} (hc : p c = true)
    (h₁ : p '\x27' = false) (h₂ : p '\x22' = false) (h₃ : p '/' = false) (text : List Char) :
    spaceComments (c :: text) = c :: spaceComments text :=
  spaceComments_plain (ne_of_class hc h₁) (ne_of_class hc h₂)
    fun h => absurd h (ne_of_class hc h₃)

theorem spaceComments_string {quote : Char} {text body rest : List Char}
    (hq : quote = '\x27' ∨ quote = '\x22') (h : scanQuoted? quote text = some (body, rest)) :
    spaceComments (quote :: text) = quote :: body ++ quote :: spaceComments rest := by
  rw [spaceComments, if_pos (by simpa using hq)]
  split
  next hnone => cases h.symm.trans hnone
  next found left hfound =>
    cases h.symm.trans hfound
    rfl

/-- The token with a space in the place of a comment. -/
def Token.spaced : Token → Token
  | comment _ => blank ' '
  | token => token

/-- The source starts as it did, but for a comment. -/
theorem head_spaceComments (c : Char) (text : List Char) :
    ∃ rest, spaceComments (c :: text) = c :: rest ∨
      (c = '/' ∧ spaceComments (c :: text) = ' ' :: rest) := by
  rw [spaceComments]
  split_ifs with hquote hline hblock
  · split
    · exact ⟨_, .inl rfl⟩
    · exact ⟨_, .inl rfl⟩
  · exact ⟨_, .inr ⟨by simp_all, rfl⟩⟩
  · split
    · exact ⟨_, .inl rfl⟩
    · exact ⟨_, .inr ⟨by simp_all, rfl⟩⟩
  · exact ⟨_, .inl rfl⟩

/-- A word is not touched, and the source goes on behind it. -/
theorem word_spaceComments (text : List Char) :
    (spaceComments text).takeWhile Text.isWordChar = text.takeWhile Text.isWordChar ∧
      (spaceComments text).dropWhile Text.isWordChar =
        spaceComments (text.dropWhile Text.isWordChar) := by
  induction text with
  | nil => simp [spaceComments]
  | cons c text ih =>
    cases hc : Text.isWordChar c with
    | true =>
      rw [spaceComments_of_class hc (by decide) (by decide) (by decide)]
      simp [hc, ih]
    | false =>
      obtain ⟨rest, heq | ⟨rfl, heq⟩⟩ := head_spaceComments c text
      · simp [heq, hc]
      · have hspace : Text.isWordChar ' ' = false := by decide
        simp [heq, hc, hspace]

theorem scanQuoted?_append {quote : Char} {text body rest : List Char}
    (h : scanQuoted? quote text = some (body, rest)) (rest' : List Char) :
    scanQuoted? quote (body ++ quote :: rest') = some (body, rest') := by
  fun_induction scanQuoted? quote text generalizing body with
  | case1 => cases h
  | case2 => cases h
  | case3 c text ih =>
    obtain ⟨⟨front, left⟩, hscan, heq⟩ := Option.map_eq_some_iff.1 h
    obtain ⟨rfl, rfl⟩ := Prod.mk.inj heq
    exact scanQuoted?_escape (ih hscan)
  | case4 c text hlast hpair hq =>
    obtain ⟨rfl, rfl⟩ := Prod.mk.inj (Option.some.inj h)
    obtain rfl := beq_iff_eq.1 hq
    have hs := ne_backslash hlast hpair
    rw [List.nil_append, scanQuoted?]
    · simp
    · exact fun hslash => absurd hslash hs
    · exact fun _ _ hslash => absurd hslash hs
  | case5 => cases h
  | case6 c text hlast hpair hq hn ih =>
    obtain ⟨⟨front, left⟩, hscan, heq⟩ := Option.map_eq_some_iff.1 h
    obtain ⟨rfl, rfl⟩ := Prod.mk.inj heq
    exact scanQuoted?_plain (by simpa using hq) (ne_backslash hlast hpair)
      (by simpa using hn) (ih hscan)

/-- A token of the source becomes one of the source with spaces. -/
theorem nextToken_spaceComments {c : Char} {text rest : List Char} {token : Token}
    (h : nextToken c text = .ok (token, rest)) :
    ∃ d more, spaceComments (c :: text) = d :: more ∧
      nextToken d more = .ok (token.spaced, spaceComments rest) := by
  have hcut := cut_nextToken c text
  rw [h] at hcut
  cases hcut with
  | blank hblank =>
    exact ⟨c, _, spaceComments_of_class hblank (by decide) (by decide) (by decide) text,
      nextToken_blank hblank _⟩
  | quoted hq hscan =>
    exact ⟨c, _, spaceComments_string hq hscan, nextToken_quoted hq (scanQuoted?_append hscan _)⟩
  | line =>
    refine ⟨' ', _, ?_, nextToken_blank (by decide) _⟩
    rw [spaceComments, if_neg (by decide), if_pos (by simp)]
  | block hsplit =>
    refine ⟨' ', _, ?_, nextToken_blank (by decide) _⟩
    rw [spaceComments, if_neg (by decide), if_neg (by simp), if_pos (by simp)]
    split
    next hnone => cases hsplit.symm.trans hnone
    next before left hfound =>
      cases hsplit.symm.trans hfound
      rfl
  | comma =>
    exact ⟨',', _, spaceComments_plain (by decide) (by decide) (by simp), rfl⟩
  | word hstart =>
    refine ⟨c, _, spaceComments_of_class hstart (by decide) (by decide) (by decide) text, ?_⟩
    obtain ⟨htake, hdrop⟩ := word_spaceComments text
    have hname : ∀ d ∈ text.takeWhile Text.isWordChar, Text.isWordChar d = true :=
      fun d hd => List.mem_takeWhile_imp hd
    have hrest : ∀ d ∈ (spaceComments (text.dropWhile Text.isWordChar)).head?,
        Text.isWordChar d = false :=
      hdrop ▸ Json.head?_dropWhile_eq_false _ _
    have hword := nextToken_word (isBlank_of_isWordStart hstart) hstart hname hrest
    rwa [← hdrop, ← htake, List.takeWhile_append_dropWhile, htake, hdrop] at hword
  | other hblank h₁ h₂ h₃ h₄ h₅ hslash =>
    refine ⟨c, _, spaceComments_plain h₁ h₂ hslash, nextToken_other hblank h₁ h₂ h₃ h₄ h₅ ?_⟩
    intro hc d hd
    cases text with
    | nil => simp [spaceComments] at hd
    | cons e text =>
      obtain ⟨hline, hblock⟩ := hslash hc e rfl
      obtain ⟨rest, heq | ⟨rfl, -⟩⟩ := head_spaceComments e text
      · rw [heq] at hd
        obtain rfl : e = d := by simpa using hd
        exact ⟨hline, hblock⟩
      · exact absurd rfl hline

theorem nextToken_spaceComments_error {c : Char} {text : List Char} {why : Unreadable}
    (h : nextToken c text = .error why) :
    ∃ more, spaceComments (c :: text) = c :: more ∧ nextToken c more = .error why := by
  have hcut := cut_nextToken c text
  rw [h] at hcut
  cases hcut with
  | openString hq hscan =>
    refine ⟨text, ?_, h⟩
    rw [spaceComments, if_pos (by simpa using hq)]
    split
    · rfl
    next found hfound => cases hscan.symm.trans hfound
  | template => exact ⟨_, spaceComments_plain (by decide) (by decide) (by simp), rfl⟩
  | openComment hsplit =>
    refine ⟨_, ?_, h⟩
    rw [spaceComments, if_neg (by decide), if_neg (by simp), if_pos (by simp)]
    split
    · rfl
    next found hfound => cases hsplit.symm.trans hfound

/-- **The tokens of a source with spaces** for comments. -/
theorem tokenize_spaceComments (text : List Char) :
    tokenize (spaceComments text) = (tokenize text).map (List.map Token.spaced) := by
  fun_induction tokenize text with
  | case1 => simp [spaceComments, tokenize, Except.map]
  | case2 c text why hnext =>
    obtain ⟨more, hmore, hwhy⟩ := nextToken_spaceComments_error hnext
    rw [hmore, tokenize_error hwhy]
    rfl
  | case3 c text token rest hnext _ ih =>
    obtain ⟨d, more, hmore, htoken⟩ := nextToken_spaceComments hnext
    rw [hmore, tokenize_eq_map htoken, ih]
    cases tokenize rest with
    | error why => rfl
    | ok tokens => rfl

/-! ### Pieces with spaces -/

/-- The piece with a space in the place of a comment. -/
def Piece.spaced : Piece → Piece
  | comment => char ' '
  | p => p

theorem nextSignificant?_spaced (tokens : List Token) :
    nextSignificant? (tokens.map Token.spaced) = nextSignificant? tokens := by
  induction tokens with
  | nil => rfl
  | cons token tokens ih =>
    rw [List.map_cons]
    cases token with
    | blank | comment =>
      exact (nextSignificant?_skipped rfl _).trans (ih.trans (nextSignificant?_skipped rfl _).symm)
    | _ => exact (nextSignificant?_significant rfl _).trans (nextSignificant?_significant rfl _).symm

theorem pieces_spaced (tokens : List Token) :
    pieces (tokens.map Token.spaced) = (pieces tokens).map Piece.spaced := by
  induction tokens with
  | nil => rfl
  | cons token tokens ih =>
    rw [List.map_cons, pieces, pieces, List.map_append, ih]
    congr 1
    cases token with
    | word name =>
      simp only [Token.spaced, Token.pieces, nextSignificant?_spaced]
      split_ifs
      · rfl
      · rw [List.map_map]
        rfl
    | comma =>
      simp only [Token.spaced, Token.pieces, nextSignificant?_spaced]
      split_ifs <;> rfl
    | _ => rfl

theorem closed_spaced {ps : List Piece} (h : ∀ p ∈ ps, p.Closed) :
    ∀ p ∈ ps.map Piece.spaced, p.Closed := by
  intro p hp
  obtain ⟨q, hq, rfl⟩ := List.mem_map.1 hp
  cases q with
  | comment => exact (by decide : ' ' ≠ '\x22')
  | _ => exact h _ hq

theorem mem_textOf_spaced {ps : List Piece} {c : Char} :
    c ∈ textOf (ps.map Piece.spaced) ↔ c ∈ textOf ps ∨ (c = ' ' ∧ .comment ∈ ps) := by
  induction ps with
  | nil => simp
  | cons p ps ih =>
    rw [List.map_cons, textOf_cons, textOf_cons, List.mem_append, List.mem_append, ih]
    cases p <;> simp [Piece.spaced, Piece.text, or_assoc]
    tauto

theorem isBlank_spaced_iff {ps : List Piece} :
    (∀ c ∈ textOf (ps.map Piece.spaced), Text.isBlank c = true) ↔
      ∀ c ∈ textOf ps, Text.isBlank c = true := by
  refine ⟨fun h c hc => h c (mem_textOf_spaced.2 (.inl hc)), fun h c hc => ?_⟩
  rcases mem_textOf_spaced.1 hc with hc | ⟨rfl, -⟩
  · exact h c hc
  · decide

theorem map_spaced_of_notMem {ps : List Piece} (h : .comment ∉ ps) : ps.map Piece.spaced = ps := by
  refine (List.map_congr_left fun p hp => ?_).trans (List.map_id ps)
  cases p with
  | comment => exact absurd hp h
  | _ => rfl

/-! ### Comments in words -/

/-- The places of a number of comments. -/
def comments (n : Nat) : List Piece :=
  List.replicate n .comment

@[simp] theorem textOf_comments (n : Nat) : textOf (comments n) = [] :=
  List.flatMap_eq_nil_iff.2 fun p hp => by rw [List.eq_of_mem_replicate hp]; rfl

/-- The characters make one word or one run of semicolons if nothing stands between them. -/
def Joins (x y : Char) : Prop :=
  (isBare x = true ∧ isBare y = true) ∨ (x = ';' ∧ y = ';')

/-- Nothing but comments stands between two such characters. -/
def Glued (ps : List Piece) : Prop :=
  ∃ x y n, Joins x y ∧ .char x :: comments (n + 1) ++ [.char y] <:+: ps

theorem Glued.mono {ps qs : List Piece} (h : Glued ps) (hin : ps <:+: qs) : Glued qs := by
  obtain ⟨x, y, n, hjoins, hrun⟩ := h
  exact ⟨x, y, n, hjoins, hrun.trans hin⟩

theorem Joins.isBlank {x y : Char} (h : Joins x y) :
    Text.isBlank x = false ∧ Text.isBlank y = false := by
  rcases h with ⟨hx, hy⟩ | ⟨rfl, rfl⟩
  · exact ⟨isBlank_of_isBare hx, isBlank_of_isBare hy⟩
  · decide

/-- A word ends in front of comments, unless they stand between two characters of it. -/
theorem stops_of_comments {c : Char} (hc : isBare c = true) {n : Nat} {ps : List Piece}
    (h : ¬ Glued (.char c :: comments (n + 1) ++ ps)) : Stops (textOf ps) := by
  induction ps generalizing n with
  | nil => exact Json.stops_nil
  | cons p ps ih =>
    cases p with
    | comment =>
      refine ih (n := n + 1) fun hglued => h ?_
      rwa [comments, List.replicate_succ', List.cons_append, List.append_assoc] at hglued
    | string body => exact stops_text (by simp) (fun h => h)
    | char d =>
      refine stops_text (by simp) fun hd => h ⟨c, d, n, .inl ⟨hc, hd⟩, ?_⟩
      exact ⟨[], ps, by simp⟩

theorem stops_spaced_iff {c : Char} (hc : isBare c = true) {ps : List Piece}
    (h : ¬ Glued (.char c :: ps)) :
    Stops (textOf (ps.map Piece.spaced)) ↔ Stops (textOf ps) := by
  cases ps with
  | nil => rfl
  | cons p ps =>
    cases p with
    | comment =>
      have hstops : Stops (textOf ps) := stops_of_comments hc (n := 0) h
      refine iff_of_true ?_ hstops
      exact stops_text (p := .char ' ') (by simp) (by simp [Piece.IsBare]; decide)
    | string body => simp [Stops, Piece.spaced, Piece.text]
    | char d => simp [Stops, Piece.spaced, Piece.text]

/-- **The tokens stay** when spaces stand for comments, unless comments stand in a word. -/
theorem lexemes_spaced {ps : List Piece} (hclosed : ∀ p ∈ ps, p.Closed) (h : ¬ Glued ps) :
    lexemes (textOf (ps.map Piece.spaced)) = lexemes (textOf ps) := by
  induction ps with
  | nil => rfl
  | cons p ps ih =>
    obtain ⟨hp, hps⟩ := List.forall_mem_cons.1 hclosed
    have hrest := ih hps fun hglued => h (hglued.mono (List.suffix_cons p ps).isInfix)
    rw [List.map_cons]
    cases p with
    | comment => exact (Json.lexemes_space (by decide)).trans hrest
    | string body =>
      change lexemes (textOf (.string body :: ps.map Piece.spaced)) = _
      rw [lexemes_string hp, lexemes_string hp, hrest]
    | char c =>
      change lexemes (c :: textOf (ps.map Piece.spaced)) = lexemes (c :: textOf ps)
      cases hspace : isSpace c with
      | true => rw [Json.lexemes_space hspace, Json.lexemes_space hspace, hrest]
      | false =>
        cases hbare : isBare c with
        | false =>
          rw [Json.lexemes_mark hspace hp hbare, Json.lexemes_mark hspace hp hbare, hrest]
        | true =>
          have hstops := stops_spaced_iff hbare h
          rcases lexemes_cons_bare hbare (textOf ps) with
            ⟨hstop, heq⟩ | ⟨hstop, word, others, hword, heq⟩
          · rcases lexemes_cons_bare hbare (textOf (ps.map Piece.spaced)) with
              ⟨-, heq'⟩ | ⟨hstop', -⟩
            · rw [heq, heq', hrest]
            · exact absurd (hstops.2 hstop) hstop'
          · rcases lexemes_cons_bare hbare (textOf (ps.map Piece.spaced)) with
              ⟨hstop', -⟩ | ⟨-, word', others', hword', heq'⟩
            · exact absurd (hstops.1 hstop') hstop
            · rw [hrest, hword] at hword'
              obtain ⟨hsame, rfl⟩ := List.cons.inj hword'
              obtain rfl := Lexeme.bare.inj hsame
              rw [heq, heq']

/-- Where no comments stand between its characters, a run is written without a break. -/
theorem exists_run {ps : List Piece} {text : List Char} (htext : textOf ps = text)
    (hjoins : ∀ x ∈ text, ∀ y ∈ text, Joins x y) (h : ¬ Glued ps) :
    ∃ m n, ps = comments m ++ text.map .char ++ comments n := by
  induction ps generalizing text with
  | nil =>
    subst htext
    exact ⟨0, 0, rfl⟩
  | cons p ps ih =>
    have hps : ¬ Glued ps := fun hglued => h (hglued.mono (List.suffix_cons p ps).isInfix)
    cases p with
    | comment =>
      obtain ⟨m, n, heq⟩ := ih htext hjoins hps
      exact ⟨m + 1, n, by rw [heq]; rfl⟩
    | string body =>
      have hquote : '\x22' ∈ text := by simp [← htext, Piece.text]
      rcases hjoins _ hquote _ hquote with ⟨hbare, -⟩ | ⟨hsemicolon, -⟩
      · exact absurd hbare (by decide)
      · exact absurd hsemicolon (by decide)
    | char c =>
      cases text with
      | nil => cases htext
      | cons d text =>
        obtain ⟨rfl, hrest⟩ := List.cons.inj htext
        obtain ⟨m, n, rfl⟩ := ih hrest (fun x hx y hy => hjoins x (List.mem_cons_of_mem _ hx) y
          (List.mem_cons_of_mem _ hy)) hps
        cases m with
        | zero => exact ⟨0, n, rfl⟩
        | succ m =>
          cases text with
          | nil => exact ⟨0, m + 1 + n, by simp [comments, List.replicate_add]⟩
          | cons e text =>
            refine absurd ⟨c, e, m, hjoins c (by simp) e (by simp), [], ?_⟩ h
            exact ⟨text.map .char ++ comments n, by simp⟩

/-! ### Runs in a module that is read -/

theorem char_notMem_of_blank {ps : List Piece} {x : Char}
    (h : ∀ c ∈ textOf ps, Text.isBlank c = true) (hx : Text.isBlank x = false) : .char x ∉ ps :=
  fun hmem => notMem_of_blank h hx (mem_textOf_of_char hmem)

namespace Export

variable {value : Value}

/-- Nothing is glued in the object, if it is read with spaces for comments. -/
theorem not_glued_core {e : Export value} {ps : List Piece} (hclosed : ∀ p ∈ e.core, p.Closed)
    (h : ps.map Piece.spaced = e.core) : ¬ Glued ps := by
  rintro ⟨x, y, n, hjoins, front, back, rfl⟩
  have hcore : e.core = front.map Piece.spaced ++ .char x ::
      (List.replicate (n + 1) (.char ' ') ++ .char y :: back.map Piece.spaced) := by
    rw [← h]
    simp [comments, Piece.spaced]
  rcases hjoins with ⟨hx, hy⟩ | ⟨rfl, -⟩
  · have hgap : ∀ r ∈ List.replicate (n + 1) (Piece.char ' '), r.IsGap := by
      intro r hr
      rw [List.eq_of_mem_replicate hr]
      exact (by decide : isSpace ' ' = true)
    have hnot : ∀ {c}, isBare c = true → ¬ (Piece.char c).IsGap := by
      intro c hc hgap
      rw [Json.isBare_of_isSpace hgap] at hc
      cases hc
    obtain ⟨a, b, ha, hb, hmeets⟩ := exists_meets hclosed hcore hgap (hnot hx) (hnot hy)
      (.inl (by simp [Piece.text, List.replicate_succ]))
    cases ha with
    | mark hx' => cases hx.symm.trans hx'
    | bare =>
      cases hb with
      | mark hy' => cases hy.symm.trans hy'
      | bare => exact Lexeme.not_meets_bare _ _ hmeets
  · have hmarks := mem_marks hclosed (c := ';') (by simp [hcore]) (by decide) (by decide)
    exact absurd hmarks (by decide)

/-- No comment stands in the words of the export or between the semicolons, and nothing is glued in
the object. -/
structure IsTidy (e : Export value) : Prop where
  words : .comment ∉ e.words
  semicolons : .comment ∉ e.semicolons
  core : ¬ Glued e.core

/-- Nothing is glued in a tidy module. -/
theorem not_glued_of_isTidy {e : Export value} (h : e.IsTidy) (hclosed : ∀ p ∈ e.core, p.Closed) :
    ¬ Glued e.pieces := by
  rintro ⟨x, y, n, hjoins, hrun⟩
  obtain ⟨hx, hy⟩ := hjoins.isBlank
  have hcomment : ∀ {ps : List Piece},
      .char x :: comments (n + 1) ++ [.char y] <:+: ps → .comment ∈ ps :=
    fun hin => hin.mem (by simp [comments])
  have hequals : Piece.char '=' ∉ .char x :: comments (n + 1) ++ [.char y] := by
    rcases hjoins with ⟨hx, hy⟩ | ⟨rfl, rfl⟩
    · simp [comments, (ne_of_class hx (by decide : isBare '=' = false)).symm,
        (ne_of_class hy (by decide : isBare '=' = false)).symm]
    · simp [comments]
  have hpieces : e.pieces = e.lead ++ e.words ++ e.between ++
      .char '=' :: (e.front ++ (e.core ++ e.semicolons) ++ e.tail) := by
    simp [pieces, head, foot]
  rw [hpieces] at hrun
  rcases infix_or_infix_of_notMem (by simp) hrun hequals with hrun | hrun
  · have hrun₁ := infix_of_infix_append_right hrun (char_notMem_of_blank e.blank_between hy)
    exact h.words (hcomment (infix_of_infix_append_left hrun₁ (char_notMem_of_blank e.blank_lead hx)))
  · have hrun₁ := infix_of_infix_append_right hrun (char_notMem_of_blank e.blank_tail hy)
    have hrun₂ := infix_of_infix_append_left hrun₁ (char_notMem_of_blank e.blank_front hx)
    rcases hjoins with hbare | ⟨rfl, rfl⟩
    · have hnot : .char y ∉ e.semicolons := by
        intro hmem
        have hsemicolon := e.eq_semicolon y (mem_textOf_of_char hmem)
        exact ne_of_class hbare.2 (by decide) hsemicolon
      exact h.core ⟨x, y, n, .inl hbare, infix_of_infix_append_right hrun₂ hnot⟩
    · have hnot : .char ';' ∉ e.core := fun hmem =>
        absurd (mem_marks hclosed hmem (by decide) (by decide)) (by decide)
      exact h.semicolons (hcomment (infix_of_infix_append_left hrun₂ hnot))

/-- Where nothing is glued, the comments around the words and the semicolons can be counted to what
stands beside them. -/
theorem exists_isTidy (e : Export value) (h : ¬ Glued e.pieces) :
    ∃ e' : Export value, e'.IsTidy ∧ e'.pieces = e.pieces := by
  have hpart : ∀ {ps}, ps <:+: e.pieces → ¬ Glued ps := fun hin hglued => h (hglued.mono hin)
  have hjoins : ∀ x ∈ exportWords, ∀ y ∈ exportWords, Joins x y := by
    have hbare : exportWords.all isBare = true := by decide
    rw [List.all_eq_true] at hbare
    exact fun x hx y hy => .inl ⟨hbare x hx, hbare y hy⟩
  obtain ⟨m, n, hwords⟩ := exists_run e.textOf_words hjoins
    (hpart ⟨e.lead, e.between ++ .char '=' :: (e.front ++ e.core ++ e.foot), by simp [pieces, head]⟩)
  obtain ⟨k, l, hsemicolons⟩ := exists_run (rfl : textOf e.semicolons = textOf e.semicolons)
    (fun x hx y hy => .inr ⟨e.eq_semicolon x hx, e.eq_semicolon y hy⟩)
    (hpart ⟨e.head ++ e.core, e.tail, by simp [pieces, foot]⟩)
  let e' : Export value :=
    { lead := e.lead ++ comments m
      words := exportWords.map .char
      between := comments n ++ e.between
      front := e.front
      core := e.core ++ comments k
      semicolons := (textOf e.semicolons).map .char
      tail := comments l ++ e.tail
      members := e.members
      blank_lead := by simpa using e.blank_lead
      textOf_words := textOf_map_char _
      blank_between := by simpa using e.blank_between
      blank_front := e.blank_front
      lexemes_core := by simpa using e.lexemes_core
      value_members := e.value_members
      eq_semicolon := by simpa [textOf_map_char] using e.eq_semicolon
      blank_tail := by simpa using e.blank_tail }
  have hpieces : e'.pieces = e.pieces := by
    conv_rhs => rw [pieces, head, foot, hwords, hsemicolons]
    simp [e', pieces, head, foot]
  refine ⟨e', ⟨by simp [e'], by simp [e'], hpart ?_⟩, hpieces⟩
  exact ⟨e'.head, e'.foot, hpieces⟩

/-- A tidy module is read with spaces for comments as well. -/
theorem exists_spaced {e : Export value} (h : e.IsTidy) (hclosed : ∀ p ∈ e.core, p.Closed) :
    ∃ e' : Export value, e'.pieces = e.pieces.map Piece.spaced := by
  let e' : Export value :=
    { lead := e.lead.map Piece.spaced
      words := e.words
      between := e.between.map Piece.spaced
      front := e.front.map Piece.spaced
      core := e.core.map Piece.spaced
      semicolons := e.semicolons
      tail := e.tail.map Piece.spaced
      members := e.members
      blank_lead := isBlank_spaced_iff.2 e.blank_lead
      textOf_words := e.textOf_words
      blank_between := isBlank_spaced_iff.2 e.blank_between
      blank_front := isBlank_spaced_iff.2 e.blank_front
      lexemes_core := (lexemes_spaced hclosed h.core).trans e.lexemes_core
      value_members := e.value_members
      eq_semicolon := e.eq_semicolon
      blank_tail := isBlank_spaced_iff.2 e.blank_tail }
  refine ⟨e', ?_⟩
  simp [e', pieces, head, foot, map_spaced_of_notMem h.words, map_spaced_of_notMem h.semicolons,
    Piece.spaced]

/-- **A module that is read with spaces** for comments is tidy without the spaces, and it is read as
well. -/
theorem exists_of_spaced {ps : List Piece} (hclosed : ∀ p ∈ ps, p.Closed) (e : Export value)
    (h : e.pieces = ps.map Piece.spaced) : ∃ e' : Export value, e'.IsTidy ∧ e'.pieces = ps := by
  have hspaced : ∀ p ∈ e.core, p.Closed := closed_core (h ▸ closed_spaced hclosed)
  rw [pieces, head, foot, eq_comm] at h
  simp only [List.map_eq_append_iff, List.map_eq_cons_iff] at h
  obtain ⟨_, _, rfl, ⟨_, core, rfl, ⟨_, _, rfl, ⟨_, between, rfl, ⟨lead, words, rfl, hlead, hwords⟩,
    hbetween⟩, ⟨equals, front, rfl, hequals, hfront⟩⟩, hcore⟩,
    ⟨semicolons, tail, rfl, hsemicolons, htail⟩⟩ := h
  obtain rfl : equals = .char '=' := by
    cases equals with
    | comment => cases hequals
    | _ => exact hequals
  have hnot : ∀ {ps : List Piece}, ' ' ∉ textOf (ps.map Piece.spaced) → .comment ∉ ps :=
    fun hspace hmem => hspace (mem_textOf_spaced.2 (.inr ⟨rfl, hmem⟩))
  have hnotWords : .comment ∉ words := hnot (by rw [hwords, e.textOf_words]; decide)
  have hnotSemicolons : .comment ∉ semicolons := by
    refine hnot fun hspace => ?_
    rw [hsemicolons] at hspace
    exact absurd (e.eq_semicolon _ hspace) (by decide)
  rw [map_spaced_of_notMem hnotWords] at hwords
  rw [map_spaced_of_notMem hnotSemicolons] at hsemicolons
  have hclosedCore : ∀ p ∈ core, p.Closed := fun p hp => hclosed p (by simp [hp])
  have hglued := not_glued_core hspaced hcore
  let e' : Export value :=
    { lead, words, between, front, core, semicolons, tail, members := e.members
      blank_lead := isBlank_spaced_iff.1 (hlead ▸ e.blank_lead)
      textOf_words := hwords ▸ e.textOf_words
      blank_between := isBlank_spaced_iff.1 (hbetween ▸ e.blank_between)
      blank_front := isBlank_spaced_iff.1 (hfront ▸ e.blank_front)
      lexemes_core := by rw [← lexemes_spaced hclosedCore hglued, hcore, e.lexemes_core]
      value_members := e.value_members
      eq_semicolon := hsemicolons ▸ e.eq_semicolon
      blank_tail := isBlank_spaced_iff.1 (htail ▸ e.blank_tail) }
  exact ⟨e', ⟨hnotWords, hnotSemicolons, hglued⟩, rfl⟩

end Export

theorem not_glued_of_blank {ps : List Piece} (h : ∀ c ∈ textOf ps, Text.isBlank c = true) :
    ¬ Glued ps := by
  rintro ⟨x, y, n, hjoins, hrun⟩
  exact char_notMem_of_blank h hjoins.isBlank.1 (hrun.mem (by simp))

/-- What is read of pieces with spaces for comments. -/
theorem parseJson_spaced_iff {ps : List Piece} {value : Value} (hclosed : ∀ p ∈ ps, p.Closed) :
    parseJson (textOf (ps.map Piece.spaced)) = .ok value ↔
      parseJson (textOf ps) = .ok value ∧ ¬ Glued ps := by
  rw [parseJson_textOf_iff, parseJson_textOf_iff, isBlank_spaced_iff]
  constructor
  · rintro (⟨hblank, rfl⟩ | ⟨e, he⟩)
    · exact ⟨.inl ⟨hblank, rfl⟩, not_glued_of_blank hblank⟩
    · obtain ⟨e', htidy, rfl⟩ := e.exists_of_spaced hclosed he
      exact ⟨.inr ⟨e', rfl⟩, Export.not_glued_of_isTidy htidy (Export.closed_core hclosed)⟩
  · rintro ⟨hblank | ⟨e, rfl⟩, hglued⟩
    · exact .inl hblank
    · obtain ⟨e', htidy, he'⟩ := e.exists_isTidy hglued
      rw [← he'] at hclosed ⊢
      exact .inr (Export.exists_spaced htidy (Export.closed_core hclosed))

/-- Comments alone stand between two characters of a word, a number or the words of the export, or
between two semicolons. -/
def IsGlued (source : String) : Prop :=
  ∃ tokens, tokenize source.toList = .ok tokens ∧ Glued (pieces tokens)

/-- **What is read of a source with spaces** in the place of its comments: what is read of the
source, unless comments alone stand between two characters that are read as one word or run. -/
theorem parse_spaceComments_iff (source : String) (value : Value) :
    parse (String.ofList (spaceComments source.toList)) = .ok value ↔
      parse source = .ok value ∧ ¬ IsGlued source := by
  rw [parse_eq_ok_iff, parse_eq_ok_iff, String.toList_ofList, tokenize_spaceComments, IsGlued]
  cases htokens : tokenize source.toList with
  | error why => simp [Except.map]
  | ok tokens =>
    have hclosed := closed_pieces (isCut_tokenize htokens)
    simp only [Except.map, Except.ok.injEq, exists_eq_left', pieces_spaced,
      parseJson_spaced_iff hclosed]

/-- A comment stands in a number, and in the words of the export. -/
theorem comment_in_number :
    parse "module.exports = \x7ba: 1/* b */2\x7d" =
        .ok (.object [("a", .number (.natural 12 (by decide)))]) ∧
      parse (String.ofList (spaceComments "module.exports = \x7ba: 1/* b */2\x7d".toList)) =
        .error (.invalidJson ⟨.expectedObjectSeparator, 1, 9⟩) ∧
    parse "module/* b */.exports = \x7b\x7d" = .ok (.object []) ∧
      parse (String.ofList (spaceComments "module/* b */.exports = \x7b\x7d".toList)) =
        .error .noExport := by
  refine ⟨?_, ?_, ?_, ?_⟩ <;> cbv

end ProjectSetup.ConfigModule
