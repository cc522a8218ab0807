import Mathlib
import ProjectSetup.Proofs.ConfigModule.Layout

/-!
# The commas of a module that is read

A comma in front of a closing mark is dropped whatever stands in front of the comma.  So a comma of
a module that is read stands behind the end of an item or member, as a comma between two or behind
the last one does, or it stands alone between an opening mark and its closing mark.

* `endsValue_or_of_comma`: nothing else stands in front of a comma.
-/

namespace ProjectSetup.ConfigModule

open Json (Lexeme Value isBare isSpace)

/-- The last token that is neither blank nor a comment. -/
def lastSignificant? (tokens : List Token) : Option Token :=
  nextSignificant? tokens.reverse

/-- The token ends an item or member: it is a string, a word, a character of a number or keyword, or
a closing mark. -/
inductive Token.EndsValue : Token → Prop
  | quoted (quote : Char) (body : List Char) : EndsValue (.quoted quote body)
  | word (name : List Char) : EndsValue (.word name)
  | bare {c : Char} : isBare c = true → EndsValue (.other c)
  | bracket : EndsValue (.other ']')
  | brace : EndsValue (.other '\x7d')

/-- The first character is an opening mark and the second its closing mark. -/
inductive Encloses : Char → Char → Prop
  | brackets : Encloses '[' ']'
  | braces : Encloses '\x7b' '\x7d'

/-! ### Tokens that do not count -/

theorem pieces_append_of_silent {gap : List Token} (h : ∀ token ∈ gap, token.isSignificant = false)
    (others : List Token) : pieces (gap ++ others) = pieces gap ++ pieces others := by
  induction gap with
  | nil => rfl
  | cons token gap ih =>
    obtain ⟨htoken, hgap⟩ := List.forall_mem_cons.1 h
    have hpieces : ∀ others others', token.pieces others = token.pieces others' := by
      cases token with
      | blank | comment => exact fun _ _ => rfl
      | _ => cases htoken
    rw [List.cons_append, pieces, pieces, ih hgap, List.append_assoc, hpieces]

theorem isBlank_of_silent {gap : List Token} (hcut : ∀ token ∈ gap, token.IsCut)
    (h : ∀ token ∈ gap, token.isSignificant = false) :
    ∀ c ∈ textOf (pieces gap), Text.isBlank c = true := by
  induction gap with
  | nil => simp [pieces]
  | cons token gap ih =>
    obtain ⟨htoken, hgap⟩ := List.forall_mem_cons.1 h
    obtain ⟨htoken', hgap'⟩ := List.forall_mem_cons.1 hcut
    rw [pieces, textOf_append]
    refine List.forall_mem_append.2 ⟨?_, ih hgap' hgap⟩
    cases htoken' with
    | blank hblank => simpa [Token.pieces, Piece.text] using hblank
    | comment => simp [Token.pieces, Piece.text]
    | _ => cases htoken

theorem exists_pieces_append (front others : List Token) :
    ∃ ps, pieces (front ++ others) = ps ++ pieces others := by
  induction front with
  | nil => exact ⟨[], rfl⟩
  | cons token front ih =>
    obtain ⟨ps, hps⟩ := ih
    exact ⟨token.pieces (front ++ others) ++ ps, by rw [List.cons_append, pieces, hps]; simp⟩

theorem exists_of_nextSignificant? {tokens : List Token} {token : Token}
    (h : nextSignificant? tokens = some token) :
    ∃ gap others, tokens = gap ++ token :: others ∧ token.isSignificant = true ∧
      ∀ t ∈ gap, t.isSignificant = false := by
  obtain ⟨hsig, gap, others, rfl, hgap⟩ := List.find?_eq_some_iff_append.1 h
  exact ⟨gap, others, rfl, hsig, by simpa using hgap⟩

theorem exists_of_lastSignificant? {tokens : List Token} {token : Token}
    (h : lastSignificant? tokens = some token) :
    ∃ others gap, tokens = others ++ token :: gap ∧ token.isSignificant = true ∧
      ∀ t ∈ gap, t.isSignificant = false := by
  obtain ⟨gap, others, heq, hsig, hgap⟩ := exists_of_nextSignificant? h
  refine ⟨others.reverse, gap.reverse, ?_, hsig, by simpa using hgap⟩
  rw [← List.reverse_reverse tokens, heq]
  simp

theorem nextSignificant?_append {gap : List Token} (h : ∀ token ∈ gap, token.isSignificant = false)
    (others : List Token) : nextSignificant? (gap ++ others) = nextSignificant? others := by
  rw [nextSignificant?, List.find?_append, List.find?_eq_none.2 (by simpa using h)]
  rfl

/-! ### The pieces around a comma -/

/-- What a comma is written as: itself, or the closing mark behind it. -/
theorem exists_mark_of_comma {back : List Token} (hcut : ∀ token ∈ back, token.IsCut) :
    ∃ gap c rest, pieces (.comma :: back) = gap ++ .char c :: rest ∧
      (∀ d ∈ textOf gap, Text.isBlank d = true) ∧
      (c = ',' ∨ (c = ']' ∨ c = '\x7d') ∧ nextSignificant? back = some (.other c)) := by
  by_cases hcloses : ∃ c, (c = ']' ∨ c = '\x7d') ∧ nextSignificant? back = some (.other c)
  · obtain ⟨c, hc, hnext⟩ := hcloses
    obtain ⟨gap, others, rfl, -, hgap⟩ := exists_of_nextSignificant? hnext
    refine ⟨pieces gap, c, pieces others, ?_,
      isBlank_of_silent (fun t ht => hcut t (by simp [ht])) hgap, .inr ⟨hc, hnext⟩⟩
    have hcomma : Token.comma.pieces (gap ++ .other c :: others) = [] := by
      rw [Token.pieces, hnext]
      rcases hc with rfl | rfl <;> rfl
    rw [pieces, hcomma, pieces_append_of_silent hgap, pieces]
    rfl
  · refine ⟨[], ',', pieces back, ?_, by simp, .inl rfl⟩
    have hcomma : Token.comma.pieces back = [.char ','] := by
      rw [Token.pieces, if_neg]
      simp only [Bool.or_eq_true, beq_iff_eq]
      rintro (hnext | hnext)
      · exact hcloses ⟨'\x7d', .inr rfl, hnext⟩
      · exact hcloses ⟨']', .inl rfl, hnext⟩
    rw [pieces, hcomma]
    rfl

/-- The piece is the last one that the token is written as. -/
inductive Token.EndsIn : Token → Piece → Prop
  | quoted (quote : Char) (body : List Char) (p : Piece) : EndsIn (.quoted quote body) p
  | word (name : List Char) (p : Piece) : EndsIn (.word name) p
  | comma : EndsIn .comma (.char ',')
  | other (c : Char) : EndsIn (.other c) (.char c)

/-- A token in front of a comma ends in a piece that is not blank. -/
theorem exists_last_piece {token : Token} (hcut : token.IsCut) (hsig : token.isSignificant = true)
    {others : List Token} (hnext : nextSignificant? others = some .comma) :
    ∃ ps p, token.pieces others = ps ++ [p] ∧ token.EndsIn p ∧
      ¬ ∀ c ∈ p.text, Text.isBlank c = true := by
  cases hcut with
  | blank | comment => cases hsig
  | quoted =>
    exact ⟨[], _, rfl, .quoted _ _ _, fun h => absurd (h '\x22' (by simp [Piece.text])) (by decide)⟩
  | comma =>
    refine ⟨[], .char ',', ?_, .comma, fun h => absurd (h ',' (by simp [Piece.text])) (by decide)⟩
    rw [Token.pieces, hnext]
    rfl
  | @other c hblank =>
    refine ⟨[], _, rfl, .other c, fun h => ?_⟩
    rw [h c (by simp [Piece.text])] at hblank
    cases hblank
  | @word c name hstart hname =>
    have hword : (Token.word (c :: name)).pieces others = (c :: name).map .char := by
      rw [Token.pieces, hnext]
      rfl
    have hchars : ∀ d ∈ c :: name, Text.isWordChar d = true :=
      List.forall_mem_cons.2 ⟨Text.isWordChar_of_isWordStart hstart, hname⟩
    obtain ⟨most, last, hlast⟩ := List.eq_nil_or_concat (c :: name) |>.resolve_left (by simp)
    rw [hlast] at hchars
    refine ⟨most.map .char, .char last, ?_, .word _ _, fun h => ?_⟩
    · rw [hword, hlast]
      simp
    · have hend := isWordChar_of_isBlank (h last (by simp [Piece.text]))
      rw [hchars last (by simp)] at hend
      cases hend

/-- What stands in front of a comma or closing mark is the end of an item, or an opening mark. -/
theorem endsValue_or_of_meets {token : Token} {p : Piece} {a : Lexeme} {c : Char}
    (hends : token.EndsIn p) (hshows : p.Shows a) (hmeets : Lexeme.Meets a (.mark c))
    (hc : c = ',' ∨ c = ']' ∨ c = '\x7d') :
    token.EndsValue ∨ ∃ d, token = .other d ∧ Encloses d c := by
  have hcases : a.EndsValue ∨ ∃ d, a = .mark d ∧ Encloses d c := by
    rcases hc with rfl | hc
    · exact .inl hmeets.endsValue
    · rcases hmeets.endsValue_or hc with h | ⟨rfl, rfl⟩ | ⟨rfl, rfl⟩
      · exact .inl h
      · exact .inr ⟨'[', rfl, .brackets⟩
      · exact .inr ⟨'\x7b', rfl, .braces⟩
  cases hends with
  | quoted quote body => exact .inl (.quoted quote body)
  | word name => exact .inl (.word name)
  | comma =>
    cases hshows with
    | bare hbare => exact absurd hbare (by decide)
    | mark =>
      rcases hcases with h | ⟨d, hd, hencloses⟩
      · cases h
      · obtain rfl := Lexeme.mark.inj hd
        cases hencloses
  | other c =>
    cases hshows with
    | bare hbare => exact .inl (.bare hbare)
    | mark =>
      rcases hcases with h | ⟨d, hd, hencloses⟩
      · cases h with
        | bracket => exact .inl .bracket
        | brace => exact .inl .brace
      · obtain rfl := Lexeme.mark.inj hd
        exact .inr ⟨_, rfl, hencloses⟩

/-! ### Commas -/

theorem Piece.isBlank_of_isGap {p : Piece} (h : p.IsGap) : ∀ c ∈ p.text, Text.isBlank c = true := by
  cases p with
  | char d =>
    intro c hc
    obtain rfl := List.mem_singleton.1 hc
    exact isBlank_of_isSpace h
  | string body => exact h.elim
  | comment => simp [Piece.text]

namespace Export

variable {value : Value}

/-- A comma or closing mark is one of the object. -/
theorem exists_core_of_mark {e : Export value} {front back : List Piece} {c : Char}
    (heq : e.pieces = front ++ .char c :: back) (hc : c = ',' ∨ c = ']' ∨ c = '\x7d') :
    ∃ inside behind, front = e.head ++ inside ∧ e.core = inside ++ .char c :: behind := by
  refine exists_core heq (notMem_head ?_ ?_ ?_) (notMem_foot ?_ ?_)
  all_goals rcases hc with rfl | rfl | rfl <;> decide

/-- Something that is not blank stands in front of the object. -/
theorem not_isBlank_head (e : Export value) (rest : List Piece) :
    ¬ ∀ c ∈ textOf (e.head ++ rest), Text.isBlank c = true :=
  fun h => absurd (h '=' (by simp [head, Piece.text])) (by decide)

/-- The token in front of a comma or closing mark may stand there. -/
theorem exists_meets_mark {e : Export value} (hclosed : ∀ p ∈ e.pieces, p.Closed)
    {front gap back : List Piece} {p : Piece} {c : Char}
    (heq : e.pieces = front ++ p :: (gap ++ .char c :: back)) (hc : c = ',' ∨ c = ']' ∨ c = '\x7d')
    (hp : ¬ ∀ d ∈ p.text, Text.isBlank d = true)
    (hgap : ∀ d ∈ textOf gap, Text.isBlank d = true) :
    ∃ a, p.Shows a ∧ Lexeme.Meets a (.mark c) := by
  have hcore := closed_core hclosed
  have hspace : isSpace c = false := by rcases hc with rfl | rfl | rfl <;> decide
  have hbare : isBare c = false := by rcases hc with rfl | rfl | rfl <;> decide
  have hplace : e.pieces = (front ++ p :: gap) ++ .char c :: back := by simpa using heq
  obtain ⟨inside, behind, hfront, hin⟩ := exists_core_of_mark hplace hc
  have hisGap : ∀ {r}, r ∈ inside → r ∈ gap → r.IsGap := by
    intro r hr hr'
    refine isGap_of_isBlank hcore (by simp [hin, hr]) fun d hd => hgap d ?_
    exact List.mem_flatMap.2 ⟨r, hr', hd⟩
  have hopens : ∀ part, gap ≠ part ++ inside := by
    rintro part rfl
    obtain rfl := eq_of_opens hcore hin (fun r hr => hisGap hr (by simp [hr])) hspace hbare
    rcases hc with h | h | h <;> exact absurd h (by decide)
  obtain ⟨before, rfl⟩ : ∃ before, inside = before ++ p :: gap := by
    rcases List.append_eq_append_iff.1 hfront with ⟨between, -, hcut⟩ | ⟨between, -, hcut⟩
    · rcases List.append_eq_cons_iff.1 hcut.symm with ⟨rfl, hinside⟩ | ⟨part, rfl, hpart⟩
      · exact ⟨[], hinside⟩
      · exact absurd hpart (hopens part)
    · exact ⟨between, hcut⟩
  have hgap' : ∀ r ∈ gap, r.IsGap := fun r hr => hisGap (by simp [hr]) hr
  have hp' : ¬ p.IsGap := fun h => hp (p.isBlank_of_isGap h)
  have hmark : ¬ (Piece.char c).IsGap := by simp [Piece.IsGap, hspace]
  have hapart : ¬ (p.IsBare ∧ (Piece.char c).IsBare) := by simp [Piece.IsBare, hbare]
  have hplace' : e.core = before ++ p :: (gap ++ .char c :: behind) := by simpa using hin
  obtain ⟨a, b, ha, hb, hmeets⟩ := exists_meets hcore hplace' hgap' hp' hmark (.inr hapart)
  cases hb with
  | bare hbare' =>
    rw [hbare] at hbare'
    cases hbare'
  | mark => exact ⟨a, ha, hmeets⟩

end Export

/-- **What stands in front of a comma** of a module that is read: the end of an item or member, or
the opening mark whose closing mark stands behind the comma. -/
theorem endsValue_or_of_comma {source : String} {value : Value} {front back : List Token}
    (hparse : parse source = .ok value)
    (htokens : tokenize source.toList = .ok (front ++ .comma :: back)) :
    ∃ token, lastSignificant? front = some token ∧
      (token.EndsValue ∨
        ∃ c d, token = .other c ∧ nextSignificant? back = some (.other d) ∧ Encloses c d) := by
  obtain ⟨tokens, htokens', hread⟩ := parse_eq_ok_iff.1 hparse
  obtain rfl := Except.ok.inj (htokens'.symm.trans htokens)
  have hcut := isCut_tokenize htokens
  have hcutBack : ∀ t ∈ back, t.IsCut := fun t ht => hcut t (by simp [ht])
  obtain ⟨gap, c, rest, hcomma, hgap, hc⟩ := exists_mark_of_comma hcutBack
  have hmark : c = ',' ∨ c = ']' ∨ c = '\x7d' := hc.imp_right And.left
  rcases parseJson_textOf_iff.1 hread with ⟨hblank, -⟩ | ⟨e, he⟩
  · obtain ⟨ps, hps⟩ := exists_pieces_append front (.comma :: back)
    have hc' := hblank c (by simp [hps, hcomma, Piece.text])
    rcases hmark with rfl | rfl | rfl <;> exact absurd hc' (by decide)
  have hclosed : ∀ p ∈ e.pieces, p.Closed := he ▸ closed_pieces hcut
  cases hlast : lastSignificant? front with
  | none =>
    have hsilent : ∀ t ∈ front, t.isSignificant = false := by
      simpa using List.find?_eq_none.1 hlast
    rw [pieces_append_of_silent hsilent, hcomma, ← List.append_assoc] at he
    obtain ⟨inside, -, hfront, -⟩ := e.exists_core_of_mark he hmark
    refine absurd ?_ (e.not_isBlank_head inside)
    rw [← hfront, textOf_append]
    have hcutFront : ∀ t ∈ front, t.IsCut := fun t ht => hcut t (by simp [ht])
    exact List.forall_mem_append.2 ⟨isBlank_of_silent hcutFront hsilent, hgap⟩
  | some token =>
    obtain ⟨others, silent, rfl, hsig, hsilent⟩ := exists_of_lastSignificant? hlast
    have hnext : nextSignificant? (silent ++ .comma :: back) = some .comma := by
      rw [nextSignificant?_append hsilent]
      rfl
    obtain ⟨qs, p, hpieces, hends, hp⟩ :=
      exists_last_piece (hcut token (by simp)) hsig hnext
    obtain ⟨ps, hps⟩ := exists_pieces_append others (token :: (silent ++ .comma :: back))
    have heq : e.pieces = (ps ++ qs) ++ p :: ((pieces silent ++ gap) ++ .char c :: rest) := by
      rw [he, List.append_assoc, List.cons_append, hps, pieces, hpieces,
        pieces_append_of_silent hsilent, hcomma]
      simp
    have hcutSilent : ∀ t ∈ silent, t.IsCut := fun t ht => hcut t (by simp [ht])
    have hgaps : ∀ d ∈ textOf (pieces silent ++ gap), Text.isBlank d = true := by
      rw [textOf_append]
      exact List.forall_mem_append.2 ⟨isBlank_of_silent hcutSilent hsilent, hgap⟩
    obtain ⟨a, ha, hmeets⟩ := e.exists_meets_mark hclosed heq hmark hp hgaps
    refine ⟨token, rfl, (endsValue_or_of_meets hends ha hmeets hmark).imp_right ?_⟩
    rintro ⟨d, rfl, hencloses⟩
    rcases hc with rfl | ⟨-, hnext⟩
    · cases hencloses
    · exact ⟨d, c, rfl, hnext, hencloses⟩

theorem endsValue_or_of_comma_last :
    parse "module.exports = \x7ba: [1 /* one */,]\x7d" =
        .ok (.object [("a", .array [.number (.natural 1 (by decide))])]) ∧
      ∃ token, lastSignificant? [.word "module".toList, .other '.', .word "exports".toList,
          .blank ' ', .other '=', .blank ' ', .other '\x7b', .word ['a'], .other ':', .blank ' ',
          .other '[', .other '1', .blank ' ', .comment "/* one */".toList] = some token ∧
        (token.EndsValue ∨
          ∃ c d, token = .other c ∧
            nextSignificant? [.other ']', .other '\x7d'] = some (.other d) ∧ Encloses c d) := by
  have hparse : parse "module.exports = \x7ba: [1 /* one */,]\x7d" =
      .ok (.object [("a", .array [.number (.natural 1 (by decide))])]) := by
    cbv
  exact ⟨hparse, endsValue_or_of_comma hparse (by decide +kernel)⟩

/-- A comma stands behind an opening mark. -/
theorem comma_behind_opening_mark :
    (parse "module.exports = \x7ba: [,]\x7d" = .ok (.object [("a", .array [])]) ∧
      ∃ front back, tokenize "module.exports = \x7ba: [,]\x7d".toList = .ok (front ++ .comma :: back) ∧
        lastSignificant? front = some (.other '[')) ∧
    parse "module.exports = \x7b,\x7d" = .ok (.object []) ∧
      ∃ front back, tokenize "module.exports = \x7b,\x7d".toList = .ok (front ++ .comma :: back) ∧
        lastSignificant? front = some (.other '\x7b') := by
  refine ⟨⟨by cbv, [.word "module".toList, .other '.', .word "exports".toList, .blank ' ',
      .other '=', .blank ' ', .other '\x7b', .word ['a'], .other ':', .blank ' ', .other '['],
      [.other ']', .other '\x7d'], by decide +kernel, by decide⟩, by cbv, [.word "module".toList,
      .other '.', .word "exports".toList, .blank ' ', .other '=', .blank ' ', .other '\x7b'],
      [.other '\x7d'], by decide +kernel, by decide⟩

/-- What is written in front of tokens depends on the next token that counts only. -/
theorem pieces_append_congr {others others' : List Token}
    (hnext : nextSignificant? others = nextSignificant? others')
    (h : pieces others = pieces others') (front : List Token) :
    pieces (front ++ others) = pieces (front ++ others') := by
  induction front with
  | nil => exact h
  | cons token front ih =>
    have hfront : nextSignificant? (front ++ others) = nextSignificant? (front ++ others') := by
      rw [nextSignificant?, nextSignificant?, List.find?_append, List.find?_append]
      exact congrArg _ hnext
    rw [List.cons_append, List.cons_append, pieces, pieces, ih]
    congr 1
    cases token <;> simp only [Token.pieces, hfront]

/-- **A comma alone** between an opening mark and its closing mark is read as if it was not
there. -/
theorem parse_eq_of_comma_alone {source source' : String} {front gap gap' back : List Token}
    {c d : Char} (hmarks : Encloses c d) (hgap : ∀ token ∈ gap, token.isSignificant = false)
    (hgap' : ∀ token ∈ gap', token.isSignificant = false)
    (htokens : tokenize source.toList =
      .ok (front ++ .other c :: (gap ++ .comma :: (gap' ++ .other d :: back))))
    (htokens' : tokenize source'.toList =
      .ok (front ++ .other c :: (gap ++ (gap' ++ .other d :: back)))) :
    parse source = parse source' := by
  have hnext : nextSignificant? (gap' ++ .other d :: back) = some (.other d) := by
    rw [nextSignificant?_append hgap', nextSignificant?_significant rfl]
  have hcomma : Token.comma.pieces (gap' ++ .other d :: back) = [] := by
    rw [Token.pieces, hnext]
    cases hmarks <;> rfl
  have hpieces : pieces (.other c :: (gap ++ .comma :: (gap' ++ .other d :: back))) =
      pieces (.other c :: (gap ++ (gap' ++ .other d :: back))) := by
    rw [pieces, pieces, pieces_append_of_silent hgap, pieces_append_of_silent hgap, pieces, hcomma]
    rfl
  have hsame := pieces_append_congr (by rfl) hpieces front
  rw [parse, parse, htokens, htokens']
  change parseJson (jsonText _) = parseJson (jsonText _)
  rw [jsonText_eq, jsonText_eq, hsame]

end ProjectSetup.ConfigModule
