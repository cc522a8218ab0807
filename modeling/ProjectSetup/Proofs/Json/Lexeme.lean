import Mathlib.Data.List.TakeWhile
import Mathlib.Tactic.Common
import ProjectSetup.Json.Reader

/-!
# The tokens of a JSON text

`lexemes` cuts a text into strings, bare words (numbers and keywords) and single marks, and drops
the spaces between them.  The reader of JSON values sees a text through its tokens only, so that
what it makes of a text is stated over the tokens.

Three lemmas say what a text looks like that has a given first token (`exists_of_lexemes_mark`,
`exists_of_lexemes_quoted`, `exists_of_lexemes_bare`); the others compute the tokens of a text that
is put together from pieces.
-/

namespace ProjectSetup.Json

/-- A token of a JSON text. -/
inductive Lexeme where
  /-- A brace, a bracket, a colon or a comma; any other character that starts no token too. -/
  | mark (c : Char)
  /-- A string, as it is written between its quotes. -/
  | quoted (body : List Char)
  /-- A number or a keyword. -/
  | bare (text : List Char)
deriving Repr, DecidableEq

/-- The characters of numbers and keywords. -/
def isBare (c : Char) : Bool :=
  c.isAlphanum || c == '+' || c == '-' || c == '.'

/-- The body of a string up to the first quote that is not escaped, and what follows the quote. -/
def cutString? : List Char → Option (List Char × List Char)
  | [] => none
  | '\x5c' :: c :: text => (cutString? text).map fun (body, rest) => ('\x5c' :: c :: body, rest)
  | c :: text =>
    if c = '\x22' then some ([], text)
    else (cutString? text).map fun (body, rest) => (c :: body, rest)

theorem eq_of_cutString? {text body rest : List Char} (h : cutString? text = some (body, rest)) :
    text = body ++ '\x22' :: rest := by
  fun_induction cutString? text generalizing body rest with
  | case1 => cases h
  | case2 c text ih =>
    obtain ⟨⟨more, left⟩, hcut, h⟩ := Option.map_eq_some_iff.1 h
    obtain ⟨rfl, rfl⟩ := Prod.mk.inj h
    rw [ih hcut]
    rfl
  | case3 => cases h; rfl
  | case4 c text _ _ ih =>
    obtain ⟨⟨more, left⟩, hcut, h⟩ := Option.map_eq_some_iff.1 h
    obtain ⟨rfl, rfl⟩ := Prod.mk.inj h
    rw [ih hcut]
    rfl

/-- The tokens of a text; a quote that opens no string is a mark. -/
def lexemes : List Char → List Lexeme
  | [] => []
  | c :: text =>
    if isSpace c then lexemes text
    else if c = '\x22' then
      match _h : cutString? text with
      | some (body, rest) => .quoted body :: lexemes rest
      | none => .mark c :: lexemes text
    else if isBare c then .bare (c :: text.takeWhile isBare) :: lexemes (text.dropWhile isBare)
    else .mark c :: lexemes text
termination_by text => text.length
decreasing_by
  · simp
  · simp only [eq_of_cutString? _h, List.length_append, List.length_cons]; omega
  · simp
  · have := (List.dropWhile_suffix (l := text) isBare).length_le; simp only [List.length_cons]; omega
  · simp

/-- No bare word goes on in the text. -/
def Stops (text : List Char) : Prop :=
  ∀ c ∈ text.head?, isBare c = false

theorem stops_nil : Stops [] := by
  simp [Stops]

theorem isBare_of_isDigit {c : Char} (h : c.isDigit = true) : isBare c = true := by
  simp [isBare, Char.isAlphanum, h]

theorem isSpace_cases {c : Char} (h : isSpace c = true) :
    c = ' ' ∨ c = '\t' ∨ c = '\n' ∨ c = '\r' := by
  simpa [isSpace, or_assoc] using h

theorem isBare_of_isSpace {c : Char} (h : isSpace c = true) : isBare c = false := by
  rcases isSpace_cases h with rfl | rfl | rfl | rfl <;> decide

theorem isSpace_of_isBare {c : Char} (h : isBare c = true) : isSpace c = false := by
  cases hs : isSpace c
  · rfl
  · rw [isBare_of_isSpace hs] at h; cases h

/-! ### Runs of characters of a class -/

theorem takeWhile_append_of_stop {α : Type} {p : α → Bool} {front back : List α}
    (hf : ∀ a ∈ front, p a = true) (hb : ∀ a ∈ back.head?, p a = false) :
    (front ++ back).takeWhile p = front := by
  rw [List.takeWhile_append_of_pos hf]
  cases back with
  | nil => simp
  | cons b back => simp [hb b (by simp)]

theorem dropWhile_append_of_stop {α : Type} {p : α → Bool} {front back : List α}
    (hf : ∀ a ∈ front, p a = true) (hb : ∀ a ∈ back.head?, p a = false) :
    (front ++ back).dropWhile p = back := by
  rw [List.dropWhile_append_of_pos hf]
  cases back with
  | nil => simp
  | cons b back => simp [hb b (by simp)]

theorem head?_dropWhile_eq_false {α : Type} (p : α → Bool) (l : List α) :
    ∀ a ∈ (l.dropWhile p).head?, p a = false := by
  induction l with
  | nil => simp
  | cons b l ih =>
    by_cases hb : p b = true
    · simpa [List.dropWhile_cons, hb] using ih
    · simp [hb]

/-! ### The tokens of texts put together -/

theorem lexemes_nil : lexemes [] = [] := by
  rw [lexemes]

theorem lexemes_space {c : Char} {text : List Char} (h : isSpace c = true) :
    lexemes (c :: text) = lexemes text := by
  rw [lexemes, if_pos h]

theorem lexemes_mark {c : Char} {text : List Char} (hs : isSpace c = false) (hq : c ≠ '\x22')
    (hb : isBare c = false) : lexemes (c :: text) = .mark c :: lexemes text := by
  rw [lexemes, hs, if_neg (by decide), if_neg hq, hb, if_neg (by decide)]

theorem lexemes_quote {text body rest : List Char} (h : cutString? text = some (body, rest)) :
    lexemes ('\x22' :: text) = .quoted body :: lexemes rest := by
  rw [lexemes, if_neg (by decide), if_pos rfl]
  split
  next hcut => cases h.symm.trans hcut; rfl
  next hcut => cases h.symm.trans hcut

theorem lexemes_openQuote {text : List Char} (h : cutString? text = none) :
    lexemes ('\x22' :: text) = .mark '\x22' :: lexemes text := by
  rw [lexemes, if_neg (by decide), if_pos rfl]
  split
  next hcut => cases h.symm.trans hcut
  · rfl

theorem ne_quote_of_isBare {c : Char} (h : isBare c = true) : c ≠ '\x22' := by
  rintro rfl
  exact absurd h (by decide)

theorem lexemes_bare {c : Char} {word text : List Char} (hc : isBare c = true)
    (hw : ∀ d ∈ word, isBare d = true) (ht : Stops text) :
    lexemes (c :: word ++ text) = .bare (c :: word) :: lexemes text := by
  rw [List.cons_append, lexemes, isSpace_of_isBare hc, if_neg (by decide),
    if_neg (ne_quote_of_isBare hc), if_pos hc, takeWhile_append_of_stop hw ht,
    dropWhile_append_of_stop hw ht]

theorem lexemes_append_of_spaces {spaces text : List Char} (h : ∀ c ∈ spaces, isSpace c = true) :
    lexemes (spaces ++ text) = lexemes text := by
  induction spaces with
  | nil => rfl
  | cons c spaces ih =>
    rw [List.cons_append, lexemes_space (h c (by simp)), ih fun d hd => h d (by simp [hd])]

theorem lexemes_of_spaces {spaces : List Char} (h : ∀ c ∈ spaces, isSpace c = true) :
    lexemes spaces = [] := by
  rw [← List.append_nil spaces, lexemes_append_of_spaces h, lexemes_nil]

theorem spaces_append_skipSpace (text : List Char) :
    ∃ spaces, (∀ c ∈ spaces, isSpace c = true) ∧ text = spaces ++ skipSpace text :=
  ⟨text.takeWhile isSpace, fun _ hc => List.mem_takeWhile_imp hc,
    List.takeWhile_append_dropWhile.symm⟩

theorem lexemes_skipSpace (text : List Char) : lexemes (skipSpace text) = lexemes text := by
  obtain ⟨spaces, hs, ht⟩ := spaces_append_skipSpace text
  rw [ht, lexemes_append_of_spaces hs, ← ht]

/-! ### Texts by their first token -/

/-- **The four forms of a text**, by what stands behind the spaces it starts with. -/
theorem lexemes_cases (text : List Char) :
    (skipSpace text = [] ∧ lexemes text = []) ∨
    (∃ body rest, skipSpace text = '\x22' :: (body ++ '\x22' :: rest) ∧
      cutString? (body ++ '\x22' :: rest) = some (body, rest) ∧
      lexemes text = .quoted body :: lexemes rest) ∨
    (∃ word rest, skipSpace text = word ++ rest ∧ Stops rest ∧
      lexemes text = .bare word :: lexemes rest) ∨
    ∃ c rest, skipSpace text = c :: rest ∧ lexemes text = .mark c :: lexemes rest := by
  rw [← lexemes_skipSpace text]
  cases h : skipSpace text with
  | nil => exact .inl ⟨rfl, lexemes_nil⟩
  | cons c rest =>
    have hs : isSpace c = false := head?_dropWhile_eq_false isSpace text c (by rw [← skipSpace, h]; rfl)
    by_cases hq : c = '\x22'
    · subst hq
      cases hcut : cutString? rest with
      | none => exact .inr (.inr (.inr ⟨'\x22', rest, rfl, lexemes_openQuote hcut⟩))
      | some cut =>
        obtain ⟨body, left⟩ := cut
        obtain rfl := eq_of_cutString? hcut
        exact .inr (.inl ⟨body, left, rfl, hcut, lexemes_quote hcut⟩)
    · cases hb : isBare c with
      | false => exact .inr (.inr (.inr ⟨c, rest, rfl, lexemes_mark hs hq hb⟩))
      | true =>
        refine .inr (.inr (.inl ⟨c :: rest.takeWhile isBare, rest.dropWhile isBare, ?_,
          head?_dropWhile_eq_false isBare rest, ?_⟩))
        · rw [List.cons_append, List.takeWhile_append_dropWhile]
        · rw [lexemes, hs, if_neg (by decide), if_neg hq, if_pos hb]

theorem exists_of_lexemes_mark {text : List Char} {c : Char} {others : List Lexeme}
    (h : lexemes text = .mark c :: others) :
    ∃ rest, skipSpace text = c :: rest ∧ lexemes rest = others := by
  rcases lexemes_cases text with
    ⟨-, hl⟩ | ⟨body, rest, -, -, hl⟩ | ⟨word, rest, -, -, hl⟩ | ⟨d, rest, hd, hl⟩
  all_goals rw [hl] at h; cases h
  exact ⟨rest, hd, rfl⟩

theorem exists_of_lexemes_quoted {text body : List Char} {others : List Lexeme}
    (h : lexemes text = .quoted body :: others) :
    ∃ rest, skipSpace text = '\x22' :: (body ++ '\x22' :: rest) ∧
      cutString? (body ++ '\x22' :: rest) = some (body, rest) ∧ lexemes rest = others := by
  rcases lexemes_cases text with
    ⟨-, hl⟩ | ⟨body, rest, hq, hcut, hl⟩ | ⟨word, rest, -, -, hl⟩ | ⟨d, rest, -, hl⟩
  all_goals rw [hl] at h; cases h
  exact ⟨rest, hq, hcut, rfl⟩

theorem exists_of_lexemes_bare {text word : List Char} {others : List Lexeme}
    (h : lexemes text = .bare word :: others) :
    ∃ rest, skipSpace text = word ++ rest ∧ Stops rest ∧ lexemes rest = others := by
  rcases lexemes_cases text with
    ⟨-, hl⟩ | ⟨body, rest, -, -, hl⟩ | ⟨w, rest, hw, hs, hl⟩ | ⟨d, rest, -, hl⟩
  all_goals rw [hl] at h; cases h
  exact ⟨rest, hw, hs, rfl⟩

theorem skipSpace_eq_nil_of_lexemes {text : List Char} (h : lexemes text = []) :
    skipSpace text = [] := by
  rcases lexemes_cases text with
    ⟨hn, -⟩ | ⟨body, rest, -, -, hl⟩ | ⟨word, rest, -, -, hl⟩ | ⟨d, rest, -, hl⟩
  · exact hn
  all_goals rw [hl] at h; cases h

/-! ### The end of a text -/

theorem cutString?_append {text body rest : List Char} (h : cutString? text = some (body, rest))
    (tail : List Char) : cutString? (text ++ tail) = some (body, rest ++ tail) := by
  fun_induction cutString? text generalizing body rest with
  | case1 => cases h
  | case2 c text ih =>
    obtain ⟨⟨more, left⟩, hcut, h⟩ := Option.map_eq_some_iff.1 h
    obtain ⟨rfl, rfl⟩ := Prod.mk.inj h
    simp [cutString?, ih hcut]
  | case3 =>
    cases h
    simp [cutString?]
  | case4 c text hc hne ih =>
    obtain ⟨⟨more, left⟩, hcut, h⟩ := Option.map_eq_some_iff.1 h
    obtain ⟨rfl, rfl⟩ := Prod.mk.inj h
    rw [List.cons_append, cutString?, if_neg hne, ih hcut]
    · rfl
    · rintro d more rfl heq
      cases text with
      | nil => cases hcut
      | cons e text => exact hc e text rfl rfl

theorem cutString?_of_spaces {spaces : List Char} (h : ∀ c ∈ spaces, isSpace c = true) :
    cutString? spaces = none := by
  induction spaces with
  | nil => rfl
  | cons c spaces ih =>
    have hrest := ih fun d hd => h d (by simp [hd])
    rcases isSpace_cases (h c (by simp)) with rfl | rfl | rfl | rfl <;> simp [cutString?, hrest]

theorem cutString?_append_spaces {text spaces : List Char} (h : cutString? text = none)
    (hs : ∀ c ∈ spaces, isSpace c = true) : cutString? (text ++ spaces) = none := by
  fun_induction cutString? text with
  | case1 => exact cutString?_of_spaces hs
  | case2 c text ih => simpa [cutString?] using ih (by simpa using h)
  | case3 => cases h
  | case4 c text hc hne ih =>
    have hrest := ih (by simpa using h)
    by_cases hb : c = '\x5c'
    · -- a backslash at the end of the text takes the first space with it
      subst hb
      cases text with
      | cons e text => exact absurd rfl (hc e text rfl)
      | nil =>
        cases spaces with
        | nil => simp [cutString?]
        | cons d spaces =>
          simp [cutString?, cutString?_of_spaces fun e he => hs e (List.mem_cons_of_mem _ he)]
    · rw [List.cons_append, cutString?, if_neg hne, hrest]
      · rfl
      · rintro d more rfl
        exact absurd rfl hb

theorem lexemes_append_spaces {spaces : List Char} (h : ∀ c ∈ spaces, isSpace c = true)
    (text : List Char) : lexemes (text ++ spaces) = lexemes text := by
  have hstops : Stops spaces := by
    intro c hc
    exact isBare_of_isSpace (h c (List.mem_of_mem_head? hc))
  fun_induction lexemes text with
  | case1 => exact lexemes_of_spaces h
  | case2 c text hc ih => rw [List.cons_append, lexemes_space hc, ih]
  | case3 text body rest hcut _ ih =>
    rw [List.cons_append, lexemes_quote (cutString?_append hcut spaces), ih]
  | case4 text hcut _ ih =>
    rw [List.cons_append, lexemes_openQuote (cutString?_append_spaces hcut h), ih]
  | case5 c text hs hq hb ih =>
    have hhead : Stops (text.dropWhile isBare ++ spaces) := by
      intro d hd
      cases hdrop : text.dropWhile isBare with
      | nil => exact hstops d (by simpa [hdrop] using hd)
      | cons e rest =>
        have := head?_dropWhile_eq_false isBare text
        rw [hdrop] at this hd
        exact this d hd
    have hword : ∀ d ∈ text.takeWhile isBare, isBare d = true :=
      fun d hd => List.mem_takeWhile_imp hd
    rw [← ih, ← lexemes_bare hb hword hhead, List.cons_append, List.cons_append,
      ← List.append_assoc, List.takeWhile_append_dropWhile]
  | case6 c text hs hq hb ih =>
    rw [List.cons_append, lexemes_mark (by simpa using hs) hq (by simpa using hb), ih]

/-- A text whose last token is a mark ends with it, up to spaces. -/
theorem exists_of_lexemes_append_mark {c : Char} :
    ∀ (text : List Char) (front : List Lexeme), lexemes text = front ++ [.mark c] →
      ∃ before spaces, text = before ++ c :: spaces ∧ ∀ d ∈ spaces, isSpace d = true := by
  intro text
  induction hlen : text.length using Nat.strongRecOn generalizing text with
  | ind n ih =>
    subst hlen
    intro front h
    obtain ⟨blanks, -, htext⟩ := spaces_append_skipSpace text
    -- the text goes on behind its first token, and what goes on ends with the mark
    have step : ∀ first piece rest, skipSpace text = piece ++ rest → piece ≠ [] →
        lexemes text = first :: lexemes rest → front ≠ [] →
        ∃ before spaces, text = before ++ c :: spaces ∧ ∀ d ∈ spaces, isSpace d = true := by
      intro first piece rest hskip hne hlex hfront
      cases front with
      | nil => exact absurd rfl hfront
      | cons x front =>
        rw [hlex, List.cons_append] at h
        have hlt : rest.length < text.length := by
          have := List.length_pos_iff.2 hne
          rw [htext, hskip, List.length_append, List.length_append]
          omega
        obtain ⟨before, spaces, rfl, hspaces⟩ := ih _ hlt rest rfl front (List.cons.inj h).2
        exact ⟨blanks ++ piece ++ before, spaces, by rw [htext, hskip]; simp, hspaces⟩
    rcases lexemes_cases text with
      ⟨-, hl⟩ | ⟨body, rest, hs, -, hl⟩ | ⟨word, rest, hs, -, hl⟩ | ⟨d, rest, hs, hl⟩
    · rw [hl] at h
      simp at h
    · refine step _ ('\x22' :: body ++ ['\x22']) rest (by simp [hs]) (by simp) hl ?_
      rintro rfl
      rw [hl] at h
      cases h
    · have hfront : front ≠ [] := by
        rintro rfl
        rw [hl] at h
        cases h
      cases word with
      | nil => exact absurd (by rw [← lexemes_skipSpace, hs]; rfl : lexemes text = lexemes rest) (by
          rw [hl]
          exact fun h => absurd (congrArg List.length h) (by simp))
      | cons e word => exact step _ (e :: word) rest hs (by simp) hl hfront
    · by_cases hfront : front = []
      · subst hfront
        rw [hl] at h
        obtain ⟨hd, hrest⟩ := List.cons.inj h
        obtain rfl := Lexeme.mark.inj hd
        obtain ⟨spaces, hspaces, hr⟩ := spaces_append_skipSpace rest
        rw [skipSpace_eq_nil_of_lexemes hrest, List.append_nil] at hr
        refine ⟨blanks, rest, by rw [htext, hs], ?_⟩
        rw [hr]
        exact hspaces
      · exact step _ [d] rest (by simp [hs]) (by simp) hl hfront

theorem length_lexemes_le (text : List Char) : (lexemes text).length ≤ text.length := by
  fun_induction lexemes text with
  | case1 => simp
  | case2 c text _ ih => simp only [List.length_cons]; omega
  | case3 text body rest hcut _ ih =>
    simp only [eq_of_cutString? hcut, List.length_append, List.length_cons]; omega
  | case4 text hcut _ ih => simp only [List.length_cons]; omega
  | case5 c text _ _ _ ih =>
    have := (List.dropWhile_suffix (l := text) isBare).length_le
    simp only [List.length_cons]; omega
  | case6 c text _ _ _ ih => simp only [List.length_cons]; omega

end ProjectSetup.Json
