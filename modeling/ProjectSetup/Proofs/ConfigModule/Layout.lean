import ProjectSetup.Proofs.ConfigModule.Pieces

/-!
# The layout of a module that is read

No double quote stands in front of the exported object or behind it, so that a cut of the text
there cuts no string: the pieces of a module that is read are cut up as its text is.

* `parseJson_textOf_iff`: what is read of pieces.
* `Export.mem_marks`: which marks the exported object is made of.
-/

namespace ProjectSetup.ConfigModule

open Json (Lexeme Value Written isBare isSpace lexemes)

/-! ### Cutting pieces -/

/-- A cut of the text cuts the pieces, if no quote stands in front of it. -/
theorem exists_cut_of_front {ps : List Piece} {front back : List Char}
    (h : textOf ps = front ++ back) (hquote : '\x22' ∉ front) :
    ∃ qs rs, ps = qs ++ rs ∧ textOf qs = front ∧ textOf rs = back := by
  induction ps generalizing front with
  | nil =>
    obtain ⟨rfl, rfl⟩ := List.append_eq_nil_iff.1 h.symm
    exact ⟨[], [], rfl, rfl, rfl⟩
  | cons p ps ih =>
    cases p with
    | comment =>
      obtain ⟨qs, rs, rfl, hqs, hrs⟩ := ih h hquote
      exact ⟨.comment :: qs, rs, rfl, hqs, hrs⟩
    | string body =>
      cases front with
      | nil => exact ⟨[], _, rfl, rfl, h⟩
      | cons c front =>
        obtain ⟨rfl, -⟩ := List.cons.inj h
        exact absurd (List.mem_cons_self) hquote
    | char c =>
      cases front with
      | nil => exact ⟨[], _, rfl, rfl, h⟩
      | cons d front =>
        obtain ⟨rfl, hrest⟩ := List.cons.inj h
        obtain ⟨qs, rs, rfl, rfl, hrs⟩ := ih hrest fun hmem => hquote (List.mem_cons_of_mem _ hmem)
        exact ⟨.char c :: qs, rs, rfl, rfl, hrs⟩

/-- A cut of the text cuts the pieces, if no quote stands behind it. -/
theorem exists_cut_of_back {ps : List Piece} {front back : List Char}
    (h : textOf ps = front ++ back) (hquote : '\x22' ∉ back) :
    ∃ qs rs, ps = qs ++ rs ∧ textOf qs = front ∧ textOf rs = back := by
  induction ps generalizing front with
  | nil =>
    obtain ⟨rfl, rfl⟩ := List.append_eq_nil_iff.1 h.symm
    exact ⟨[], [], rfl, rfl, rfl⟩
  | cons p ps ih =>
    rw [textOf_cons, List.append_eq_append_iff] at h
    rcases h with ⟨between, rfl, hrest⟩ | ⟨between, htext, rfl⟩
    · obtain ⟨qs, rs, rfl, rfl, hrs⟩ := ih hrest
      exact ⟨p :: qs, rs, rfl, rfl, hrs⟩
    · rcases List.eq_nil_or_concat between with rfl | ⟨most, last, rfl⟩
      · exact ⟨[p], ps, rfl, by simpa using htext, rfl⟩
      · cases p with
        | comment => simp [Piece.text] at htext
        | string body =>
          have hlast : ('\x22' :: body) ++ ['\x22'] = (front ++ most) ++ [last] := by
            simpa [Piece.text] using htext
          obtain ⟨-, hend⟩ := List.append_inj' hlast rfl
          obtain rfl : '\x22' = last := by simpa using hend
          exact absurd (by simp) hquote
        | char c =>
          have hone : [] ++ [c] = (front ++ most) ++ [last] := by simpa [Piece.text] using htext
          obtain ⟨hnil, hend⟩ := List.append_inj' hone rfl
          obtain ⟨rfl, rfl⟩ := List.append_eq_nil_iff.1 hnil.symm
          obtain rfl : c = last := by simpa using hend
          exact ⟨[], .char c :: ps, rfl, rfl, rfl⟩

/-- The first character of a text is a piece, if it is no quote. -/
theorem exists_first {ps : List Piece} {back : List Char} {c : Char} (h : textOf ps = c :: back)
    (hquote : '\x22' ≠ c) :
    ∃ gap rs, ps = gap ++ .char c :: rs ∧ textOf gap = [] ∧ textOf rs = back := by
  induction ps with
  | nil => cases h
  | cons p ps ih =>
    cases p with
    | comment =>
      obtain ⟨gap, rs, rfl, hgap, hrs⟩ := ih h
      exact ⟨.comment :: gap, rs, rfl, hgap, hrs⟩
    | string body => exact absurd (List.cons.inj h).1 hquote
    | char d =>
      obtain ⟨rfl, hrest⟩ := List.cons.inj h
      exact ⟨[], ps, rfl, rfl, hrest⟩

/-! ### What is read of pieces -/

/-- The pieces of a module that exports a value. -/
structure Export (value : Value) where
  /-- What stands in front of the words of the export. -/
  lead : List Piece
  /-- The words of the export. -/
  words : List Piece
  /-- What stands in front of the equals sign. -/
  between : List Piece
  /-- What stands in front of the object. -/
  front : List Piece
  /-- The object. -/
  core : List Piece
  /-- The semicolons. -/
  semicolons : List Piece
  /-- What stands behind the semicolons. -/
  tail : List Piece
  /-- The members of the object. -/
  members : List (List Char × Written)
  blank_lead : ∀ c ∈ textOf lead, Text.isBlank c = true
  textOf_words : textOf words = exportWords
  blank_between : ∀ c ∈ textOf between, Text.isBlank c = true
  blank_front : ∀ c ∈ textOf front, Text.isBlank c = true
  lexemes_core : lexemes (textOf core) = (Written.object members).lexemes
  value_members : (Written.object members).value? Json.maxDepth = some value
  eq_semicolon : ∀ c ∈ textOf semicolons, c = ';'
  blank_tail : ∀ c ∈ textOf tail, Text.isBlank c = true

namespace Export

variable {value : Value}

/-- What stands in front of the object. -/
def head (e : Export value) : List Piece :=
  e.lead ++ e.words ++ e.between ++ .char '=' :: e.front

/-- What stands behind the object. -/
def foot (e : Export value) : List Piece :=
  e.semicolons ++ e.tail

/-- All pieces of the module. -/
def pieces (e : Export value) : List Piece :=
  e.head ++ e.core ++ e.foot

theorem head_textOf_head (e : Export value) : Head (textOf e.head) := by
  simpa [head, e.textOf_words, Piece.text] using
    Head.intro e.blank_lead e.blank_between e.blank_front

theorem foot_textOf_foot (e : Export value) : Foot (textOf e.foot) := by
  simpa [foot] using Foot.intro e.eq_semicolon e.blank_tail

end Export

theorem notMem_of_blank {text : List Char} {c : Char} (h : ∀ d ∈ text, Text.isBlank d = true)
    (hc : Text.isBlank c = false) : c ∉ text := by
  intro hmem
  rw [h c hmem] at hc
  cases hc

/-- The pieces in front of the object. -/
theorem exists_head_pieces {ps : List Piece} {text : List Char} (h : Head text)
    (hps : textOf ps = text) :
    ∃ lead words between front, ps = lead ++ words ++ between ++ .char '=' :: front ∧
      (∀ c ∈ textOf lead, Text.isBlank c = true) ∧ textOf words = exportWords ∧
      (∀ c ∈ textOf between, Text.isBlank c = true) ∧
      (∀ c ∈ textOf front, Text.isBlank c = true) := by
  obtain ⟨hlead, hbetween, hfront⟩ := h
  rw [List.append_assoc, List.append_assoc] at hps
  obtain ⟨lead, ps₁, rfl, rfl, h₁⟩ := exists_cut_of_front hps (notMem_of_blank hlead (by decide))
  obtain ⟨words, ps₂, rfl, hwords, h₂⟩ := exists_cut_of_front h₁ (by decide)
  obtain ⟨between, ps₃, rfl, rfl, h₃⟩ :=
    exists_cut_of_front h₂ (notMem_of_blank hbetween (by decide))
  obtain ⟨gap, front, rfl, hgap, rfl⟩ := exists_first h₃ (by decide)
  refine ⟨lead, words, between ++ gap, front, by simp, hlead, hwords, ?_, hfront⟩
  simpa [hgap] using hbetween

/-- **What is read of pieces**: the empty object if they are blank, else what they export. -/
theorem parseJson_textOf_iff {ps : List Piece} {value : Value} :
    parseJson (textOf ps) = .ok value ↔
      ((∀ c ∈ textOf ps, Text.isBlank c = true) ∧ value = .object []) ∨
      ∃ e : Export value, e.pieces = ps := by
  rw [parseJson_eq_ok_iff]
  refine or_congr_right ⟨?_, ?_⟩
  · rintro ⟨head, core, foot, ws, htext, hhead, hfoot, hcore, hvalue⟩
    have hquote : '\x22' ∉ head := by
      obtain ⟨hlead, hbetween, hfront⟩ := hhead
      simp only [List.mem_append, List.mem_cons, not_or]
      exact ⟨⟨⟨notMem_of_blank hlead (by decide), by decide⟩, notMem_of_blank hbetween (by decide)⟩,
        by decide, notMem_of_blank hfront (by decide)⟩
    have hquote' : '\x22' ∉ foot := by
      obtain ⟨hsemicolons, htail⟩ := hfoot
      rw [List.mem_append, not_or]
      exact ⟨fun hmem => absurd (hsemicolons _ hmem) (by decide), notMem_of_blank htail (by decide)⟩
    rw [List.append_assoc] at htext
    obtain ⟨qs, rest, rfl, hqs, hrest⟩ := exists_cut_of_front htext hquote
    obtain ⟨mid, rs, rfl, rfl, hrs⟩ := exists_cut_of_back hrest hquote'
    obtain ⟨lead, words, between, front, rfl, hlead, hwords, hbetween, hfront⟩ :=
      exists_head_pieces hhead hqs
    obtain ⟨hsemicolons, htail⟩ := hfoot
    obtain ⟨semicolons, tail, rfl, rfl, rfl⟩ :=
      exists_cut_of_back hrs (notMem_of_blank htail (by decide))
    exact ⟨⟨lead, words, between, front, mid, semicolons, tail, ws, hlead, hwords, hbetween, hfront,
      hcore, hvalue, hsemicolons, htail⟩, by simp [Export.pieces, Export.head, Export.foot]⟩
  · rintro ⟨e, rfl⟩
    exact ⟨_, _, _, e.members, by simp [Export.pieces], e.head_textOf_head, e.foot_textOf_foot,
      e.lexemes_core, e.value_members⟩

/-- What is read of a source is what is read of its pieces. -/
theorem parse_eq_ok_iff {source : String} {value : Value} :
    parse source = .ok value ↔ ∃ tokens, tokenize source.toList = .ok tokens ∧
      parseJson (textOf (ConfigModule.pieces tokens)) = .ok value := by
  rw [parse]
  cases tokenize source.toList with
  | error why =>
    constructor
    · intro h
      cases h
    · rintro ⟨tokens, htokens, -⟩
      cases htokens
  | ok tokens =>
    change parseJson (jsonText tokens) = .ok value ↔ _
    simp only [jsonText_eq, Except.ok.injEq, exists_eq_left']

/-! ### The pieces of the object -/

namespace Export

variable {value : Value}

theorem closed_core {e : Export value} (h : ∀ p ∈ e.pieces, p.Closed) : ∀ p ∈ e.core, p.Closed :=
  fun p hp => h p (by simp [pieces, hp])

/-- **The marks of the object** are those of a value. -/
theorem mem_marks {e : Export value} (h : ∀ p ∈ e.core, p.Closed) {c : Char}
    (hc : .char c ∈ e.core) (hbare : isBare c = false) (hspace : isSpace c = false) :
    c ∈ Lexeme.marks := by
  obtain ⟨front, back, heq⟩ := List.append_of_mem hc
  have hgap : ¬ (Piece.char c).IsGap := by simp [Piece.IsGap, hspace]
  obtain ⟨first, others, hfirst, hshows⟩ := exists_head (h _ hc) hgap back
  have hfront : ∀ p ∈ front, p.Closed := fun p hp => h p (by simp [heq, hp])
  obtain ⟨before, first', hcore, hshows'⟩ := exists_of_append hfront hfirst hshows
  rw [← heq, e.lexemes_core] at hcore
  cases hshows' with
  | bare hbare' =>
    rw [hbare] at hbare'
    cases hbare'
  | mark => exact Written.mem_marks (w := .object e.members) (by simp [hcore])

/-- A blank character of the object is a space for the reader of values too. -/
theorem isSpace_of_isBlank {e : Export value} (h : ∀ p ∈ e.core, p.Closed) {c : Char}
    (hc : .char c ∈ e.core) (hblank : Text.isBlank c = true) : isSpace c = true := by
  by_contra hspace
  have hbare : isBare c = false := by
    by_contra hbare
    rw [isBlank_of_isBare (by simpa using hbare)] at hblank
    cases hblank
  have hmarks : Lexeme.marks.all (fun d => !Text.isBlank d) = true := by decide
  have hc' := List.all_eq_true.1 hmarks c (mem_marks h hc hbare (by simpa using hspace))
  rw [hblank] at hc'
  cases hc'

theorem isGap_of_isBlank {e : Export value} (h : ∀ p ∈ e.core, p.Closed) {p : Piece}
    (hp : p ∈ e.core) (hblank : ∀ c ∈ p.text, Text.isBlank c = true) : p.IsGap := by
  cases p with
  | char c => exact isSpace_of_isBlank h hp (hblank c (by simp [Piece.text]))
  | string body => exact absurd (hblank '\x22' (by simp [Piece.text])) (by decide)
  | comment => trivial

/-- **Neighbours in the object** show tokens that may stand next to each other. -/
theorem exists_meets {e : Export value} (h : ∀ p ∈ e.core, p.Closed)
    {front gap back : List Piece} {p q : Piece} (heq : e.core = front ++ p :: (gap ++ q :: back))
    (hgap : ∀ r ∈ gap, r.IsGap) (hp : ¬ p.IsGap) (hq : ¬ q.IsGap)
    (hapart : textOf gap ≠ [] ∨ ¬ (p.IsBare ∧ q.IsBare)) :
    ∃ a b, p.Shows a ∧ q.Shows b ∧ Lexeme.Meets a b := by
  rw [heq] at h
  obtain ⟨before, a, b, after, hcore, ha, hb⟩ := exists_neighbours h hgap hp hq hapart
  rw [← heq, e.lexemes_core] at hcore
  exact ⟨a, b, ha, hb, Written.meets_of_lexemes hcore⟩

/-- A character that stands neither in front of the object nor behind it is one of the object. -/
theorem exists_core {e : Export value} {front back : List Piece} {c : Char}
    (heq : e.pieces = front ++ .char c :: back) (hhead : c ∉ textOf e.head)
    (hfoot : c ∉ textOf e.foot) :
    ∃ inside behind, front = e.head ++ inside ∧ e.core = inside ++ .char c :: behind := by
  have hmem : ∀ ps qs : List Piece, c ∈ textOf (ps ++ .char c :: qs) :=
    fun ps qs => mem_textOf_of_char (by simp)
  rw [pieces, List.append_eq_append_iff] at heq
  rcases heq with ⟨between, -, hbetween⟩ | ⟨between, hbetween, hrest⟩
  · exact absurd (hbetween ▸ hmem _ _) hfoot
  · rcases List.append_eq_cons_iff.1 hrest.symm with ⟨rfl, hcons⟩ | ⟨left, rfl, -⟩
    · exact absurd (hcons ▸ hmem [] _) hfoot
    · rcases List.append_eq_append_iff.1 hbetween with ⟨inside, rfl, hcore⟩ | ⟨inside, hcut, hcore⟩
      · exact ⟨inside, left, rfl, hcore⟩
      · rcases List.append_eq_cons_iff.1 hcore.symm with ⟨rfl, hcons⟩ | ⟨more, rfl, -⟩
        · exact ⟨[], left, by simpa using hcut.symm, hcons⟩
        · exact absurd (hcut ▸ hmem _ _) hhead

theorem notMem_head {e : Export value} {c : Char} (hblank : Text.isBlank c = false)
    (hwords : c ∉ exportWords) (hequals : c ≠ '=') : c ∉ textOf e.head := by
  simp [head, Piece.text, e.textOf_words, hwords, hequals, notMem_of_blank e.blank_lead hblank,
    notMem_of_blank e.blank_between hblank, notMem_of_blank e.blank_front hblank]

theorem notMem_foot {e : Export value} {c : Char} (hblank : Text.isBlank c = false)
    (hsemicolon : c ≠ ';') : c ∉ textOf e.foot := by
  simp only [foot, textOf_append, List.mem_append, not_or]
  exact ⟨fun hmem => hsemicolon (e.eq_semicolon c hmem), notMem_of_blank e.blank_tail hblank⟩

/-- The first mark of the object is its opening mark. -/
theorem eq_of_opens {e : Export value} (h : ∀ p ∈ e.core, p.Closed) {gap back : List Piece}
    {c : Char} (heq : e.core = gap ++ .char c :: back) (hgap : ∀ p ∈ gap, p.IsGap)
    (hspace : isSpace c = false) (hbare : isBare c = false) : c = '\x7b' := by
  have hquote : c ≠ '\x22' := h (.char c) (by simp [heq])
  obtain ⟨mid, hmid⟩ := object_ends e.members
  have hcore := e.lexemes_core
  have htext : textOf (.char c :: back) = c :: textOf back := rfl
  rw [heq, textOf_append, lexemes_gap hgap, htext, Json.lexemes_mark hspace hquote hbare, hmid]
    at hcore
  simpa using (List.cons.inj hcore).1

end Export

end ProjectSetup.ConfigModule
