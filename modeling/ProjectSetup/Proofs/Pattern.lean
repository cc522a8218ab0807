import Mathlib.Data.List.Infix
import Mathlib.Tactic.Common
import ProjectSetup.Plan

/-!
# What the patterns of the setup accept

An expression leads from a spot of a text to other spots; for the expressions that the patterns are
made of, a sequence of literals and sets of characters, the lemmas say to which.  Every pattern of
the setup starts at the start of a line, so that it is a condition on what the line starts with.

* `vueImport_iff`, `anyImport_iff`, `linkTag_iff`, `closingHead_iff`, `polyfillMarker_iff`: the lines
  that the patterns accept.
-/

namespace ProjectSetup

namespace Pattern

theorem mem_after_seq {first second : Expr} {spot last : Spot} :
    last ∈ (Expr.seq first second).after spot ↔
      ∃ mid, mid ∈ first.after spot ∧ last ∈ second.after mid := by
  rw [Expr.after, List.mem_flatMap]

theorem mem_after_all_cons {part : Expr} {parts : List Expr} {spot last : Spot} :
    last ∈ (Expr.all (part :: parts)).after spot ↔
      ∃ mid, mid ∈ part.after spot ∧ last ∈ (Expr.all parts).after mid :=
  mem_after_seq

theorem mem_after_one {set : CharSet} {spot last : Spot} :
    last ∈ (Expr.one set).after spot ↔
      ∃ c rest, spot.rest = c :: rest ∧ set.has c = true ∧ last = ⟨false, rest⟩ := by
  rw [Expr.after]
  cases hrest : spot.rest with
  | nil => simp
  | cons c rest =>
    by_cases hc : set.has c = true
    · simp [hc]
    · simp [hc]

theorem mem_run {set : CharSet} {text : List Char} {last : Spot} :
    last ∈ set.run text ↔ ∃ c word rest, text = c :: word ++ rest ∧
      (∀ d ∈ c :: word, set.has d = true) ∧ last = ⟨false, rest⟩ := by
  induction text with
  | nil => simp [CharSet.run]
  | cons d text ih =>
    rw [CharSet.run]
    split_ifs with hd
    · rw [List.mem_cons, ih]
      constructor
      · rintro (rfl | ⟨c, word, rest, rfl, hword, rfl⟩)
        · exact ⟨d, [], text, rfl, by simpa using hd, rfl⟩
        · exact ⟨d, c :: word, rest, rfl, List.forall_mem_cons.2 ⟨hd, hword⟩, rfl⟩
      · rintro ⟨c, word, rest, heq, hword, rfl⟩
        obtain ⟨rfl, rfl⟩ := List.cons.inj heq
        cases word with
        | nil => exact .inl rfl
        | cons e word =>
          exact .inr ⟨e, word, rest, rfl, (List.forall_mem_cons.1 hword).2, rfl⟩
    · constructor
      · intro h
        cases h
      · rintro ⟨c, word, rest, heq, hword, rfl⟩
        obtain ⟨rfl, -⟩ := List.cons.inj heq
        exact absurd (hword d (by simp)) hd

theorem single_has {c d : Char} : (CharSet.single c).has d = true ↔ d = c := by
  simp only [CharSet.has, CharSet.single, List.any_cons, List.any_nil, Item.has, Bool.or_false,
    bne_iff_ne, ne_eq, Bool.not_eq_false, Bool.and_eq_true, decide_eq_true_eq]
  exact ⟨fun h => Char.le_antisymm h.2 h.1, fun h => by subst h; exact ⟨Char.le_refl _, Char.le_refl _⟩⟩

/-- The characters of a literal lead on behind it. -/
theorem mem_after_literal {chars : List Char} {parts : List Expr} {flag : Bool} {text : List Char}
    {last : Spot} (hne : chars ≠ []) :
    last ∈ (Expr.all (chars.map (fun c => .one (.single c)) ++ parts)).after ⟨flag, text⟩ ↔
      ∃ rest, text = chars ++ rest ∧ last ∈ (Expr.all parts).after ⟨false, rest⟩ := by
  induction chars generalizing flag text with
  | nil => exact absurd rfl hne
  | cons c chars ih =>
    rw [List.map_cons, List.cons_append, mem_after_all_cons]
    constructor
    · rintro ⟨mid, hmid, hlast⟩
      obtain ⟨d, rest, rfl, hd, rfl⟩ := mem_after_one.1 hmid
      obtain rfl := single_has.1 hd
      cases chars with
      | nil => exact ⟨rest, rfl, hlast⟩
      | cons e chars =>
        obtain ⟨left, rfl, hleft⟩ := (ih (by simp)).1 hlast
        exact ⟨left, rfl, hleft⟩
    · rintro ⟨rest, rfl, hlast⟩
      refine ⟨⟨false, chars ++ rest⟩, mem_after_one.2 ⟨c, _, rfl, single_has.2 rfl, rfl⟩, ?_⟩
      cases chars with
      | nil => exact hlast
      | cons e chars => exact (ih (by simp)).2 ⟨rest, rfl, hlast⟩

/-- Any number of characters of a set. -/
theorem mem_after_many {set : CharSet} {spot last : Spot} :
    last ∈ (Expr.many set).after spot ↔ last = spot ∨
      ∃ c word rest, spot.rest = c :: word ++ rest ∧ (∀ d ∈ c :: word, set.has d = true) ∧
        last = ⟨false, rest⟩ := by
  rw [Expr.after, List.mem_cons, mem_run]

/-- Behind any number of characters of a set a literal leads on. -/
theorem mem_after_many_literal {set : CharSet} {chars : List Char} {parts : List Expr}
    {flag : Bool} {text : List Char} {last : Spot} (hne : chars ≠ []) :
    last ∈ (Expr.all (.many set :: (chars.map (fun c => .one (.single c)) ++ parts))).after
        ⟨flag, text⟩ ↔
      ∃ word rest, text = word ++ chars ++ rest ∧ (∀ d ∈ word, set.has d = true) ∧
        last ∈ (Expr.all parts).after ⟨false, rest⟩ := by
  rw [mem_after_all_cons]
  constructor
  · rintro ⟨mid, hmid, hlast⟩
    rcases mem_after_many.1 hmid with rfl | ⟨c, word, rest, htext, hword, rfl⟩
    · obtain ⟨rest, rfl, hrest⟩ := (mem_after_literal hne).1 hlast
      exact ⟨[], rest, rfl, by simp, hrest⟩
    · obtain ⟨left, rfl, hleft⟩ := (mem_after_literal hne).1 hlast
      exact ⟨c :: word, left, by rw [List.append_assoc]; exact htext, hword, hleft⟩
  · rintro ⟨word, rest, rfl, hword, hlast⟩
    cases word with
    | nil =>
      exact ⟨_, mem_after_many.2 (.inl rfl), (mem_after_literal hne).2 ⟨rest, rfl, hlast⟩⟩
    | cons c word =>
      exact ⟨_, mem_after_many.2 (.inr ⟨c, word, chars ++ rest, by simp, hword, rfl⟩),
        (mem_after_literal hne).2 ⟨rest, rfl, hlast⟩⟩

theorem matchesAt_iff {expr : Expr} {spot : Spot} :
    expr.matchesAt spot = true ↔ ∃ last, last ∈ expr.after spot := by
  rw [Expr.matchesAt, Bool.not_eq_true', List.isEmpty_eq_false_iff]
  constructor
  · exact List.exists_mem_of_ne_nil _
  · rintro ⟨last, hlast⟩
    exact List.ne_nil_of_mem hlast

/-- A pattern that starts with `^` is looked for at the start of the line only. -/
theorem occursIn_start_iff {source : String} {parts : List Expr} {line : String} :
    (Pattern.mk source (.all (.start :: parts))).occursIn line = true ↔
      ∃ last, last ∈ (Expr.all parts).after ⟨true, line.toList⟩ := by
  have hbehind : ∀ text, (Expr.all (.start :: parts)).matchesBehind text = false := by
    intro text
    induction text with
    | nil => rfl
    | cons c text ih =>
      rw [Expr.matchesBehind, ih, Bool.or_false, ← Bool.not_eq_true, matchesAt_iff]
      rintro ⟨last, hlast⟩
      obtain ⟨mid, hmid, -⟩ := mem_after_all_cons.1 hlast
      cases hmid
  rw [Pattern.occursIn, hbehind, Bool.or_false, matchesAt_iff]
  constructor
  · rintro ⟨last, hlast⟩
    obtain ⟨mid, hmid, hlast⟩ := mem_after_all_cons.1 hlast
    obtain rfl : mid = ⟨true, line.toList⟩ := by simpa [Expr.after] using hmid
    exact ⟨last, hlast⟩
  · rintro ⟨last, hlast⟩
    exact ⟨last, mem_after_all_cons.2 ⟨⟨true, line.toList⟩, by simp [Expr.after], hlast⟩⟩

theorem mem_after_nil {spot last : Spot} : last ∈ (Expr.all []).after spot ↔ last = spot := by
  simp [Expr.all, Expr.after]

theorem blanks_has {c : Char} : CharSet.blanks.has c = true ↔ Text.isBlank c = true := by
  simp [CharSet.has, CharSet.blanks, Item.has]

theorem notLineFeed_has {c : Char} : CharSet.notLineFeed.has c = true ↔ c ≠ '\n' := by
  have hsingle : Item.has c (.range '\n' '\n') = true ↔ c = '\n' := by
    rw [← single_has]
    simp [CharSet.has, CharSet.single]
  simp only [CharSet.has, CharSet.notLineFeed, List.any_cons, List.any_nil, Bool.or_false,
    bne_iff_ne, ne_eq, Bool.not_eq_true]
  rw [← hsingle, Bool.not_eq_true]

end Pattern

open Pattern

/-! ### The patterns of the setup -/

theorem vueImport_iff {line : String} :
    Plan.vueImport.occursIn line = true ↔ "import Vue".toList <+: line.toList := by
  have hparts : Plan.vueImport =
      ⟨"^import Vue", .all (.start :: ("import Vue".toList.map (fun c => .one (.single c)) ++ []))⟩ :=
    rfl
  have hne : "import Vue".toList ≠ [] := by decide
  rw [hparts, occursIn_start_iff]
  simp only [mem_after_literal hne, mem_after_nil]
  constructor
  · rintro ⟨_, rest, htext, rfl⟩
    exact ⟨rest, htext.symm⟩
  · rintro ⟨rest, htext⟩
    exact ⟨_, rest, htext.symm, rfl⟩

theorem anyImport_iff {line : String} :
    Plan.anyImport.occursIn line = true ↔
      ∃ c rest, line.toList = "import".toList ++ c :: rest ∧ Text.isBlank c = true := by
  have hparts : Plan.anyImport =
      ⟨"^import\\s", .all (.start :: ("import".toList.map (fun c => .one (.single c)) ++
        [.one .blanks]))⟩ := rfl
  have hne : "import".toList ≠ [] := by decide
  rw [hparts, occursIn_start_iff]
  simp only [mem_after_literal hne, mem_after_all_cons,
    mem_after_one, blanks_has, mem_after_nil]
  constructor
  · rintro ⟨_, _, htext, _, ⟨c, rest, rfl, hc, rfl⟩, rfl⟩
    exact ⟨c, rest, htext, hc⟩
  · rintro ⟨c, rest, htext, hc⟩
    exact ⟨_, _, htext, _, ⟨c, rest, rfl, hc, rfl⟩, rfl⟩

/-- Blank characters and then a tag. -/
def StartsTag (tag line : List Char) : Prop :=
  ∃ blanks rest, line = blanks ++ tag ++ rest ∧ ∀ c ∈ blanks, Text.isBlank c = true

theorem startsTag_iff {source : String} {tag : List Char} (hne : tag ≠ []) {line : String} :
    (Pattern.mk source (.all (.start :: .many .blanks ::
      (tag.map (fun c => .one (.single c)) ++ [])))).occursIn line = true ↔
      StartsTag tag line.toList := by
  rw [occursIn_start_iff]
  simp only [mem_after_many_literal hne, blanks_has, mem_after_nil]
  constructor
  · rintro ⟨_, blanks, rest, htext, hblanks, rfl⟩
    exact ⟨blanks, rest, htext, hblanks⟩
  · rintro ⟨blanks, rest, htext, hblanks⟩
    exact ⟨_, blanks, rest, htext, hblanks, rfl⟩

theorem linkTag_iff {line : String} :
    LineEdit.linkTag.occursIn line = true ↔ StartsTag "<link".toList line.toList := by
  have hparts : LineEdit.linkTag = ⟨"^\\s*<link", .all (.start :: .many .blanks ::
      ("<link".toList.map (fun c => .one (.single c)) ++ []))⟩ := rfl
  rw [hparts, startsTag_iff (by decide)]

theorem closingHead_iff {line : String} :
    LineEdit.closingHead.occursIn line = true ↔ StartsTag "</head>".toList line.toList := by
  have hparts : LineEdit.closingHead = ⟨"^\\s*</head>", .all (.start :: .many .blanks ::
      ("</head>".toList.map (fun c => .one (.single c)) ++ []))⟩ := rfl
  rw [hparts, startsTag_iff (by decide)]

theorem mem_after_alt {left right : Expr} {spot last : Spot} :
    last ∈ (Expr.alt left right).after spot ↔ last ∈ left.after spot ∨ last ∈ right.after spot := by
  rw [Expr.after, List.mem_append]

theorem mem_after_word {chars : List Char} (hne : chars ≠ []) {flag : Bool} {text : List Char}
    {last : Spot} :
    last ∈ (Expr.all (chars.map (fun c => .one (.single c)))).after ⟨flag, text⟩ ↔
      ∃ rest, text = chars ++ rest ∧ last = ⟨false, rest⟩ := by
  rw [← List.append_nil (chars.map _), mem_after_literal hne]
  simp only [mem_after_nil]

/-- One of two words at the start of a line. -/
theorem mem_after_eitherWord {first second : List Char} (hne : first ≠ []) (hne' : second ≠ [])
    {flag : Bool} {text : List Char} {spot : Spot} :
    spot ∈ (Expr.alt (.all (first.map fun c => .one (.single c)))
        (.all (second.map fun c => .one (.single c)))).after ⟨flag, text⟩ ↔
      ∃ head rest, (head = first ∨ head = second) ∧ text = head ++ rest ∧ spot = ⟨false, rest⟩ := by
  rw [mem_after_alt, mem_after_word hne, mem_after_word hne']
  constructor
  · rintro (⟨rest, htext, rfl⟩ | ⟨rest, htext, rfl⟩)
    · exact ⟨_, rest, .inl rfl, htext, rfl⟩
    · exact ⟨_, rest, .inr rfl, htext, rfl⟩
  · rintro ⟨head, rest, rfl | rfl, htext, rfl⟩
    · exact .inl ⟨rest, htext, rfl⟩
    · exact .inr ⟨rest, htext, rfl⟩

theorem forall_notLineFeed_iff {word : List Char} :
    (∀ c ∈ word, CharSet.notLineFeed.has c = true) ↔ '\n' ∉ word := by
  simp only [notLineFeed_has]
  exact ⟨fun h hmem => h _ hmem rfl, fun h c hc heq => h (heq ▸ hc)⟩

/-- Anything up to the end of a line. -/
theorem exists_after_lineEnd_iff {rest : List Char} :
    (∃ last, last ∈ (Expr.all [.many .notLineFeed, .stop]).after ⟨false, rest⟩) ↔ '\n' ∉ rest := by
  rw [← forall_notLineFeed_iff]
  constructor
  · rintro ⟨last, hlast⟩
    obtain ⟨mid, hmid, hlast⟩ := mem_after_all_cons.1 hlast
    obtain ⟨stop, hstop, -⟩ := mem_after_all_cons.1 hlast
    have hend : mid.rest = [] := by
      rw [Expr.after] at hstop
      split_ifs at hstop with hempty
      · exact List.isEmpty_iff.1 hempty
      · cases hstop
    rcases mem_after_many.1 hmid with rfl | ⟨c, word, left, htext, hword, rfl⟩
    · intro c hc
      simp only at hend
      rw [hend] at hc
      cases hc
    · obtain rfl : left = [] := hend
      rw [List.append_nil] at htext
      simp only at htext
      rw [htext]
      exact hword
  · intro hrest
    refine ⟨⟨rest.isEmpty && false, []⟩, mem_after_all_cons.2 ⟨⟨false, []⟩, ?_, ?_⟩⟩
    · cases rest with
      | nil => exact mem_after_many.2 (.inl rfl)
      | cons c rest => exact mem_after_many.2 (.inr ⟨c, rest, [], by simp, hrest, rfl⟩)
    · exact mem_after_all_cons.2 ⟨⟨false, []⟩, by simp [Expr.after], by simp [Expr.all, Expr.after]⟩

/-- Lines that load the polyfill: an import or a require, and the name of the polyfill behind it. -/
theorem polyfillMarker_iff {line : String} :
    Plan.polyfillMarker.occursIn line = true ↔
      ∃ head mid rest, (head = "import".toList ∨ head = "require".toList) ∧
        line.toList = head ++ (mid ++ "@babel/polyfill".toList ++ rest) ∧ '\n' ∉ mid ∧
        '\n' ∉ rest := by
  have hparts : Plan.polyfillMarker = ⟨"^(import|require).*@babel/polyfill.*$",
      .all (.start :: .alt (.all ("import".toList.map fun c => .one (.single c)))
        (.all ("require".toList.map fun c => .one (.single c))) :: .many .notLineFeed ::
          ("@babel/polyfill".toList.map (fun c => .one (.single c)) ++
            [.many .notLineFeed, .stop]))⟩ := rfl
  rw [hparts, occursIn_start_iff]
  constructor
  · rintro ⟨last, hlast⟩
    obtain ⟨spot, hspot, hlast⟩ := mem_after_all_cons.1 hlast
    obtain ⟨head, rest, hword, htext, rfl⟩ :=
      (mem_after_eitherWord (by decide) (by decide)).1 hspot
    obtain ⟨mid, left, rfl, hmid, hlast⟩ := (mem_after_many_literal (by decide)).1 hlast
    exact ⟨head, mid, left, hword, htext, forall_notLineFeed_iff.1 hmid,
      exists_after_lineEnd_iff.1 ⟨last, hlast⟩⟩
  · rintro ⟨head, mid, rest, hword, htext, hmid, hrest⟩
    obtain ⟨last, hlast⟩ := exists_after_lineEnd_iff.2 hrest
    refine ⟨last, mem_after_all_cons.2 ⟨⟨false, mid ++ "@babel/polyfill".toList ++ rest⟩, ?_, ?_⟩⟩
    · exact (mem_after_eitherWord (by decide) (by decide)).2 ⟨head, _, hword, htext, rfl⟩
    · exact (mem_after_many_literal (by decide)).2
        ⟨mid, rest, rfl, forall_notLineFeed_iff.2 hmid, hlast⟩

end ProjectSetup
