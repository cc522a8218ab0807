import ProjectSetup.ConfigModule.Basic
import ProjectSetup.Proofs.ConfigModule.Loose
import ProjectSetup.Proofs.Json.Printed

/-!
# Reading config modules

`IsSource` relates the tokens of a JSON text to the sources of modules that export it, loosely
written.  The loader reads such a source as the JSON text is read.

* `parse_source_iff`: a source is read as a value exactly if its JSON text is.
* `parse_eq_of_isSource`: what the loader understands, told over JSON texts.
-/

namespace ProjectSetup.ConfigModule

open Json (Lexeme Members Value Written isBare isSpace isBody lexemes)

/-! ### The tokens of a value are placed -/

theorem goesOn_lexemes (w : Written) (back : List Lexeme) : GoesOn (w.lexemes ++ back) := by
  obtain ⟨first, others, hw, hfirst⟩ := w.head_lexemes
  refine ⟨first, others ++ back, by rw [hw, List.cons_append], fun c hc => ?_⟩
  rcases hfirst c hc with rfl | rfl <;> decide

theorem endsItem_itemLexemes (ws : List Written) (back : List Lexeme) :
    ∃ c others, Written.itemLexemes ws ++ back = .mark c :: others ∧ endsItem c = true := by
  cases ws with
  | nil => exact ⟨']', _, rfl, by decide⟩
  | cons w ws => exact ⟨',', _, rfl, by decide⟩

theorem endsItem_memberLexemes (ws : List (List Char × Written)) (back : List Lexeme) :
    ∃ c others, Written.memberLexemes ws ++ back = .mark c :: others ∧ endsItem c = true := by
  rcases ws with _ | ⟨⟨key, w⟩, ws⟩
  · exact ⟨'\x7d', _, rfl, by decide⟩
  · exact ⟨',', _, rfl, by decide⟩

theorem placed_mark {c : Char} {tokens : List Lexeme} (hc : isMark c = true) (hne : c ≠ ',')
    (h : Placed tokens) : Placed (.mark c :: tokens) :=
  ⟨hc, fun hcomma => absurd hcomma hne, h⟩

mutual

/-- The tokens of a value are placed in front of an item's end, and those of a list or an object
in front of anything. -/
theorem placed_lexemes : ∀ (w : Written) {back : List Lexeme}, w.Proper → Placed back →
    ((∀ word, w ≠ .bare word) ∨ ∃ c others, back = .mark c :: others ∧ endsItem c = true) →
    Placed (w.lexemes ++ back)
  | .bare word, back, hw, hback, hend => by
    obtain hne | hend := hend
    · exact absurd rfl (hne word)
    · exact ⟨hw.1, hw.2, hend, hback⟩
  | .quoted body, back, hw, hback, _ => ⟨hw, hback⟩
  | .array [], back, _, hback, _ =>
    placed_mark (by decide) (by decide) (placed_mark (by decide) (by decide) hback)
  | .array (w :: ws), back, hw, hback, _ => by
    have hrest := placed_itemLexemes ws hw.2 hback
    have hitem := placed_lexemes w hw.1 hrest (.inr (endsItem_itemLexemes ws back))
    simp only [Written.lexemes, List.cons_append, List.append_assoc]
    exact placed_mark (by decide) (by decide) hitem
  | .object [], back, _, hback, _ =>
    placed_mark (by decide) (by decide) (placed_mark (by decide) (by decide) hback)
  | .object ((key, w) :: ws), back, hw, hback, _ => by
    have hrest := placed_memberLexemes ws hw.2.2 hback
    have hvalue := placed_lexemes w hw.2.1 hrest (.inr (endsItem_memberLexemes ws back))
    simp only [Written.lexemes, List.cons_append, List.append_assoc]
    exact placed_mark (by decide) (by decide) ⟨hw.1, placed_mark (by decide) (by decide) hvalue⟩

theorem placed_itemLexemes : ∀ (ws : List Written) {back : List Lexeme},
    Written.ItemsProper ws → Placed back → Placed (Written.itemLexemes ws ++ back)
  | [], back, _, hback => placed_mark (by decide) (by decide) hback
  | w :: ws, back, hw, hback => by
    have hrest := placed_itemLexemes ws hw.2 hback
    have hitem := placed_lexemes w hw.1 hrest (.inr (endsItem_itemLexemes ws back))
    simp only [Written.itemLexemes, List.cons_append, List.append_assoc]
    exact ⟨by decide, fun _ => goesOn_lexemes w _, hitem⟩

theorem placed_memberLexemes : ∀ (ws : List (List Char × Written)) {back : List Lexeme},
    Written.MembersProper ws → Placed back → Placed (Written.memberLexemes ws ++ back)
  | [], back, _, hback => placed_mark (by decide) (by decide) hback
  | (key, w) :: ws, back, hw, hback => by
    have hrest := placed_memberLexemes ws hw.2.2 hback
    have hvalue := placed_lexemes w hw.2.1 hrest (.inr (endsItem_memberLexemes ws back))
    simp only [Written.memberLexemes, List.cons_append, List.append_assoc]
    exact ⟨by decide, fun _ => ⟨_, _, rfl, by simp⟩, hw.1,
      placed_mark (by decide) (by decide) hvalue⟩

end

/-! ### Sources -/

/-- A comment that the source ends with, without a line feed behind it, or nothing. -/
inductive LastComment : List Char → Prop
  | none : LastComment []
  | line {body : List Char} : '\n' ∉ body → LastComment ('/' :: '/' :: body)

/-- What may stand behind the exported value: a gap, or a gap with JSON spaces, a semicolon and a
gap. -/
inductive Finish : List Char → Prop
  | plain {gap last : List Char} : Gap Text.isBlank gap → LastComment last → Finish (gap ++ last)
  | semicolon {before gap last : List Char} : Gap isSpace before → Gap Text.isBlank gap →
    LastComment last → Finish (before ++ ';' :: gap ++ last)

/-- The sources of modules that export the JSON text with these tokens. -/
inductive IsSource (tokens : List Lexeme) : List Char → Prop
  | intro {lead between value finish : List Char} : Gap Text.isBlank lead →
    Gap Text.isBlank between → Loose false tokens value → Finish finish →
    IsSource tokens (lead ++ exportWords ++ between ++ '=' :: value ++ finish)

theorem tokenize_lastComment {last : List Char} (h : LastComment last) :
    ∃ all, tokenize last = .ok all ∧ jsonText all = [] := by
  cases h with
  | none => exact ⟨[], by rw [tokenize], rfl⟩
  | @line body hbody =>
    have hnil : tokenize [] = .ok [] := by rw [tokenize]
    have hcut : nextToken '/' ('/' :: body) = .ok (.comment ('/' :: '/' :: body), []) := by
      simpa using nextToken_line hbody (by simp : ∀ c ∈ ([] : List Char).head?, c = '\n')
    exact ⟨_, tokenize_cons hcut hnil, rfl⟩

/-- What stands behind the value becomes blank characters, maybe with a semicolon between them that
has JSON spaces in front of it. -/
theorem tokenize_finish {finish : List Char} (h : Finish finish) :
    ∃ all spaces blanks, tokenize finish = .ok all ∧ (∀ c ∈ spaces, isSpace c = true) ∧
      (∀ c ∈ blanks, Text.isBlank c = true) ∧
      (jsonText all = blanks ∨ jsonText all = spaces ++ ';' :: blanks) := by
  cases h with
  | @plain gap last hgap hlast =>
    obtain ⟨others, hothers, hnil⟩ := tokenize_lastComment hlast
    obtain ⟨blanks, hblanks, hcut⟩ := tokenize_gap isBlankClass_isBlank hgap
    obtain ⟨all, hall, htext, -⟩ := hcut _ _ hothers
    exact ⟨all, [], blanks, hall, by simp, hblanks, .inl (by rw [htext, hnil, List.append_nil])⟩
  | @semicolon before gap last hbefore hgap hlast =>
    obtain ⟨others, hothers, hnil⟩ := tokenize_lastComment hlast
    obtain ⟨blanks, hblanks, hcut⟩ := tokenize_gap isBlankClass_isBlank hgap
    obtain ⟨behind, hbehind, htext, -⟩ := hcut _ _ hothers
    have hsemi : nextToken ';' (gap ++ last) = .ok (.other ';', gap ++ last) := rfl
    obtain ⟨spaces, hspaces, hcut⟩ := tokenize_gap isBlankClass_isSpace hbefore
    obtain ⟨all, hall, htext', -⟩ := hcut _ _ (tokenize_cons hsemi hbehind)
    refine ⟨all, spaces, blanks, by rwa [List.append_assoc], hspaces, hblanks, .inr ?_⟩
    rw [htext', jsonText, htext, hnil, List.append_nil]
    rfl

/-- **A source is written as JSON**: what it exports has the tokens that it spells. -/
theorem tokenize_source {tokens : List Lexeme} {source : List Char} (h : IsSource tokens source)
    (hp : Placed tokens) :
    ∃ all lead between written spaces blanks finish, tokenize source = .ok all ∧
      (∀ c ∈ lead, Text.isBlank c = true) ∧ (∀ c ∈ between, Text.isBlank c = true) ∧
      lexemes written = tokens ∧ (∀ c ∈ spaces, isSpace c = true) ∧
      (∀ c ∈ blanks, Text.isBlank c = true) ∧
      (finish = blanks ∨ finish = spaces ++ ';' :: blanks) ∧
      jsonText all = lead ++ exportWords ++ between ++ '=' :: written ++ finish := by
  obtain @⟨lead, between, value, finish, hlead, hbetween, hvalue, hfinish⟩ := h
  obtain ⟨ending, spaces, blanks, hending, hspaces, hblanks, hform⟩ := tokenize_finish hfinish
  obtain ⟨all, written, hall, hspells⟩ := tokenize_loose hvalue hp hending
  have hequals : nextToken '=' (value ++ finish) = .ok (.other '=', value ++ finish) := rfl
  obtain ⟨blanks₁, hblanks₁, hcut₁⟩ := tokenize_gap isBlankClass_isBlank hbetween
  obtain ⟨all₁, hall₁, htext₁, hnext₁⟩ := hcut₁ _ _ (tokenize_cons hequals hall)
  rw [nextSignificant?_significant rfl] at hnext₁
  have hwords : ∀ c ∈ exportWords, isBare c = true := List.all_eq_true.1 (by decide)
  obtain ⟨all₂, hall₂, htext₂, -⟩ := tokenize_bare hwords
    hall₁ (isWordChar_head_of_gap isBlankClass_isBlank hbetween (by decide) _) (by simp [hnext₁])
  obtain ⟨blanks₃, hblanks₃, hcut₃⟩ := tokenize_gap isBlankClass_isBlank hlead
  obtain ⟨all₃, hall₃, htext₃, -⟩ := hcut₃ _ _ hall₂
  refine ⟨all₃, blanks₃, blanks₁, written, spaces, blanks, jsonText ending, by simpa using hall₃,
    hblanks₃, hblanks₁, by simpa [Json.lexemes_nil] using hspells.lexemes_append [], hspaces,
    hblanks, hform, ?_⟩
  rw [htext₃, htext₂, htext₁, jsonText, hspells.jsonText_eq]
  simp [Token.jsonText]

/-! ### The exported text -/

theorem reverse_dropWhile_reverse {α : Type} {p : α → Bool} {front back : List α}
    (hf : ∀ a ∈ front.getLast?, p a = false) (hb : ∀ a ∈ back, p a = true) :
    ((front ++ back).reverse.dropWhile p).reverse = front := by
  rw [List.reverse_append, Json.dropWhile_append_of_stop (by simpa using hb)
    (by simpa [List.head?_reverse] using hf), List.reverse_reverse]

theorem trim_eq {front text back : List Char} (hne : text ≠ [])
    (hf : ∀ c ∈ front, Text.isBlank c = true) (hb : ∀ c ∈ back, Text.isBlank c = true)
    (hhead : ∀ c ∈ text.head?, Text.isBlank c = false)
    (hlast : ∀ c ∈ text.getLast?, Text.isBlank c = false) :
    Text.trim (front ++ text ++ back) = text := by
  have hhead' : ∀ c ∈ (text ++ back).head?, Text.isBlank c = false := by
    intro c hc
    rcases Json.head?_append_cases hc with hc | ⟨hnil, -⟩
    · exact hhead c hc
    · exact absurd hnil hne
  rw [Text.trim, Text.trimStart, List.append_assoc, Json.dropWhile_append_of_stop hf hhead',
    Text.trimEnd, reverse_dropWhile_reverse hlast hb]

theorem exported?_eq {between spaces text : List Char} (hne : text ≠ [])
    (hb : ∀ c ∈ between, Text.isBlank c = true) (hs : ∀ c ∈ spaces, Text.isBlank c = true)
    (hhead : ∀ c ∈ text.head?, Text.isBlank c = false)
    (hlast : ∀ c ∈ text.getLast?, Text.isBlank c = false) :
    exported? (exportWords ++ between ++ '=' :: (spaces ++ text)) = some (dropSemicolons text) := by
  have htrim : Text.trim (spaces ++ text) = text := by
    simpa using trim_eq hne hs (by simp : ∀ c ∈ [], _) hhead hlast
  have hstart : Text.trimStart (between ++ '=' :: (spaces ++ text)) = '=' :: (spaces ++ text) := by
    refine Json.dropWhile_append_of_stop hb ?_
    rintro c hc
    cases hc
    decide
  rw [exported?, List.append_assoc, Text.stripPrefix?_append]
  simp only [bind, Option.bind_some, hstart]
  rw [show '=' :: (spaces ++ text) = ['='] ++ (spaces ++ text) from rfl, Text.stripPrefix?_append]
  simp only [Option.bind_some, htrim]

/-- A text between two marks: without the spaces at its ends it has the same tokens. -/
theorem exists_body {text : List Char} {o c : Char} {mid : List Lexeme}
    (h : lexemes text = .mark o :: mid ++ [.mark c]) :
    ∃ front body back, text = front ++ body ++ back ∧ (∀ d ∈ front, isSpace d = true) ∧
      (∀ d ∈ back, isSpace d = true) ∧ body.head? = some o ∧ body.getLast? = some c ∧
      lexemes body = lexemes text := by
  obtain ⟨before, back, rfl, hback⟩ := Json.exists_of_lexemes_append_mark text _ h
  have hall : lexemes (before ++ [c]) = lexemes (before ++ c :: back) := by
    rw [← Json.lexemes_append_spaces hback (before ++ [c]), List.append_assoc]
    rfl
  rw [← hall, List.cons_append] at h
  obtain ⟨rest, hskip, -⟩ := Json.exists_of_lexemes_mark h
  obtain ⟨front, hfront, hbody⟩ := Json.spaces_append_skipSpace (before ++ [c])
  rw [hskip] at hbody
  refine ⟨front, o :: rest, back, ?_, hfront, hback, rfl, ?_, ?_⟩
  · rw [← hbody]
    simp
  · have hlast := congrArg List.getLast? hbody
    rw [List.getLast?_append, List.getLast?_append] at hlast
    simpa using hlast.symm
  · rw [← hskip, Json.lexemes_skipSpace, hall]

/-- What the loader makes of the exported text. -/
def readExport (body : List Char) : Except Unreadable Value :=
  match Value.parse (String.ofList body) with
  | .error error => .error (.invalidJson error)
  | .ok value => if value.isObject then .ok value else .error .exportNotObject

/-- The module written as JSON, up to the last character that is not blank. -/
theorem parseJson_export {lead between front text tail : List Char}
    (hlead : ∀ d ∈ lead, Text.isBlank d = true) (hbetween : ∀ d ∈ between, Text.isBlank d = true)
    (hfront : ∀ d ∈ front, Text.isBlank d = true) (htail : ∀ d ∈ tail, Text.isBlank d = true)
    (hne : text ≠ []) (hhead : ∀ d ∈ text.head?, Text.isBlank d = false)
    (hlast : ∀ d ∈ text.getLast?, Text.isBlank d = false) :
    parseJson (lead ++ (exportWords ++ between ++ '=' :: (front ++ text)) ++ tail) =
      readExport (dropSemicolons text) := by
  have hwords : ∀ d ∈ (exportWords ++ between ++ '=' :: (front ++ text)).head?,
      Text.isBlank d = false := by
    intro d hd
    rw [List.append_assoc] at hd
    rcases Json.head?_append_cases hd with hd | ⟨hnil, -⟩
    · have hfirst : exportWords.head? = some 'm' := rfl
      rw [hfirst] at hd
      obtain rfl := Option.mem_some_iff.1 hd
      decide
    · exact absurd hnil (by decide)
  have hend : ∀ d ∈ (exportWords ++ between ++ '=' :: (front ++ text)).getLast?,
      Text.isBlank d = false := by
    rw [← List.cons_append, ← List.append_assoc, List.getLast?_append,
      List.getLast?_eq_some_getLast hne, Option.some_or, ← List.getLast?_eq_some_getLast hne]
    exact hlast
  have htrim := trim_eq (by simp) hlead htail hwords hend
  rw [parseJson, htrim, if_neg (by simp), exported?_eq hne hbetween hfront hhead hlast]
  rfl

theorem isBlank_of_isMark {c : Char} (h : isMark c = true) : Text.isBlank c = false := by
  rcases isMark_cases h with rfl | rfl | rfl | rfl | rfl | rfl <;> decide

theorem dropSemicolons_eq {text semicolons : List Char} (hlast : ∀ c ∈ text.getLast?, c ≠ ';')
    (hs : ∀ c ∈ semicolons, c = ';') : dropSemicolons (text ++ semicolons) = text :=
  reverse_dropWhile_reverse (by simpa using hlast) (by simpa using hs)

/-- The module written as JSON, where a text between two marks is exported. -/
theorem parseJson_of_frame {lead between front written semicolons tail : List Char} {o c : Char}
    {mid : List Lexeme} (hlead : ∀ d ∈ lead, Text.isBlank d = true)
    (hbetween : ∀ d ∈ between, Text.isBlank d = true) (hfront : ∀ d ∈ front, Text.isBlank d = true)
    (hwritten : lexemes written = .mark o :: mid ++ [.mark c])
    (ho : isMark o = true) (hc : isMark c = true) (hsemicolons : ∀ d ∈ semicolons, d = ';')
    (htail : ∀ d ∈ tail, Text.isBlank d = true) :
    ∃ body, lexemes body = lexemes written ∧
      parseJson (lead ++ exportWords ++ between ++ '=' :: (front ++ written ++ semicolons ++ tail)) =
        readExport body := by
  obtain ⟨spaces, body, back, rfl, hspaces, hback, hhead, hlast, hlex⟩ := exists_body hwritten
  have hne : body ≠ [] := by
    rintro rfl
    cases hhead
  have hhead' : ∀ more, ∀ d ∈ (body ++ more).head?, Text.isBlank d = false := by
    intro more d hd
    rcases Json.head?_append_cases hd with hd | ⟨hnil, -⟩
    · rw [hhead] at hd
      cases hd
      exact isBlank_of_isMark ho
    · exact absurd hnil hne
  have hfront' : ∀ d ∈ front ++ spaces, Text.isBlank d = true :=
    List.forall_mem_append.2 ⟨hfront, fun d hd => isBlank_of_isSpace (hspaces d hd)⟩
  have hmark : ∀ d ∈ body.getLast?, d ≠ ';' := by
    rw [hlast]
    rintro d ⟨⟩ rfl
    exact absurd hc (by decide)
  rcases List.eq_nil_or_concat semicolons with rfl | ⟨others, last, rfl⟩
  · -- nothing but blank characters behind the value
    have htail' : ∀ d ∈ back ++ tail, Text.isBlank d = true :=
      List.forall_mem_append.2 ⟨fun d hd => isBlank_of_isSpace (hback d hd), htail⟩
    have hend : ∀ d ∈ body.getLast?, Text.isBlank d = false := by
      rw [hlast]
      rintro d ⟨⟩
      exact isBlank_of_isMark hc
    have hread := parseJson_export hlead hbetween hfront' htail' hne (by simpa using hhead' []) hend
    have hkeep : dropSemicolons body = body := by
      simpa using dropSemicolons_eq hmark (by simp : ∀ d ∈ [], d = ';')
    rw [hkeep] at hread
    exact ⟨body, hlex, by rw [← hread]; simp⟩
  · -- a semicolon is the last character that is not blank
    obtain rfl : last = ';' := hsemicolons last (by simp)
    have hend : ∀ d ∈ (body ++ (back ++ (others ++ [';']))).getLast?, Text.isBlank d = false := by
      rw [← List.append_assoc, ← List.append_assoc, List.getLast?_append]
      rintro d ⟨⟩
      decide
    have hread := parseJson_export hlead hbetween hfront' htail (by simp) (hhead' _) hend
    have hdrop : dropSemicolons (body ++ (back ++ (others ++ [';']))) = body ++ back := by
      rw [← List.append_assoc]
      refine dropSemicolons_eq ?_ fun d hd => hsemicolons d (by simpa using hd)
      rw [List.getLast?_append]
      intro d hd
      cases hmore : back.getLast? with
      | none =>
        rw [hmore] at hd
        exact hmark d hd
      | some e =>
        rw [hmore] at hd
        cases hd
        rintro rfl
        exact absurd (hback _ (List.mem_of_getLast? hmore)) (by decide)
    refine ⟨body ++ back, by rw [Json.lexemes_append_spaces hback, hlex], ?_⟩
    rw [← hdrop, ← hread]
    simp

/-! ### What the loader understands -/

theorem memberLexemes_ends (ws : List (List Char × Written)) :
    ∃ mid, Written.memberLexemes ws = mid ++ [.mark '\x7d'] := by
  induction ws with
  | nil => exact ⟨[], rfl⟩
  | cons w ws ih =>
    obtain ⟨key, w⟩ := w
    obtain ⟨mid, hmid⟩ := ih
    exact ⟨.mark ',' :: .quoted key :: .mark ':' :: w.lexemes ++ mid, by
      simp [Written.memberLexemes, hmid]⟩

theorem object_ends (ws : List (List Char × Written)) :
    ∃ mid, (Written.object ws).lexemes = .mark '\x7b' :: mid ++ [.mark '\x7d'] := by
  rcases ws with _ | ⟨⟨key, w⟩, ws⟩
  · exact ⟨[], rfl⟩
  · obtain ⟨mid, hmid⟩ := memberLexemes_ends ws
    exact ⟨.quoted key :: .mark ':' :: w.lexemes ++ mid, by simp [Written.lexemes, hmid]⟩

theorem readExport_eq_ok_iff {body : List Char} {ws : List (List Char × Written)} {value : Value}
    (h : lexemes body = (Written.object ws).lexemes) :
    readExport body = .ok value ↔ (Written.object ws).value? Json.maxDepth = some value := by
  have hparse : ∀ v, Value.parse (String.ofList body) = .ok v ↔
      (Written.object ws).value? Json.maxDepth = some v := by
    intro v
    rw [Json.parse_eq_ok_iff]
    constructor
    · rintro ⟨w, hw, hvalue⟩
      rw [String.toList_ofList, h] at hw
      rwa [Written.lexemes_injective hw]
    · intro hvalue
      exact ⟨_, by rw [String.toList_ofList, h], hvalue⟩
  rw [readExport, ← hparse]
  cases hread : Value.parse (String.ofList body) with
  | error error => simp
  | ok v =>
    obtain ⟨below, members, -, -, rfl⟩ := Written.value?_object_iff.1 ((hparse v).1 hread)
    simp [Value.isObject]

/-- **What the loader makes of a source**: exactly what its JSON text stands for. -/
theorem parse_source_iff {ws : List (List Char × Written)} {source : List Char} {value : Value}
    (h : IsSource (Written.object ws).lexemes source) (hw : (Written.object ws).Proper) :
    parse (String.ofList source) = .ok value ↔
      (Written.object ws).value? Json.maxDepth = some value := by
  have hnil : Placed [] := trivial
  have hplaced := placed_lexemes (.object ws) hw hnil (.inl fun word => by simp)
  rw [List.append_nil] at hplaced
  obtain ⟨all, lead, between, written, spaces, blanks, finish, htokens, hlead, hbetween, hwritten,
    hspaces, hblanks, hfinish, htext⟩ := tokenize_source h hplaced
  obtain ⟨mid, hmid⟩ := object_ends ws
  have hread : ∃ body, lexemes body = lexemes written ∧ parseJson (jsonText all) = readExport body := by
    rcases hfinish with rfl | rfl
    · obtain ⟨body, hbody, hread⟩ := parseJson_of_frame hlead hbetween (List.forall_mem_nil _)
        (hwritten.trans hmid) (by decide) (by decide) (List.forall_mem_nil _) hblanks
      exact ⟨body, hbody, by rw [← hread, htext]; simp⟩
    · have hmore := Json.lexemes_append_spaces hspaces written
      have hone : ∀ c ∈ [';'], c = ';' := by simp
      obtain ⟨body, hbody, hread⟩ := parseJson_of_frame hlead hbetween (List.forall_mem_nil _)
        (hmore.trans (hwritten.trans hmid)) (by decide) (by decide) hone hblanks
      exact ⟨body, hbody.trans hmore, by rw [← hread, htext]; simp⟩
  obtain ⟨body, hbody, hread⟩ := hread
  rw [parse, String.toList_ofList, htokens, ← readExport_eq_ok_iff (hbody.trans hwritten), ← hread]
  rfl

/-- **The loader understands the data subset of the language**: take a JSON text that stands for an
object, spell its tokens loosely, with gaps between them, strings in single quotes, keys without
quotes and trailing commas, and export it; the loader gives the object. -/
theorem parse_eq_of_isSource {text : String} {members : Members} {source : List Char}
    (ht : Value.parse text = .ok (.object members)) (h : IsSource (lexemes text.toList) source) :
    parse (String.ofList source) = .ok (.object members) := by
  obtain ⟨w, hw, hvalue⟩ := Json.parse_eq_ok_iff.1 ht
  rw [hw] at h
  cases w with
  | bare word =>
    rw [Written.value?_bare] at hvalue
    rcases Json.bareValue?_cases hvalue with h | ⟨b, h⟩ | ⟨number, h⟩ <;> cases h
  | quoted body =>
    rw [Written.value?_quoted] at hvalue
    obtain ⟨string, -, h⟩ := Option.map_eq_some_iff.1 hvalue
    cases h
  | array ws =>
    obtain ⟨below, values, -, -, h⟩ := Written.value?_array_iff.1 hvalue
    cases h
  | object ws => exact (parse_source_iff h (Written.proper_of_value? _ hvalue)).2 hvalue

theorem parse_eq_of_isSource_quotes :
    parse (String.ofList "module.exports = // data\n\x7ba: [1, '\\'',]\x7d;".toList) =
      .ok (.object [("a", .array [.number (.natural 1 (by decide)), .string "'"])]) := by
  have htokens : lexemes "\x7b\"a\":[1,\"'\"]\x7d".toList = [.mark '\x7b', .quoted ['a'], .mark ':',
      .mark '[', .bare ['1'], .mark ',', .quoted ['\x27'], .mark ']', .mark '\x7d'] := by
    decide +kernel
  have hname : Json.decode? ['a'] = some "a" := by decide +kernel
  have hmark : Json.decode? ['\x27'] = some "'" := by decide +kernel
  have hone : Json.bareValue? ['1'] = some (.number (.natural 1 (by decide))) := rfl
  have htext : Value.parse "\x7b\"a\":[1,\"'\"]\x7d" =
      .ok (.object [("a", .array [.number (.natural 1 (by decide)), .string "'"])]) := by
    refine Json.parse_eq_ok_iff.2
      ⟨.object [(['a'], .array [.bare ['1'], .quoted ['\x27']])], htokens, ?_⟩
    simp [Json.maxDepth, Written.value?, Written.members?, Written.items?, hname, hmark, hone,
      Members.insert]
  refine parse_eq_of_isSource htext ?_
  rw [htokens]
  have hspace : ∀ {p : Char → Bool}, p ' ' = true → Gap p [' '] := fun h => .blank h .nil
  have hcomment : Gap isSpace (' ' :: '/' :: '/' :: " data".toList ++ ['\n']) :=
    .blank (by decide) (.line (by decide) .nil)
  have hitem : Loose false [.quoted ['\x27'], .mark ']', .mark '\x7d'] " '\\'',]\x7d".toList :=
    .gap (hspace (by decide))
      (.single (.apostrophe .nil) (.trailingComma (by decide) (.mark (.mark .stop))))
  have hlist : Loose true [.mark ':', .mark '[', .bare ['1'], .mark ',', .quoted ['\x27'],
      .mark ']', .mark '\x7d'] ": [1, '\\'',]\x7d".toList :=
    .mark (.gap (hspace (by decide)) (.mark (.bare (.mark hitem))))
  have hkey : IsWord ['a'] := ⟨by decide, by simp⟩
  exact .intro .nil (hspace (by decide)) (.gap hcomment (.mark (.key hkey hlist)))
    (.semicolon .nil .nil .none)

end ProjectSetup.ConfigModule
