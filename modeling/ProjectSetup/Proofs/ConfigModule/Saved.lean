import ProjectSetup.Proofs.ConfigModule.Source

/-!
# Saved config modules

A printed value is a loose spelling of its tokens, the one that has a gap in front of every item
and member, so that a rendered module is read by the loader as any other source.

* `parse_render_iff`: when a module that was saved reads back, and as what.
* `parse_render`: a module without floating-point numbers reads back as what was saved.
-/

namespace ProjectSetup.ConfigModule

open Json (Lexeme Members Value Written isSpace)

theorem gap_newLine (level : Nat) : Gap isSpace (Value.newLine level) := by
  refine .blank (by decide) ?_
  induction 2 * level with
  | zero => exact .nil
  | succ n ih => exact .blank (by decide) ih

theorem loose_stringText {ended : Bool} {tokens : List Lexeme} {text : List Char} (string : String)
    (h : Loose true tokens text) :
    Loose ended (.quoted (string.toList.flatMap Json.escaped) :: tokens)
      (Json.stringText string ++ text) := by
  rw [Json.stringText, List.append_assoc]
  exact .double h

theorem loose_member {ended : Bool} {tokens : List Lexeme} {text : List Char} (key : String)
    (level : Nat) (h : Loose false tokens text) :
    Loose ended (.quoted (key.toList.flatMap Json.escaped) :: .mark ':' :: tokens)
      (Value.newLine level ++ (Json.stringText key ++ ':' :: ' ' :: text)) := by
  have hspace : Gap isSpace [' '] := .blank (by decide) .nil
  exact .gap (gap_newLine level) (loose_stringText key (.mark (.gap hspace h)))

mutual

/-- A printed value is a loose spelling of its tokens. -/
theorem loose_prettyText : ∀ (value : Value) {ended : Bool} {tokens : List Lexeme}
    {text : List Char} (level : Nat), Loose true tokens text →
    Loose ended ((Written.ofValue value).lexemes ++ tokens) (value.prettyText level ++ text)
  | .null, _, _, _, _, h => .bare h
  | .bool true, _, _, _, _, h => .bare h
  | .bool false, _, _, _, _, h => .bare h
  | .number _, _, _, _, _, h => .bare h
  | .string string, _, _, _, _, h => loose_stringText string h
  | .array [], _, _, _, _, h => .mark (.mark h)
  | .array (item :: rest), ended, tokens, text, level, h => by
    have hclose : Loose true (.mark ']' :: tokens) (Value.newLine level ++ (']' :: text)) :=
      .gap (gap_newLine level) (.mark h)
    have hitems : Loose false _ _ :=
      loose_prettyItems (item :: rest) (level + 1) (by simp) hclose
    have hopen : Loose ended (.mark '[' :: _) ('[' :: _) := .mark hitems
    simpa [Written.ofValue, Written.ofItems, Written.lexemes, Value.prettyText] using hopen
  | .object [], _, _, _, _, h => .mark (.mark h)
  | .object ((key, value) :: rest), ended, tokens, text, level, h => by
    have hclose : Loose true (.mark '\x7d' :: tokens) (Value.newLine level ++ ('\x7d' :: text)) :=
      .gap (gap_newLine level) (.mark h)
    have hmembers : Loose false _ _ :=
      loose_prettyMembers ((key, value) :: rest) (level + 1) (by simp) hclose
    have hopen : Loose ended (.mark '\x7b' :: _) ('\x7b' :: _) := .mark hmembers
    simpa [Written.ofValue, Written.ofMembers, Written.lexemes, Value.prettyText] using hopen

theorem loose_prettyItems : ∀ (items : List Value) {ended : Bool} {tokens : List Lexeme}
    {text : List Char} (level : Nat), items ≠ [] → Loose true (.mark ']' :: tokens) text →
    Loose ended ((Written.array (Written.ofItems items)).lexemes.tail ++ tokens)
      (Value.prettyItems level items ++ text)
  | [], _, _, _, _, hne, _ => absurd rfl hne
  | [item], ended, tokens, text, level, _, h => by
    have hitem : Loose ended _ _ := loose_prettyText item level h
    have hline : Loose ended _ _ := .gap (gap_newLine level) hitem
    simpa [Value.prettyItems, Written.ofItems, Written.lexemes, Written.itemLexemes] using hline
  | item :: next :: rest, ended, tokens, text, level, _, h => by
    have hrest : Loose false _ _ := loose_prettyItems (next :: rest) level (by simp) h
    have hcomma : Loose true (.mark ',' :: _) (',' :: _) := .mark hrest
    have hitem : Loose ended _ _ := loose_prettyText item level hcomma
    have hline : Loose ended _ _ := .gap (gap_newLine level) hitem
    simpa [Value.prettyItems, Written.ofItems, Written.lexemes, Written.itemLexemes] using hline

theorem loose_prettyMembers : ∀ (members : List (String × Value)) {ended : Bool}
    {tokens : List Lexeme} {text : List Char} (level : Nat), members ≠ [] →
    Loose true (.mark '\x7d' :: tokens) text →
    Loose ended ((Written.object (Written.ofMembers members)).lexemes.tail ++ tokens)
      (Value.prettyMembers level members ++ text)
  | [], _, _, _, _, hne, _ => absurd rfl hne
  | [(key, value)], ended, tokens, text, level, _, h => by
    have hvalue : Loose false _ _ := loose_prettyText value level h
    have hline : Loose ended _ _ := loose_member key level hvalue
    simpa [Value.prettyMembers, Written.ofMembers, Written.lexemes, Written.memberLexemes] using
      hline
  | (key, value) :: next :: rest, ended, tokens, text, level, _, h => by
    have hrest : Loose false _ _ := loose_prettyMembers (next :: rest) level (by simp) h
    have hcomma : Loose true (.mark ',' :: _) (',' :: _) := .mark hrest
    have hvalue : Loose false _ _ := loose_prettyText value level hcomma
    have hline : Loose ended _ _ := loose_member key level hvalue
    simpa [Value.prettyMembers, Written.ofMembers, Written.lexemes, Written.memberLexemes] using
      hline

end

/-! ### What was saved -/

theorem isSource_render (value : Value) :
    IsSource (Written.ofValue value).lexemes (render value).toList := by
  have hspace : ∀ {p : Char → Bool}, p ' ' = true → Gap p [' '] := fun h => .blank h .nil
  have hline : Gap Text.isBlank ['\n'] := .blank (by decide) .nil
  have hvalue : Loose false ((Written.ofValue value).lexemes ++ [])
      ([' '] ++ (value.prettyText 0 ++ [])) :=
    .gap (hspace (by decide)) (loose_prettyText value 0 .stop)
  rw [List.append_nil, List.append_nil] at hvalue
  have hsource := IsSource.intro .nil (hspace (by decide)) hvalue (.plain hline .none)
  simpa [render] using hsource

/-- **When a saved module reads back**, and as what: not too deep, and with every floating-point
number that is printed one that is read. -/
theorem parse_render_iff {members : Members} {value : Value}
    (hkeys : (Value.object members).WellKeyed) :
    parse (render (.object members)) = .ok value ↔
      (Value.object members).nesting ≤ Json.maxDepth ∧
        (Value.object members).EveryFloat Json.IsReread ∧
        (Value.object members).mapFloats Json.reread = value := by
  have hsource := isSource_render (.object members)
  rw [Written.ofValue] at hsource
  rw [← Json.value?_ofValue_iff _ hkeys, ← String.ofList_toList (s := render (.object members))]
  exact parse_source_iff hsource (Json.proper_ofValue (.object members))

/-- **A saved module reads back** as what was saved, in the same order, whatever is in its keys and
strings: an object has each key once, and the loader reads integers and up to 127 levels. -/
theorem parse_render {members : Members} (hkeys : (Value.object members).WellKeyed)
    (hint : (Value.object members).Integral) (hnest : (Value.object members).nesting ≤ 127) :
    parse (render (.object members)) = .ok (.object members) :=
  (parse_render_iff hkeys).2
    ⟨hnest, Value.EveryFloat.mono (fun _ h => h.elim) _ hint,
      Value.mapFloats_of_integral _ _ hint⟩

theorem parse_render_escapes :
    parse (render (.object [("//", .string "/*`\\\",]\n"), ("", .array [])])) =
      .ok (.object [("//", .string "/*`\\\",]\n"), ("", .array [])]) :=
  parse_render ⟨by decide, trivial, trivial, trivial⟩ ⟨trivial, trivial, trivial⟩ (by decide)

end ProjectSetup.ConfigModule
