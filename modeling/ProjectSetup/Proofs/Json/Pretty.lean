import ProjectSetup.Json.Printer
import ProjectSetup.Proofs.Json.Printed
import ProjectSetup.Proofs.Json.Reading

/-!
# Reading a printed value

The tokens of a value that is printed on one line or on several lines are those of the value,
whatever its level.  So the reader makes of a printed text what the value stands for.

* `lexemes_prettyText`, `lexemes_compactText`: the tokens of a printed value.
* `parse_prettyText`: a value without floating-point numbers that is printed reads back as itself.
-/

namespace ProjectSetup.Json

open Written (ofValue ofItems ofMembers)

theorem lexemes_word {word text : List Char} (hne : word ≠ [])
    (hword : ∀ c ∈ word, isBare c = true) (htext : Stops text) :
    lexemes (word ++ text) = .bare word :: lexemes text := by
  obtain ⟨c, word, rfl⟩ := List.exists_cons_of_ne_nil hne
  exact lexemes_bare (hword c List.mem_cons_self)
    (fun d hd => hword d (List.mem_cons_of_mem _ hd)) htext

theorem lexemes_keyword (word : String) {text : List Char} (hne : word.toList ≠ [])
    (hword : word.toList.all isBare = true) (htext : Stops text) :
    lexemes (word.toList ++ text) = .bare word.toList :: lexemes text :=
  lexemes_word hne (List.all_eq_true.1 hword) htext

theorem lexemes_stringText (string : String) (text : List Char) :
    lexemes (stringText string ++ text) =
      .quoted (string.toList.flatMap escaped) :: lexemes text := by
  have hcut := cutString?_of_isBody (isBody_escaped string.toList) text
  rw [stringText, List.cons_append, List.cons_append, List.append_assoc, List.singleton_append]
  exact lexemes_quote hcut

theorem isSpace_of_mem_newLine {level : Nat} : ∀ c ∈ Value.newLine level, isSpace c = true := by
  intro c hc
  rcases List.mem_cons.1 hc with rfl | hc
  · decide
  · obtain rfl := List.eq_of_mem_replicate hc
    decide

theorem lexemes_newLine (level : Nat) (text : List Char) :
    lexemes (Value.newLine level ++ text) = lexemes text :=
  lexemes_append_of_spaces isSpace_of_mem_newLine

theorem stops_newLine (level : Nat) (text : List Char) : Stops (Value.newLine level ++ text) := by
  intro c hc
  obtain rfl : '\n' = c := by simpa [Value.newLine] using hc
  decide

theorem stops_bracket {c : Char} (hc : c ∈ ['[', ']', '\x7b', '\x7d']) (text : List Char) :
    Stops (c :: text) := by
  intro d hd
  obtain rfl : c = d := by simpa using hd
  simp only [List.mem_cons, List.not_mem_nil, or_false] at hc
  rcases hc with rfl | rfl | rfl | rfl <;> decide

theorem lexemes_bracket {c : Char} (hc : c ∈ ['[', ']', '\x7b', '\x7d']) (text : List Char) :
    lexemes (c :: text) = .mark c :: lexemes text := by
  simp only [List.mem_cons, List.not_mem_nil, or_false] at hc
  rcases hc with rfl | rfl | rfl | rfl <;> exact lexemes_mark (by decide) (by decide) (by decide)

theorem lexemes_close {c : Char} (hc : c = ']' ∨ c = '\x7d') (level : Nat) (text : List Char) :
    lexemes (Value.newLine level ++ c :: text) = .mark c :: lexemes text := by
  rw [lexemes_newLine]
  rcases hc with rfl | rfl <;> exact lexemes_bracket (by simp) text

theorem lexemes_member (key : String) (level : Nat) (text : List Char) :
    lexemes (Value.newLine level ++ (stringText key ++ ':' :: ' ' :: text)) =
      .quoted (key.toList.flatMap escaped) :: .mark ':' :: lexemes text := by
  rw [lexemes_newLine, lexemes_stringText, lexemes_mark (by decide) (by decide) (by decide),
    lexemes_space (by decide)]

theorem lexemes_comma (text : List Char) : lexemes (',' :: text) = .mark ',' :: lexemes text :=
  lexemes_mark (by decide) (by decide) (by decide)

theorem stops_comma (text : List Char) : Stops (',' :: text) := by
  intro c hc
  obtain rfl : ',' = c := by simpa using hc
  decide

mutual

/-- **The tokens of a printed value**, in front of a text that no word goes on in. -/
theorem lexemes_prettyText : ∀ (value : Value) (level : Nat) {text : List Char}, Stops text →
    lexemes (value.prettyText level ++ text) = (ofValue value).lexemes ++ lexemes text
  | .null, _, _, h => lexemes_keyword "null" (by decide) (by decide) h
  | .bool true, _, _, h => lexemes_keyword "true" (by decide) (by decide) h
  | .bool false, _, _, h => lexemes_keyword "false" (by decide) (by decide) h
  | .number number, _, _, h => lexemes_word (isBare_text number).1 (isBare_text number).2 h
  | .string string, _, _, _ => lexemes_stringText string _
  | .array [], _, _, _ => by
    rw [Value.prettyText, List.cons_append, List.singleton_append, lexemes_bracket (by simp),
      lexemes_bracket (by simp)]
    rfl
  | .array (item :: rest), level, text, _ => by
    have hitems := lexemes_prettyItems (item :: rest) (level + 1) (by simp)
      (stops_newLine level (']' :: text)) (lexemes_close (.inl rfl) level text)
    simp [ofValue, ofItems, Written.lexemes, Value.prettyText, lexemes_bracket, hitems]
  | .object [], _, _, _ => by
    rw [Value.prettyText, List.cons_append, List.singleton_append, lexemes_bracket (by simp),
      lexemes_bracket (by simp)]
    rfl
  | .object ((key, value) :: rest), level, text, _ => by
    have hmembers := lexemes_prettyMembers ((key, value) :: rest) (level + 1) (by simp)
      (stops_newLine level ('\x7d' :: text)) (lexemes_close (.inr rfl) level text)
    simp [ofValue, ofMembers, Written.lexemes, Value.prettyText, lexemes_bracket, hmembers]

/-- The tokens of printed items, up to the bracket that closes the list. -/
theorem lexemes_prettyItems : ∀ (items : List Value) (level : Nat) {text : List Char}
    {back : List Lexeme}, items ≠ [] → Stops text → lexemes text = .mark ']' :: back →
    lexemes (Value.prettyItems level items ++ text) =
      (Written.array (ofItems items)).lexemes.tail ++ back
  | [], _, _, _, hne, _, _ => absurd rfl hne
  | [item], level, text, back, _, hstops, h => by
    have hitem := lexemes_prettyText item level hstops
    simpa [Value.prettyItems, lexemes_newLine, ofItems, Written.lexemes, Written.itemLexemes, h]
      using hitem
  | item :: next :: rest, level, text, back, _, hstops, h => by
    have hrest := lexemes_prettyItems (next :: rest) level (by simp) hstops h
    have hitem := lexemes_prettyText item level
      (stops_comma (Value.prettyItems level (next :: rest) ++ text))
    rw [lexemes_comma, hrest] at hitem
    simpa [Value.prettyItems, lexemes_newLine, ofItems, Written.lexemes, Written.itemLexemes]
      using hitem

/-- The tokens of printed members, up to the brace that closes the object. -/
theorem lexemes_prettyMembers : ∀ (members : List (String × Value)) (level : Nat)
    {text : List Char} {back : List Lexeme}, members ≠ [] → Stops text →
    lexemes text = .mark '\x7d' :: back →
    lexemes (Value.prettyMembers level members ++ text) =
      (Written.object (ofMembers members)).lexemes.tail ++ back
  | [], _, _, _, hne, _, _ => absurd rfl hne
  | [(key, value)], level, text, back, _, hstops, h => by
    have hvalue := lexemes_member key level (value.prettyText level ++ text)
    rw [lexemes_prettyText value level hstops, h] at hvalue
    simpa [Value.prettyMembers, ofMembers, Written.lexemes, Written.memberLexemes] using hvalue
  | (key, value) :: next :: rest, level, text, back, _, hstops, h => by
    have hrest := lexemes_prettyMembers (next :: rest) level (by simp) hstops h
    have hvalue := lexemes_member key level
      (value.prettyText level ++ ',' :: (Value.prettyMembers level (next :: rest) ++ text))
    rw [lexemes_prettyText value level (stops_comma _), lexemes_comma, hrest] at hvalue
    simpa [Value.prettyMembers, ofMembers, Written.lexemes, Written.memberLexemes] using hvalue

end

theorem lexemes_compactMember (key : String) (text : List Char) :
    lexemes (stringText key ++ ':' :: text) =
      .quoted (key.toList.flatMap escaped) :: .mark ':' :: lexemes text := by
  rw [lexemes_stringText, lexemes_mark (by decide) (by decide) (by decide)]

mutual

/-- **The tokens of a value that is printed on one line**, in front of a text that no word goes
on in. -/
theorem lexemes_compactText : ∀ (value : Value) {text : List Char}, Stops text →
    lexemes (value.compactText ++ text) = (ofValue value).lexemes ++ lexemes text
  | .null, _, h => lexemes_keyword "null" (by decide) (by decide) h
  | .bool true, _, h => lexemes_keyword "true" (by decide) (by decide) h
  | .bool false, _, h => lexemes_keyword "false" (by decide) (by decide) h
  | .number number, _, h => lexemes_word (isBare_text number).1 (isBare_text number).2 h
  | .string string, _, _ => lexemes_stringText string _
  | .array [], text, _ => by
    rw [Value.compactText, Value.compactItems, List.append_assoc, List.singleton_append,
      List.singleton_append, lexemes_bracket (by simp), lexemes_bracket (by simp)]
    rfl
  | .array (item :: rest), text, _ => by
    have hitems := lexemes_compactItems (item :: rest) (by simp) (stops_bracket (by simp) text)
      (lexemes_bracket (by simp) text)
    simp [ofValue, ofItems, Written.lexemes, Value.compactText, lexemes_bracket, hitems]
  | .object [], text, _ => by
    rw [Value.compactText, Value.compactMembers, List.append_assoc, List.singleton_append,
      List.singleton_append, lexemes_bracket (by simp), lexemes_bracket (by simp)]
    rfl
  | .object ((key, value) :: rest), text, _ => by
    have hmembers := lexemes_compactMembers ((key, value) :: rest) (by simp)
      (stops_bracket (by simp) text) (lexemes_bracket (by simp) text)
    simp [ofValue, ofMembers, Written.lexemes, Value.compactText, lexemes_bracket, hmembers]

/-- The tokens of items on one line, up to the bracket that closes the list. -/
theorem lexemes_compactItems : ∀ (items : List Value) {text : List Char} {back : List Lexeme},
    items ≠ [] → Stops text → lexemes text = .mark ']' :: back →
    lexemes (Value.compactItems items ++ text) =
      (Written.array (ofItems items)).lexemes.tail ++ back
  | [], _, _, hne, _, _ => absurd rfl hne
  | [item], text, back, _, hstops, h => by
    have hitem := lexemes_compactText item hstops
    simpa [Value.compactItems, ofItems, Written.lexemes, Written.itemLexemes, h] using hitem
  | item :: next :: rest, text, back, _, hstops, h => by
    have hrest := lexemes_compactItems (next :: rest) (by simp) hstops h
    have hitem := lexemes_compactText item
      (stops_comma (Value.compactItems (next :: rest) ++ text))
    rw [lexemes_comma, hrest] at hitem
    simpa [Value.compactItems, ofItems, Written.lexemes, Written.itemLexemes] using hitem

/-- The tokens of members on one line, up to the brace that closes the object. -/
theorem lexemes_compactMembers : ∀ (members : List (String × Value)) {text : List Char}
    {back : List Lexeme}, members ≠ [] → Stops text → lexemes text = .mark '\x7d' :: back →
    lexemes (Value.compactMembers members ++ text) =
      (Written.object (ofMembers members)).lexemes.tail ++ back
  | [], _, _, hne, _, _ => absurd rfl hne
  | [(key, value)], text, back, _, hstops, h => by
    have hvalue := lexemes_compactMember key (value.compactText ++ text)
    rw [lexemes_compactText value hstops, h] at hvalue
    simpa [Value.compactMembers, ofMembers, Written.lexemes, Written.memberLexemes] using hvalue
  | (key, value) :: next :: rest, text, back, _, hstops, h => by
    have hrest := lexemes_compactMembers (next :: rest) (by simp) hstops h
    have hvalue := lexemes_compactMember key
      (value.compactText ++ ',' :: (Value.compactMembers (next :: rest) ++ text))
    rw [lexemes_compactText value (stops_comma _), lexemes_comma, hrest] at hvalue
    simpa [Value.compactMembers, ofMembers, Written.lexemes, Written.memberLexemes] using hvalue

end

theorem lexemes_compact (value : Value) :
    lexemes value.compact.toList = (ofValue value).lexemes := by
  have h := lexemes_compactText value stops_nil
  simpa [Value.compact, lexemes_nil] using h

/-- A value has the same tokens on one line and on several. -/
theorem lexemes_pretty (value : Value) :
    lexemes value.pretty.toList = lexemes value.compact.toList := by
  have h := lexemes_prettyText value 0 stops_nil
  rw [lexemes_compact]
  simpa [Value.pretty, lexemes_nil] using h

/-- **A printed value reads back as itself**, with a line feed behind it: an object has each key
once, all numbers are integers, and it is not nested too deep. -/
theorem parse_prettyText {value : Value} (hkeys : value.WellKeyed) (hint : value.Integral)
    (hnest : value.nesting ≤ maxDepth) :
    Value.parse (String.ofList (value.prettyText 0 ++ ['\n'])) = .ok value := by
  have hline : Stops ['\n'] := by
    intro c hc
    obtain rfl : '\n' = c := by simpa using hc
    decide
  refine parse_eq_ok_iff.2 ⟨ofValue value, ?_, value?_ofValue hkeys hint hnest⟩
  rw [String.toList_ofList, lexemes_prettyText value 0 hline, lexemes_space (by decide), lexemes_nil,
    List.append_nil]

end ProjectSetup.Json
