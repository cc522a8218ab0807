import ProjectSetup.Proofs.ConfigModule.Source
import ProjectSetup.Proofs.Text.Blank

/-!
# The exported value

A module written as JSON is blank, or it consists of the words of the export with an equals sign, of
the tokens of an object, and of semicolons, with blank characters around each of these.  Nothing
else is read.

* `parseJson_eq_ok_iff`: what is read of a module written as JSON, whatever the text.
-/

namespace ProjectSetup.ConfigModule

open Json (Value Written lexemes)

/-- What the export of a module is cut out of. -/
theorem exists_of_exported? {text body : List Char} (h : exported? text = some body) :
    ∃ between front semicolons tail, (∀ c ∈ between, Text.isBlank c = true) ∧
      (∀ c ∈ front, Text.isBlank c = true) ∧ (∀ c ∈ semicolons, c = ';') ∧
      (∀ c ∈ tail, Text.isBlank c = true) ∧
      text = exportWords ++ between ++ '=' :: (front ++ body ++ semicolons ++ tail) := by
  simp only [exported?, bind, Option.bind_eq_some_iff] at h
  obtain ⟨rest, hrest, right, hright, h⟩ := h
  obtain rfl := Option.some.inj h
  obtain ⟨front, tail, hfront, htail, htrim⟩ := Text.exists_trim right
  obtain ⟨semicolons, hsemicolons, hdrop⟩ :=
    Text.exists_dropWhile_reverse (· == ';') (Text.trim right)
  refine ⟨Text.indent rest, front, semicolons, tail, fun c hc => List.mem_takeWhile_imp hc, hfront,
    fun c hc => by simpa using hsemicolons c hc, htail, ?_⟩
  have hbody : right = front ++ dropSemicolons (Text.trim right) ++ semicolons ++ tail := by
    rw [dropSemicolons, List.append_assoc front, ← hdrop]
    exact htrim
  rw [Text.eq_append_of_stripPrefix? hrest, ← hbody, List.append_assoc]
  congr 1
  have hequals := Text.eq_append_of_stripPrefix? hright
  rw [List.singleton_append] at hequals
  rw [← hequals, Text.indent_append_trimStart]

/-- What stands in front of the exported value. -/
inductive Head : List Char → Prop
  | intro {lead between front : List Char} : (∀ c ∈ lead, Text.isBlank c = true) →
    (∀ c ∈ between, Text.isBlank c = true) → (∀ c ∈ front, Text.isBlank c = true) →
    Head (lead ++ exportWords ++ between ++ '=' :: front)

/-- What stands behind the exported value. -/
inductive Foot : List Char → Prop
  | intro {semicolons tail : List Char} : (∀ c ∈ semicolons, c = ';') →
    (∀ c ∈ tail, Text.isBlank c = true) → Foot (semicolons ++ tail)

theorem eq_of_readExport {body : List Char} {value : Value} (h : readExport body = .ok value) :
    ∃ ws, lexemes body = (Written.object ws).lexemes ∧
      (Written.object ws).value? Json.maxDepth = some value := by
  rw [readExport] at h
  cases hparse : Value.parse (String.ofList body) with
  | error error =>
    rw [hparse] at h
    cases h
  | ok found =>
    rw [hparse] at h
    dsimp only at h
    split_ifs at h with hobject
    obtain rfl := Except.ok.inj h
    obtain ⟨w, hw, hvalue⟩ := Json.parse_eq_ok_iff.1 hparse
    rw [String.toList_ofList] at hw
    cases w with
    | object ws => exact ⟨ws, hw, hvalue⟩
    | bare word =>
      rw [Written.value?_bare] at hvalue
      rcases Json.bareValue?_cases hvalue with rfl | ⟨b, rfl⟩ | ⟨number, rfl⟩ <;> cases hobject
    | quoted string =>
      rw [Written.value?_quoted] at hvalue
      obtain ⟨string, -, rfl⟩ := Option.map_eq_some_iff.1 hvalue
      cases hobject
    | array ws =>
      obtain ⟨below, values, -, -, rfl⟩ := Written.value?_array_iff.1 hvalue
      cases hobject

/-- **What is read of a module written as JSON**: the empty object of a blank one, and else the
object between the words of the export and the semicolons. -/
theorem parseJson_eq_ok_iff {text : List Char} {value : Value} :
    parseJson text = .ok value ↔
      ((∀ c ∈ text, Text.isBlank c = true) ∧ value = .object []) ∨
      ∃ head core foot ws, text = head ++ core ++ foot ∧ Head head ∧ Foot foot ∧
        lexemes core = (Written.object ws).lexemes ∧
        (Written.object ws).value? Json.maxDepth = some value := by
  constructor
  · intro h
    rw [parseJson] at h
    split_ifs at h with htrim
    · exact .inl ⟨Text.trim_eq_nil_iff.1 htrim, (Except.ok.inj h).symm⟩
    · cases hexported : exported? (Text.trim text) with
      | none =>
        rw [hexported] at h
        cases h
      | some core =>
        rw [hexported] at h
        have hread : readExport core = .ok value := h
        obtain ⟨ws, hcore, hvalue⟩ := eq_of_readExport hread
        obtain ⟨between, front, semicolons, tail, hbetween, hfront, hsemicolons, htail, heq⟩ :=
          exists_of_exported? hexported
        obtain ⟨lead, tail', hlead, htail', htext⟩ := Text.exists_trim text
        refine .inr ⟨lead ++ exportWords ++ between ++ '=' :: front, core,
          semicolons ++ (tail ++ tail'), ws, ?_, .intro hlead hbetween hfront,
          .intro hsemicolons (List.forall_mem_append.2 ⟨htail, htail'⟩), hcore, hvalue⟩
        rw [htext, heq]
        simp
  · rintro (⟨hblank, rfl⟩ | ⟨head, core, foot, ws, rfl, ⟨hlead, hbetween, hfront⟩,
      ⟨hsemicolons, htail⟩, hcore, hvalue⟩)
    · rw [parseJson, if_pos (Text.trim_eq_nil_iff.2 hblank)]
    · obtain ⟨mid, hmid⟩ := object_ends ws
      obtain ⟨body, hbody, hread⟩ := parseJson_of_frame hlead hbetween hfront (hcore.trans hmid)
        (by decide) (by decide) hsemicolons htail
      rw [← (readExport_eq_ok_iff (hbody.trans hcore)).2 hvalue, ← hread]
      simp

end ProjectSetup.ConfigModule
