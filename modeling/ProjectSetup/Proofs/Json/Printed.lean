import ProjectSetup.Proofs.Json.Shape
import ProjectSetup.Proofs.Json.Spelled
import ProjectSetup.Proofs.Json.Written

/-!
# What a printed value stands for

`Written.ofValue` is a value as it is printed, whatever the spaces between its tokens.  It stands
for the value again, up to its floating-point numbers, which are those that the printed ones are
read as.

* `value?_ofValue_iff`: when a printed value can be read, and as what.
* `value?_ofValue`: a value without floating-point numbers reads back as itself.
* `shape_of_value?`: what every value that was read is like.
-/

namespace ProjectSetup.Json

namespace Written

mutual

/-- A value as it is printed. -/
def ofValue : Value → Written
  | .null => bare "null".toList
  | .bool true => bare "true".toList
  | .bool false => bare "false".toList
  | .number number => bare number.text
  | .string text => quoted (text.toList.flatMap escaped)
  | .array items => array (ofItems items)
  | .object members => object (ofMembers members)

/-- The items as they are printed. -/
def ofItems : List Value → List Written
  | [] => []
  | item :: rest => ofValue item :: ofItems rest

/-- The members as they are printed. -/
def ofMembers : List (String × Value) → List (List Char × Written)
  | [] => []
  | (key, value) :: rest => (key.toList.flatMap escaped, ofValue value) :: ofMembers rest

end

end Written

/-- A printed floating-point number is read. -/
def IsReread (x : Binary64) : Prop :=
  (reread? x).isSome = true

/-- The floating-point number that a printed one is read as. -/
def reread (x : Binary64) : Binary64 :=
  (reread? x).getD .zero

open Written

theorem value?_floating_iff {depth : Nat} {x : Binary64} {value : Value} :
    (bare (Number.floatText x)).value? depth = some value ↔
      IsReread x ∧ .number (.floating (reread x)) = value := by
  rw [value?_bare, bareValue?_floatText, IsReread, reread]
  cases reread? x <;> simp

/-! ### Printed values -/

mutual

/-- **When a printed value can be read**, and as what. -/
theorem value?_ofValue_iff : ∀ (value : Value) {depth : Nat} {found : Value}, value.WellKeyed →
    ((ofValue value).value? depth = some found ↔
      value.nesting ≤ depth ∧ value.EveryFloat IsReread ∧ value.mapFloats reread = found)
  | .null, depth, found, _ => by
    have hword : bareValue? ['n', 'u', 'l', 'l'] = some .null := rfl
    simp [ofValue, value?_bare, hword, Value.nesting, Value.EveryFloat, Value.mapFloats]
  | .bool true, depth, found, _ => by
    have hword : bareValue? ['t', 'r', 'u', 'e'] = some (.bool true) := rfl
    simp [ofValue, value?_bare, hword, Value.nesting, Value.EveryFloat, Value.mapFloats]
  | .bool false, depth, found, _ => by
    have hword : bareValue? ['f', 'a', 'l', 's', 'e'] = some (.bool false) := rfl
    simp [ofValue, value?_bare, hword, Value.nesting, Value.EveryFloat, Value.mapFloats]
  | .number (.natural n h), depth, found, _ => by
    simp [ofValue, value?_bare, bareValue?_text_natural, Value.nesting, Value.EveryFloat,
      Value.mapFloats]
  | .number (.negative n h), depth, found, _ => by
    simp [ofValue, value?_bare, bareValue?_text_negative, Value.nesting, Value.EveryFloat,
      Value.mapFloats]
  | .number (.floating x), depth, found, _ => by
    simp [ofValue, Number.text, value?_floating_iff, Value.nesting, Value.EveryFloat,
      Value.mapFloats]
  | .string text, depth, found, _ => by
    simp [ofValue, value?_quoted, decode?_escaped, Value.nesting, Value.EveryFloat,
      Value.mapFloats]
  | .array items, depth, found, h => by
    rw [ofValue, value?_array_iff, Value.nesting, Value.EveryFloat, Value.mapFloats]
    constructor
    · rintro ⟨below, values, rfl, hitems, rfl⟩
      obtain ⟨hnest, hfloats, rfl⟩ := (items?_ofItems_iff items h).1 hitems
      exact ⟨by omega, hfloats, rfl⟩
    · rintro ⟨hnest, hfloats, rfl⟩
      obtain ⟨below, rfl⟩ : ∃ below, depth = below + 1 := ⟨depth - 1, by omega⟩
      exact ⟨below, _, rfl, (items?_ofItems_iff items h).2 ⟨by omega, hfloats, rfl⟩, rfl⟩
  | .object members, depth, found, h => by
    rw [ofValue, value?_object_iff, Value.nesting, Value.EveryFloat, Value.mapFloats]
    have hfresh : (Members.keys [] ++ Members.keys members).Nodup := h.1
    have hmembers : ∀ below after, members? below [] (ofMembers members) = some after ↔ _ :=
      fun below after => members?_ofMembers_iff members h.2 hfresh
    constructor
    · rintro ⟨below, after, rfl, hafter, rfl⟩
      obtain ⟨hnest, hfloats, rfl⟩ := (hmembers below after).1 hafter
      exact ⟨by omega, hfloats, rfl⟩
    · rintro ⟨hnest, hfloats, rfl⟩
      obtain ⟨below, rfl⟩ : ∃ below, depth = below + 1 := ⟨depth - 1, by omega⟩
      exact ⟨below, _, rfl, (hmembers below _).2 ⟨by omega, hfloats, rfl⟩, rfl⟩

theorem items?_ofItems_iff : ∀ (items : List Value) {depth : Nat} {found : List Value},
    Value.ItemsWellKeyed items →
    (items? depth (ofItems items) = some found ↔
      Value.itemsNesting items ≤ depth ∧ Value.ItemsEveryFloat IsReread items ∧
        Value.itemsMapFloats reread items = found)
  | [], depth, found, _ => by
    simp [ofItems, items?, Value.itemsNesting, Value.ItemsEveryFloat, Value.itemsMapFloats]
  | item :: rest, depth, found, h => by
    have hitem : ∀ v, (ofValue item).value? depth = some v ↔ _ :=
      fun v => value?_ofValue_iff item h.1
    have hrest : ∀ vs, items? depth (ofItems rest) = some vs ↔ _ :=
      fun vs => items?_ofItems_iff rest h.2
    simp only [ofItems, items?, bind, Option.bind_eq_some_iff, hitem, hrest, Value.itemsNesting,
      Value.ItemsEveryFloat, Value.itemsMapFloats, Nat.max_le, Option.some.injEq]
    constructor
    · rintro ⟨v, ⟨hn, hf, rfl⟩, vs, ⟨hns, hfs, rfl⟩, rfl⟩
      exact ⟨⟨hn, hns⟩, ⟨hf, hfs⟩, rfl⟩
    · rintro ⟨⟨hn, hns⟩, ⟨hf, hfs⟩, rfl⟩
      exact ⟨_, ⟨hn, hf, rfl⟩, _, ⟨hns, hfs, rfl⟩, rfl⟩

theorem members?_ofMembers_iff : ∀ (members : List (String × Value)) {depth : Nat}
    {before found : Members}, Value.MembersWellKeyed members →
    (before.keys ++ Members.keys members).Nodup →
    (members? depth before (ofMembers members) = some found ↔
      Value.membersNesting members ≤ depth ∧ Value.MembersEveryFloat IsReread members ∧
        before ++ Value.membersMapFloats reread members = found)
  | [], depth, before, found, _, _ => by
    simp [ofMembers, members?, Value.membersNesting, Value.MembersEveryFloat,
      Value.membersMapFloats]
  | (key, value) :: rest, depth, before, found, h, hkeys => by
    have hkey : key ∉ before.keys := by
      intro hmem
      rw [List.nodup_append] at hkeys
      exact hkeys.2.2 key hmem key (by simp [Members.keys]) rfl
    have hvalue : ∀ v, (ofValue value).value? depth = some v ↔ _ :=
      fun v => value?_ofValue_iff value h.1
    have hfresh : ∀ v, (Members.keys (before ++ [(key, v)]) ++ Members.keys rest).Nodup :=
      fun v => by simpa [Members.keys] using hkeys
    have hrest : ∀ v after,
        members? depth (before ++ [(key, v)]) (ofMembers rest) = some after ↔ _ :=
      fun v after => members?_ofMembers_iff rest h.2 (hfresh v)
    simp only [ofMembers, members?, bind, Option.bind_eq_some_iff, decode?_escaped, hvalue,
      Option.some.injEq, Value.membersNesting, Value.MembersEveryFloat, Value.membersMapFloats,
      Nat.max_le]
    constructor
    · rintro ⟨_, rfl, v, ⟨hn, hf, rfl⟩, hafter⟩
      rw [Members.insert_of_not_mem hkey, hrest] at hafter
      obtain ⟨hns, hfs, rfl⟩ := hafter
      exact ⟨⟨hn, hns⟩, ⟨hf, hfs⟩, by simp⟩
    · rintro ⟨⟨hn, hns⟩, ⟨hf, hfs⟩, rfl⟩
      refine ⟨key, rfl, _, ⟨hn, hf, rfl⟩, ?_⟩
      rw [Members.insert_of_not_mem hkey, hrest]
      exact ⟨hns, hfs, by simp⟩

end

/-- **A printed value reads back as itself** if all its numbers are integers. -/
theorem value?_ofValue {value : Value} {depth : Nat} (hkeys : value.WellKeyed)
    (hint : value.Integral) (hnest : value.nesting ≤ depth) :
    (ofValue value).value? depth = some value :=
  (value?_ofValue_iff value hkeys).2
    ⟨hnest, Value.EveryFloat.mono (fun _ h => h.elim) value hint,
      Value.mapFloats_of_integral reread value hint⟩

mutual

theorem proper_ofValue : ∀ value : Value, (ofValue value).Proper
  | .null => ⟨by decide, List.all_eq_true.1 (by decide)⟩
  | .bool true => ⟨by decide, List.all_eq_true.1 (by decide)⟩
  | .bool false => ⟨by decide, List.all_eq_true.1 (by decide)⟩
  | .number number => isBare_text number
  | .string text => isBody_escaped _
  | .array items => itemsProper_ofItems items
  | .object members => membersProper_ofMembers members

theorem itemsProper_ofItems : ∀ items : List Value, ItemsProper (ofItems items)
  | [] => trivial
  | item :: rest => ⟨proper_ofValue item, itemsProper_ofItems rest⟩

theorem membersProper_ofMembers : ∀ members : List (String × Value),
    MembersProper (ofMembers members)
  | [] => trivial
  | (_, value) :: rest =>
    ⟨isBody_escaped _, proper_ofValue value, membersProper_ofMembers rest⟩

end

/-! ### Values that were read -/

theorem bareValue?_cases {word : List Char} {value : Value} (h : bareValue? word = some value) :
    value = .null ∨ (∃ b, value = .bool b) ∨ ∃ number, value = .number number := by
  cases word with
  | nil => cases h
  | cons c word =>
    simp only [bareValue?] at h
    split_ifs at h with hq
    split at h
    · next found hfound =>
      obtain rfl := Option.some.inj h
      unfold readScalar at hfound
      split_ifs at hfound with hn ht hf hm hd hs
      · exact .inl (keyword_ok hfound).1.symm
      · exact .inr (.inl ⟨true, (keyword_ok hfound).1.symm⟩)
      · exact .inr (.inl ⟨false, (keyword_ok hfound).1.symm⟩)
      · obtain ⟨number, rfl, -⟩ := number_ok hfound
        exact .inr (.inr ⟨number, rfl⟩)
      · obtain ⟨number, rfl, -⟩ := number_ok hfound
        exact .inr (.inr ⟨number, rfl⟩)
      · exact absurd (beq_iff_eq.1 hs) hq
    · cases h

theorem bareValue?_shape {word : List Char} {value : Value} (h : bareValue? word = some value) :
    value.nesting = 0 ∧ value.WellKeyed := by
  rcases bareValue?_cases h with rfl | ⟨b, rfl⟩ | ⟨number, rfl⟩ <;>
    simp [Value.nesting, Value.WellKeyed]

mutual

theorem shape_of_value? : ∀ (w : Written) {depth : Nat} {value : Value},
    w.value? depth = some value → value.nesting ≤ depth ∧ value.WellKeyed
  | bare word, depth, value, h => by
    rw [value?_bare] at h
    obtain ⟨hn, hk⟩ := bareValue?_shape h
    exact ⟨by omega, hk⟩
  | quoted body, depth, value, h => by
    rw [value?_quoted] at h
    obtain ⟨string, -, rfl⟩ := Option.map_eq_some_iff.1 h
    simp [Value.nesting, Value.WellKeyed]
  | array ws, depth, value, h => by
    obtain ⟨below, values, rfl, hitems, rfl⟩ := value?_array_iff.1 h
    obtain ⟨hn, hk⟩ := shape_of_items? ws hitems
    exact ⟨by rw [Value.nesting]; omega, hk⟩
  | object ws, depth, value, h => by
    obtain ⟨below, members, rfl, hmembers, rfl⟩ := value?_object_iff.1 h
    have hfresh : (Members.keys []).Nodup := List.nodup_nil
    obtain ⟨hd, hn, hk⟩ := shape_of_members? ws hfresh (Nat.zero_le below) trivial hmembers
    exact ⟨by rw [Value.nesting]; omega, hd, hk⟩

theorem shape_of_items? : ∀ (ws : List Written) {depth : Nat} {values : List Value},
    items? depth ws = some values →
    Value.itemsNesting values ≤ depth ∧ Value.ItemsWellKeyed values
  | [], depth, values, h => by
    obtain rfl : [] = values := by simpa [items?] using h
    exact ⟨Nat.zero_le depth, trivial⟩
  | w :: ws, depth, values, h => by
    obtain ⟨v, vs, hv, hvs, rfl⟩ := items?_cons h
    obtain ⟨hn, hk⟩ := shape_of_value? w hv
    obtain ⟨hns, hks⟩ := shape_of_items? ws hvs
    exact ⟨by rw [Value.itemsNesting]; omega, hk, hks⟩

theorem shape_of_members? : ∀ (ws : List (List Char × Written)) {depth : Nat}
    {before after : Members}, before.keys.Nodup → Value.membersNesting before ≤ depth →
    Value.MembersWellKeyed before → members? depth before ws = some after →
    after.keys.Nodup ∧ Value.membersNesting after ≤ depth ∧ Value.MembersWellKeyed after
  | [], depth, before, after, hd, hn, hk, h => by
    obtain rfl : before = after := by simpa [members?] using h
    exact ⟨hd, hn, hk⟩
  | (body, w) :: ws, depth, before, after, hd, hn, hk, h => by
    obtain ⟨key, v, -, hv, hrest⟩ := members?_cons h
    obtain ⟨hvn, hvk⟩ := shape_of_value? w hv
    exact shape_of_members? ws (Members.nodup_keys_insert hd)
      (Value.membersNesting_insert_le hn hvn) (Value.membersWellKeyed_insert hk hvk) hrest

end

end ProjectSetup.Json
