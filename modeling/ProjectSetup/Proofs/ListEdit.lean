import ProjectSetup.Proofs.ConfigField

/-!
# What the edits make of a list

Putting options to a tag changes the first entry with the tag, and putting in tags adds those that no
entry has; both leave all other entries and all other fields of the config as they are.

* `apply_upsertTagged_iff`: an edit that puts options to a tag ends in just the result that its rule
  gives, where the rule is told by the forms of the list and not by a search through it.
* `ensureEntries_adds`: an edit that puts in tags adds just those that are missing.
-/

namespace ProjectSetup

open Json (Value Members)

namespace ConfigEdit

variable {edit : ConfigEdit} {field tag : String} {options members next : Members}
  {missing : MissingField} {entry : Value} {items items' front back : List Value}
  {tags : List String}

/-! ### Options that are put to a tag -/

/-- **The rule for putting options to a tag**: an entry is added if none has the tag, and else the
first one that has it is changed.  If its tag is followed by an object, the options are put over that
object; any other entry is replaced. -/
inductive Merged (tag : String) (options : Members) : List Value → List Value → Prop where
  | appended {items : List Value} (hnone : ∀ item ∈ items, ¬ Tagged tag item) :
    Merged tag options items (items ++ [.array [.string tag, .object options]])
  | overlaid {front more back : List Value} {old new : Members}
      (hfront : ∀ item ∈ front, ¬ Tagged tag item) (hnew : Members.Overlaid old options new) :
    Merged tag options (front ++ .array (.string tag :: .object old :: more) :: back)
      (front ++ .array (.string tag :: .object new :: more) :: back)
  | replaced {front back : List Value} {entry : Value} (hfront : ∀ item ∈ front, ¬ Tagged tag item)
      (htag : Tagged tag entry)
      (hplain : ∀ old more, entry ≠ .array (.string tag :: .object old :: more)) :
    Merged tag options (front ++ entry :: back)
      (front ++ .array [.string tag, .object options] :: back)

theorem upsert_of_forall_not (h : ∀ item ∈ items, ¬ Tagged tag item) :
    upsert tag options items = items ++ [taggedEntry tag options] := by
  induction items with
  | nil => rfl
  | cons item rest ih =>
    obtain ⟨hitem, hrest⟩ := List.forall_mem_cons.1 h
    rw [upsert, if_neg (mt entryTag?_eq_some_iff.1 hitem), ih hrest, List.cons_append]

theorem upsert_append_cons (hfront : ∀ item ∈ front, ¬ Tagged tag item) (hentry : Tagged tag entry) :
    upsert tag options (front ++ entry :: back) =
      front ++ withOptions tag options entry :: back := by
  induction front with
  | nil => rw [List.nil_append, upsert, if_pos (entryTag?_eq_some_iff.2 hentry), List.nil_append]
  | cons item rest ih =>
    obtain ⟨hitem, hrest⟩ := List.forall_mem_cons.1 hfront
    rw [List.cons_append, upsert, if_neg (mt entryTag?_eq_some_iff.1 hitem), ih hrest,
      List.cons_append]

theorem withOptions_of_plain (htag : Tagged tag entry)
    (hplain : ∀ old more, entry ≠ .array (.string tag :: .object old :: more)) :
    withOptions tag options entry = taggedEntry tag options := by
  rcases withOptions_cases tag entry with ⟨first, old, more, rfl⟩ | ⟨-, hnew⟩
  · cases htag with
    | headed => exact absurd rfl (hplain old more)
  · exact hnew options

theorem nodup_keys_of_mem {old : Members} {more : List Value}
    (hitems : Value.ItemsWellKeyed items) (hmem : .array (.string tag :: .object old :: more) ∈ items) :
    old.keys.Nodup :=
  (Value.itemsWellKeyed_iff.1 hitems _ hmem).2.1.1

/-- The rule gives one list, which is the one that the edit computes. -/
theorem merged_iff (hoptions : options.keys.Nodup) (hitems : Value.ItemsWellKeyed items) :
    Merged tag options items items' ↔ upsert tag options items = items' := by
  constructor
  · intro h
    cases h with
    | appended hnone => exact upsert_of_forall_not hnone
    | @overlaid front more back old new hfront hnew =>
      have hold := nodup_keys_of_mem hitems (List.mem_append_right _ List.mem_cons_self)
      rw [upsert_append_cons hfront (.headed _), withOptions,
        (Members.overlaid_iff hold hoptions).1 hnew]
    | replaced hfront htag hplain =>
      rw [upsert_append_cons hfront htag, withOptions_of_plain htag hplain]
      rfl
  · rintro rfl
    rcases exists_first_tagged tag items with hnone | ⟨front, entry, back, rfl, hfront, htag⟩
    · rw [upsert_of_forall_not hnone]
      exact .appended hnone
    · rw [upsert_append_cons hfront htag]
      by_cases hobject : ∃ old more, entry = .array (.string tag :: .object old :: more)
      · obtain ⟨old, more, rfl⟩ := hobject
        have hold := nodup_keys_of_mem hitems (List.mem_append_right _ List.mem_cons_self)
        exact .overlaid hfront ((Members.overlaid_iff hold hoptions).2 rfl)
      · have hplain : ∀ old more, entry ≠ .array (.string tag :: .object old :: more) :=
          fun old more h => hobject ⟨old, more, h⟩
        rw [withOptions_of_plain htag hplain]
        exact .replaced hfront htag hplain

/-! ### How an edit ends -/

/-- **The rule for an edit that changes a list**: it is skipped if the config is no object, the list
is absent and is not to be created, or something else is in its place.  Otherwise the list is
changed in its place, or put to the end of the config; nothing is done if that config is equal to the
old one. -/
inductive Settles (edit : ConfigEdit) (change : List Value → List Value → Prop) :
    Value → Edited Value → Prop where
  | noObject {config : Value} (hconfig : ∀ members, config ≠ .object members) :
    Settles edit change config (.skipped (.configUnreadable .configNotObject))
  | noField {members : Members} (hget : Members.get? edit.field members = none)
      (hmissing : edit.missing = .skip) :
    Settles edit change (.object members) (.skipped (.configFieldMissing edit.field))
  | noList {members : Members} {value : Value}
      (hget : Members.get? edit.field members = some value) (hvalue : ∀ items, value ≠ .array items) :
    Settles edit change (.object members) (.skipped (.notAList edit.field))
  | inPlace {members next : Members} {items items' : List Value}
      (hlist : edit.HasList members items) (hchange : change items items')
      (hput : Members.Put edit.field (.array items') members next)
      (hequal : Value.Equal (.object members) (.object next)) :
    Settles edit change (.object members) .alreadyApplied
  | rewritten {members next : Members} {items items' : List Value}
      (hlist : edit.HasList members items) (hchange : change items items')
      (hput : Members.Put edit.field (.array items') members next)
      (hdiffers : ¬ Value.Equal (.object members) (.object next)) :
    Settles edit change (.object members) (.rewritten (.object next))

theorem list?_cases (edit : ConfigEdit) (members : Members) :
    (∃ items, edit.HasList members items) ∨
      (Members.get? edit.field members = none ∧ edit.missing = .skip) ∨
      ∃ value, Members.get? edit.field members = some value ∧ ∀ items, value ≠ .array items := by
  cases hget : Members.get? edit.field members with
  | none =>
    cases hmissing : edit.missing with
    | skip => exact .inr (.inl ⟨rfl, rfl⟩)
    | create => exact .inl ⟨[], .inr ⟨hget, hmissing, rfl⟩⟩
  | some value =>
    cases value with
    | array items => exact .inl ⟨items, .inl hget⟩
    | _ => exact .inr (.inr ⟨_, rfl, by simp⟩)

theorem apply_of_noField (hget : Members.get? edit.field members = none)
    (hmissing : edit.missing = .skip) :
    edit.apply (.object members) = .skipped (.configFieldMissing edit.field) :=
  apply_of_list? (by simp only [list?, hget, hmissing])

theorem apply_of_noList {value : Value} (hget : Members.get? edit.field members = some value)
    (hvalue : ∀ items, value ≠ .array items) :
    edit.apply (.object members) = .skipped (.notAList edit.field) := by
  refine apply_of_list? ?_
  simp only [list?, hget]

/-- An edit ends as its rule says if it changes the list as its rule says. -/
theorem apply_iff_settles {change : List Value → List Value → Prop} {config : Value}
    {result : Edited Value} (hedit : edit.WellKeyed) (hconfig : config.WellKeyed)
    (hchange : ∀ {items items'}, Value.ItemsWellKeyed items →
      (change items items' ↔ edit.change items = items')) :
    edit.apply config = result ↔ Settles edit change config result := by
  have hequal : ∀ {members items}, (Value.object members).WellKeyed → edit.HasList members items →
      (Value.same (.object members) (.object (edit.next members items)) = true ↔
        Value.Equal (.object members) (.object (edit.next members items))) :=
    fun hkeys hlist => Value.same_iff_equal hkeys (wellKeyed_next hedit hkeys hlist)
  constructor
  · rintro rfl
    rcases object_or_forall_ne config with ⟨members, rfl⟩ | hnot
    · rcases list?_cases edit members with ⟨items, hlist⟩ | ⟨hget, hmissing⟩ | ⟨value, hget, hvalue⟩
      · have hitems := (hchange (wellKeyed_of_hasList hconfig hlist)).2 rfl
        rw [apply_of_hasList hlist]
        split_ifs with hsame
        · exact .inPlace hlist hitems (Members.put_iff.2 rfl) ((hequal hconfig hlist).1 hsame)
        · exact .rewritten hlist hitems (Members.put_iff.2 rfl)
            fun h => hsame ((hequal hconfig hlist).2 h)
      · rw [apply_of_noField hget hmissing]
        exact .noField hget hmissing
      · rw [apply_of_noList hget hvalue]
        exact .noList hget hvalue
    · rw [apply_of_ne_object hnot]
      exact .noObject hnot
  · intro h
    cases h with
    | noObject hnot => exact apply_of_ne_object hnot
    | noField hget hmissing => exact apply_of_noField hget hmissing
    | noList hget hvalue => exact apply_of_noList hget hvalue
    | inPlace hlist hitems hput hsame =>
      obtain rfl := (hchange (wellKeyed_of_hasList hconfig hlist)).1 hitems
      obtain rfl := Members.put_iff.1 hput
      rw [apply_of_hasList hlist, if_pos ((hequal hconfig hlist).2 hsame)]
    | rewritten hlist hitems hput hdiffers =>
      obtain rfl := (hchange (wellKeyed_of_hasList hconfig hlist)).1 hitems
      obtain rfl := Members.put_iff.1 hput
      rw [apply_of_hasList hlist, if_neg fun h => hdiffers ((hequal hconfig hlist).1 h)]
      rfl

/-- **Putting options to a tag does exactly what its rules say.** -/
theorem apply_upsertTagged_iff {config : Value} {result : Edited Value}
    (hoptions : (Value.object options).WellKeyed) (hconfig : config.WellKeyed) :
    (upsertTagged field tag options missing).apply config = result ↔
      Settles (upsertTagged field tag options missing) (Merged tag options) config result :=
  apply_iff_settles hoptions hconfig fun hitems => merged_iff hoptions.1 hitems

/-- A config with two entries for a preset, the first of which has options and goes on. -/
def presetsConfig : Value :=
  .object [
    ("presets", .array [
      .string "@babel/preset-env",
      .array [.string "@vue/app",
        .object [("modules", .bool false), ("useBuiltIns", .string "usage")], .null],
      .string "@vue/app"]),
    ("comments", .bool true)]

theorem wellKeyed_presetsConfig : presetsConfig.WellKeyed := by
  simp [presetsConfig, Value.WellKeyed, Value.ItemsWellKeyed, Value.MembersWellKeyed, Members.keys]

theorem apply_upsertTagged_iff_presets :
    Settles
      (upsertTagged "presets" "@vue/app" [("polyfills", .array []), ("useBuiltIns", .string "entry")]
        .skip)
      (Merged "@vue/app" [("polyfills", .array []), ("useBuiltIns", .string "entry")])
      presetsConfig
      (.rewritten (.object [
        ("presets", .array [
          .string "@babel/preset-env",
          .array [.string "@vue/app",
            .object [("modules", .bool false), ("useBuiltIns", .string "entry"),
              ("polyfills", .array [])], .null],
          .string "@vue/app"]),
        ("comments", .bool true)])) := by
  have hoptions : (Value.object
      [("polyfills", .array []), ("useBuiltIns", .string "entry")]).WellKeyed := by
    simp [Value.WellKeyed, Value.ItemsWellKeyed, Value.MembersWellKeyed, Members.keys]
  exact (apply_upsertTagged_iff hoptions wellKeyed_presetsConfig).1 rfl

/-! ### Tags that are put in -/

theorem done_ensureEntries_iff (hkeys : (Value.object members).WellKeyed)
    (hlist : (ensureEntries field tags missing).HasList members items) :
    (ensureEntries field tags missing).Done members ↔
      field ∈ members.keys ∧ ∀ tag ∈ tags, ∃ item ∈ items, Tagged tag item := by
  rw [done_iff_of_hasList hlist, change_ensureEntries,
    done_ensure_iff (wellKeyed_of_hasList hkeys hlist)]
  simp only [hasTag_iff]
  rfl

/-- Putting in tags leaves the config with the list changed, also if there is nothing to do. -/
theorem after_ensureEntries (hkeys : (Value.object members).WellKeyed)
    (hlist : (ensureEntries field tags missing).HasList members items) :
    (ensureEntries field tags missing).after (.object members) =
      .object (Members.insert field (.array (tags.foldl ensure items)) members) := by
  rw [after]
  by_cases hdone : (ensureEntries field tags missing).Done members
  · obtain ⟨added, hadded, hfold⟩ := exists_missingTags tags items
    obtain ⟨hkey, htags⟩ := (done_ensureEntries_iff hkeys hlist).1 hdone
    have hget : Members.get? field members = some (.array items) :=
      hlist.resolve_right fun hnew => Members.get?_eq_none_iff.1 hnew.1 hkey
    rw [(apply_eq_alreadyApplied_iff hkeys hlist).2 hdone, hfold, hadded.eq_nil htags, List.map_nil,
      List.append_nil, Members.insert_of_get? hget]
    rfl
  · rw [apply_of_not_done hkeys hlist hdone]
    rfl

/-- **Putting in tags adds exactly those that are missing**, in the order in which they first come,
behind the old entries; nothing else is changed, and all tags have an entry then.  There is nothing
to do just if the list was there and all tags had an entry. -/
theorem ensureEntries_adds (hkeys : (Value.object members).WellKeyed)
    (hlist : (ensureEntries field tags missing).HasList members items) :
    ∃ added next, MissingTags tags items added ∧
      Members.Put field (.array (items ++ added.map .string)) members next ∧
      (ensureEntries field tags missing).after (.object members) = .object next ∧
      (∀ tag ∈ tags, ∃ item ∈ items ++ added.map .string, Tagged tag item) ∧
      ((ensureEntries field tags missing).apply (.object members) = .alreadyApplied ↔
        field ∈ members.keys ∧ ∀ tag ∈ tags, ∃ item ∈ items, Tagged tag item) ∧
      ((ensureEntries field tags missing).apply (.object members) ≠ .alreadyApplied →
        (ensureEntries field tags missing).apply (.object members) = .rewritten (.object next)) := by
  obtain ⟨added, hadded, hfold⟩ := exists_missingTags tags items
  refine ⟨added, _, hadded, Members.put_iff.2 rfl, ?_, hadded.exists_tagged, ?_, ?_⟩
  · rw [after_ensureEntries hkeys hlist, hfold]
  · rw [apply_eq_alreadyApplied_iff hkeys hlist, done_ensureEntries_iff hkeys hlist]
  · intro hnot
    rw [apply_of_not_done hkeys hlist (hnot ∘ (apply_eq_alreadyApplied_iff hkeys hlist).2), next,
      change_ensureEntries, hfold]
    rfl

/-- A list of plugins with an entry that goes on behind its tag, and with entries without a tag. -/
def pluginEntries : List Value :=
  [.array [.string "transform-imports", .null], .array [], .bool true, .string "syntax-jsx"]

/-- Plugins of which two are missing, one of them asked for twice. -/
def pluginTags : List String :=
  ["lodash", "transform-imports", "macros", "lodash"]

theorem ensureEntries_adds_plugins :
    MissingTags pluginTags pluginEntries ["lodash", "macros"] ∧
      (ensureEntries "plugins" pluginTags .skip).apply
          (.object [("presets", .null), ("plugins", .array pluginEntries)]) =
        .rewritten (.object [("presets", .null),
          ("plugins", .array (pluginEntries ++ [.string "lodash", .string "macros"]))]) := by
  have hkeys : (Value.object
      [("presets", .null), ("plugins", .array pluginEntries)]).WellKeyed := by
    simp [pluginEntries, Value.WellKeyed, Value.ItemsWellKeyed, Value.MembersWellKeyed,
      Members.keys]
  have hlist : (ensureEntries "plugins" pluginTags .skip).HasList
      [("presets", .null), ("plugins", .array pluginEntries)] pluginEntries := .inl rfl
  obtain ⟨added, next, hadded, hput, hafter, -⟩ := ensureEntries_adds hkeys hlist
  obtain rfl := Members.put_iff.1 hput
  have heq : Value.object [("presets", .null),
        ("plugins", .array (pluginEntries ++ ["lodash", "macros"].map .string))] =
      .object [("presets", .null), ("plugins", .array (pluginEntries ++ added.map .string))] :=
    hafter
  simp only [Value.object.injEq, List.cons.injEq, Prod.mk.injEq, Value.array.injEq,
    List.append_cancel_left_eq, true_and, and_true] at heq
  have hinjective : Function.Injective Value.string := fun _ _ h => Value.string.inj h
  obtain rfl := hinjective.list_map heq
  exact ⟨hadded, rfl⟩

end ConfigEdit

end ProjectSetup
