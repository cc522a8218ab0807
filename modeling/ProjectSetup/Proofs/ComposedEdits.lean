import ProjectSetup.Proofs.ListEdit

/-!
# Edits on one field of a config, one after the other

Two edits of one kind on the same field do together what one edit does that puts in all at once.  The
first of them may find nothing to do, and then leaves a config that is only equal to the one it would
have made; so the edits are compared with what they make of the list whether it makes a difference
or not (`changed`), and that is kept by equality of configs.

* `equal_changed_after`: what an edit leaves is equal to what it makes of the list.
* `changed_changed`: two changes of the list are one.
* `changed_congr`: equal configs are changed into equal ones.
* `after_composes`: two edits, one after the other, and an edit that is repeated.
-/

namespace ProjectSetup

open Json (Value Members)

namespace ConfigEdit

variable {edit first second both : ConfigEdit} {field tag : String} {options options' : Members}
  {members as bs : Members} {missing : MissingField} {config a b : Value} {items : List Value}
  {tags tags' : List String}

/-! ### Changes of the list -/

/-- The config with the list changed, also where that makes no difference. -/
def changed (edit : ConfigEdit) : Value → Value
  | .object members =>
    match list? edit.field edit.missing members with
    | .ok items => .object (edit.next members items)
    | .error _ => .object members
  | config => config

/-- The edit finds no list in the config. -/
def FindsNone (edit : ConfigEdit) (config : Value) : Prop :=
  ∀ members items, config = .object members → ¬ edit.HasList members items

theorem hasList_or_findsNone (edit : ConfigEdit) (config : Value) :
    (∃ members items, config = .object members ∧ edit.HasList members items) ∨
      edit.FindsNone config := by
  by_cases hlist : ∃ members items, config = .object members ∧ edit.HasList members items
  · exact .inl hlist
  · exact .inr fun members items hconfig h => hlist ⟨members, items, hconfig, h⟩

theorem changed_of_hasList (h : edit.HasList members items) :
    edit.changed (.object members) = .object (edit.next members items) := by
  rw [changed, hasList_iff.1 h]

theorem changed_of_findsNone (h : edit.FindsNone config) : edit.changed config = config := by
  cases config with
  | object members =>
    rw [changed]
    cases hlist : list? edit.field edit.missing members with
    | ok items => exact absurd (hasList_iff.2 hlist) (h members items rfl)
    | error reason => rfl
  | _ => rfl

theorem apply_of_findsNone (h : edit.FindsNone config) :
    ∃ reason, edit.apply config = .skipped reason := by
  rcases object_or_forall_ne config with ⟨members, rfl⟩ | hnot
  · rcases list?_cases edit members with ⟨items, hlist⟩ | ⟨hget, hmissing⟩ | ⟨value, hget, hvalue⟩
    · exact absurd hlist (h members items rfl)
    · exact ⟨_, apply_of_noField hget hmissing⟩
    · exact ⟨_, apply_of_noList hget hvalue⟩
  · exact ⟨_, apply_of_ne_object hnot⟩

theorem after_of_findsNone (h : edit.FindsNone config) : edit.after config = config := by
  obtain ⟨reason, happly⟩ := apply_of_findsNone h
  rw [after, happly]
  rfl

/-- What an edit leaves is equal to what it makes of the list. -/
theorem equal_changed_after (edit : ConfigEdit) (hedit : edit.WellKeyed) (hconfig : config.WellKeyed) :
    Value.Equal (edit.after config) (edit.changed config) := by
  rcases hasList_or_findsNone edit config with ⟨members, items, rfl, hlist⟩ | hnone
  · rw [after, changed_of_hasList hlist, apply_of_hasList hlist]
    split_ifs with hsame
    · exact (Value.same_iff_equal hconfig (wellKeyed_next hedit hconfig hlist)).1 hsame
    · exact Value.Equal.refl _
  · rw [after_of_findsNone hnone, changed_of_findsNone hnone]

/-- Putting in tags leaves just what it makes of the list. -/
theorem after_ensureEntries_eq_changed (hconfig : config.WellKeyed) :
    (ensureEntries field tags missing).after config =
      (ensureEntries field tags missing).changed config := by
  rcases hasList_or_findsNone (ensureEntries field tags missing) config with
    ⟨members, items, rfl, hlist⟩ | hnone
  · rw [after_ensureEntries hconfig hlist, changed_of_hasList hlist]
    rfl
  · rw [after_of_findsNone hnone, changed_of_findsNone hnone]

theorem hasList_congr (hfield : first.field = second.field) (hmissing : first.missing = second.missing) :
    first.HasList members items ↔ second.HasList members items := by
  rw [HasList, HasList, hfield, hmissing]

theorem get?_next (edit : ConfigEdit) (members : Members) (items : List Value) :
    Members.get? edit.field (edit.next members items) = some (.array (edit.change items)) := by
  rw [next, Members.get?_insert, if_pos rfl]

/-- Two changes of the list are one. -/
theorem changed_changed (hfield : first.field = both.field) (hfield' : second.field = both.field)
    (hmissing : first.missing = both.missing) (hmissing' : second.missing = both.missing)
    (hchange : ∀ items, second.change (first.change items) = both.change items) :
    second.changed (first.changed config) = both.changed config := by
  rcases hasList_or_findsNone both config with ⟨members, items, rfl, hlist⟩ | hnone
  · have hfirst := (hasList_congr hfield hmissing).2 hlist
    have hsecond : second.HasList (first.next members items) (first.change items) :=
      (hasList_congr (hfield'.trans hfield.symm) (hmissing'.trans hmissing.symm)).2
        (.inl (get?_next first members items))
    rw [changed_of_hasList hlist, changed_of_hasList hfirst, changed_of_hasList hsecond, next, next,
      next, hfield, hfield', hchange, Members.insert_insert]
  · have hfirst : first.FindsNone config :=
      fun members items hconfig h => hnone members items hconfig ((hasList_congr hfield hmissing).1 h)
    have hsecond : second.FindsNone config :=
      fun members items hconfig h => hnone members items hconfig ((hasList_congr hfield' hmissing').1 h)
    rw [changed_of_findsNone hnone, changed_of_findsNone hfirst, changed_of_findsNone hsecond]

/-! ### Equal configs -/

theorem hasList_of_equal (h : Value.Equal (.object as) (.object bs))
    (hlist : edit.HasList as items) :
    ∃ items', edit.HasList bs items' ∧ List.Forall₂ Value.Equal items items' := by
  have hrel := Value.equal_object_iff.1 h edit.field
  rcases hlist with hget | ⟨hget, hmissing, rfl⟩
  · rw [hget] at hrel
    generalize hget' : Members.get? edit.field bs = value? at hrel
    cases hrel with
    | @some _ value hequal =>
      cases value with
      | array items' => exact ⟨items', .inl hget', Value.equal_array_iff.1 hequal⟩
      | _ => cases hequal
  · rw [hget] at hrel
    generalize hget' : Members.get? edit.field bs = value? at hrel
    cases hrel
    exact ⟨[], .inr ⟨hget', hmissing, rfl⟩, .nil⟩

/-- Equal configs are changed into equal ones, if equal lists are. -/
theorem changed_congr (hchange : ∀ {as bs}, List.Forall₂ Value.Equal as bs →
      List.Forall₂ Value.Equal (edit.change as) (edit.change bs)) (h : Value.Equal a b) :
    Value.Equal (edit.changed a) (edit.changed b) := by
  rcases hasList_or_findsNone edit a with ⟨as, items, rfl, hlist⟩ | hnone
  · obtain ⟨bs, rfl⟩ : ∃ bs, b = .object bs := by
      cases h
      exact ⟨_, rfl⟩
    obtain ⟨items', hlist', hitems⟩ := hasList_of_equal h hlist
    rw [changed_of_hasList hlist, changed_of_hasList hlist']
    exact Value.equal_insert h (Value.equal_array_iff.2 (hchange hitems))
  · have hnone' : edit.FindsNone b := by
      rintro bs items rfl hlist
      obtain ⟨as, rfl⟩ : ∃ as, a = .object as := by
        cases h
        exact ⟨_, rfl⟩
      obtain ⟨items', hlist', -⟩ := hasList_of_equal h.symm hlist
      exact hnone as items' rfl hlist'
    rwa [changed_of_findsNone hnone, changed_of_findsNone hnone']

/-! ### Options that are put to a tag twice -/

theorem string?_eq_of_equal (h : Value.Equal a b) : a.string? = b.string? := by
  cases h <;> rfl

theorem entryTag?_eq_of_equal (h : Value.Equal a b) : entryTag? a = entryTag? b := by
  cases h with
  | @array as bs hlength hitems =>
    cases Value.equal_array_iff.1 (.array hlength hitems) with
    | nil => rfl
    | cons hfirst _ => exact string?_eq_of_equal hfirst
  | _ => rfl

theorem equal_withOptions (h : Value.Equal a b) :
    Value.Equal (withOptions tag options a) (withOptions tag options b) := by
  cases h with
  | @array as bs hlength hitems =>
    cases Value.equal_array_iff.1 (.array hlength hitems) with
    | nil => exact Value.Equal.refl _
    | cons hfirst hrest =>
      cases hrest with
      | nil => exact Value.Equal.refl _
      | cons hsecond hmore =>
        cases hsecond with
        | object hkeys hvalues =>
          have hold := Value.equal_overlay options (.object hkeys hvalues)
          exact Value.equal_array_iff.2 (.cons hfirst (.cons hold hmore))
        | _ => exact Value.Equal.refl _
  | _ => exact Value.Equal.refl _

theorem upsert_congr {as bs : List Value} (h : List.Forall₂ Value.Equal as bs) :
    List.Forall₂ Value.Equal (upsert tag options as) (upsert tag options bs) := by
  induction h with
  | nil => exact .cons (Value.Equal.refl _) .nil
  | cons hfirst hrest ih =>
    rw [upsert, upsert, entryTag?_eq_of_equal hfirst]
    split_ifs
    · exact .cons (equal_withOptions hfirst) hrest
    · exact .cons hfirst ih

theorem withOptions_withOptions (hoptions : options.keys.Nodup) (entry : Value) :
    withOptions tag options' (withOptions tag options entry) =
      withOptions tag (Members.overlay options options') entry := by
  rcases withOptions_cases tag entry with ⟨first, old, more, rfl⟩ | ⟨-, hplain⟩
  · rw [withOptions, withOptions, withOptions, Members.overlay_overlay hoptions]
  · rw [hplain, hplain]
    rfl

theorem upsert_upsert (hoptions : options.keys.Nodup) (items : List Value) :
    upsert tag options' (upsert tag options items) =
      upsert tag (Members.overlay options options') items := by
  induction items with
  | nil => exact if_pos rfl
  | cons entry rest ih =>
    by_cases htag : entryTag? entry = some tag
    · rw [upsert, if_pos htag, upsert, if_pos (entryTag?_withOptions htag), upsert, if_pos htag,
        withOptions_withOptions hoptions]
    · rw [upsert, if_neg htag, upsert, if_neg htag, upsert, if_neg htag, ih]

/-! ### An edit that is repeated -/

theorem change_change (hedit : edit.WellKeyed) (items : List Value) :
    edit.change (edit.change items) = edit.change items := by
  cases edit with
  | upsertTagged field tag options missing =>
    have hkeys : options.keys.Nodup := hedit.1
    rw [change_upsertTagged, change_upsertTagged, upsert_upsert hkeys, Members.overlay_self hkeys]
  | ensureEntries field tags missing =>
    rw [change_ensureEntries, change_ensureEntries]
    obtain ⟨added, hadded, hfold⟩ := exists_missingTags tags items
    obtain ⟨more, hmore, hagain⟩ := exists_missingTags tags (tags.foldl ensure items)
    rw [hagain, hmore.eq_nil (hfold ▸ hadded.exists_tagged), List.map_nil, List.append_nil]

/-- An edit finds nothing to do in the config that it made. -/
theorem apply_again {new : Value} (hedit : edit.WellKeyed) (hconfig : config.WellKeyed)
    (h : edit.apply config = .rewritten new) : edit.apply new = .alreadyApplied := by
  rcases hasList_or_findsNone edit config with ⟨members, items, rfl, hlist⟩ | hnone
  case inr =>
    obtain ⟨reason, happly⟩ := apply_of_findsNone hnone
    rw [happly] at h
    cases h
  have hdone : ¬ edit.Done members := by
    intro hdone
    rw [(apply_eq_alreadyApplied_iff hconfig hlist).2 hdone] at h
    cases h
  rw [apply_of_not_done hconfig hlist hdone] at h
  obtain rfl := Edited.rewritten.inj h
  have hkeys := wellKeyed_next hedit hconfig hlist
  have hlist' : edit.HasList (edit.next members items) (edit.change items) :=
    .inl (get?_next edit members items)
  rw [apply_eq_alreadyApplied_iff hkeys hlist']
  refine ⟨edit.change items, get?_next edit members items, ?_⟩
  rw [change_change hedit]
  exact Value.sameItems_refl _ (wellKeyed_of_hasList hkeys hlist')

/-! ### Two edits -/

/-- **Two edits on one field, one after the other, are one edit**: options that are put to a tag in
two goes are as good as put there together, tags that are put in in two goes are the tags of both
lists, and an edit that is repeated finds nothing to do. -/
theorem after_composes (hconfig : config.WellKeyed) (field : String) (missing : MissingField) :
    (∀ tag options options', (Value.object options).WellKeyed → (Value.object options').WellKeyed →
      Value.Equal
        ((upsertTagged field tag options' missing).after
          ((upsertTagged field tag options missing).after config))
        ((upsertTagged field tag (Members.overlay options options') missing).after config)) ∧
    (∀ tags tags', (ensureEntries field tags' missing).after
        ((ensureEntries field tags missing).after config) =
      (ensureEntries field (tags ++ tags') missing).after config) ∧
    ∀ edit : ConfigEdit, edit.WellKeyed → ∀ new, edit.apply config = .rewritten new →
      edit.apply new = .alreadyApplied := by
  refine ⟨fun tag options options' hoptions hoptions' => ?_, fun tags tags' => ?_,
    fun edit hedit new h => apply_again hedit hconfig h⟩
  · have hafter : ((upsertTagged field tag options missing).after config).WellKeyed :=
      wellKeyed_after hoptions hconfig
    have hsecond := equal_changed_after (upsertTagged field tag options' missing) hoptions' hafter
    have hfirst : Value.Equal
        ((upsertTagged field tag options' missing).changed
          ((upsertTagged field tag options missing).after config))
        ((upsertTagged field tag options' missing).changed
          ((upsertTagged field tag options missing).changed config)) :=
      changed_congr upsert_congr (equal_changed_after _ hoptions hconfig)
    have hchanged : (upsertTagged field tag options' missing).changed
          ((upsertTagged field tag options missing).changed config) =
        (upsertTagged field tag (Members.overlay options options') missing).changed config :=
      changed_changed rfl rfl rfl rfl (upsert_upsert hoptions.1)
    have hboth := equal_changed_after
      (upsertTagged field tag (Members.overlay options options') missing)
      (Value.wellKeyed_overlay hoptions hoptions') hconfig
    rw [hchanged] at hfirst
    exact hsecond.trans (hfirst.trans hboth.symm)
  · have hafter : ((ensureEntries field tags missing).after config).WellKeyed :=
      wellKeyed_after trivial hconfig
    rw [after_ensureEntries_eq_changed hafter, after_ensureEntries_eq_changed hconfig,
      after_ensureEntries_eq_changed hconfig]
    exact changed_changed rfl rfl rfl rfl fun items => (List.foldl_append ..).symm

/-- The first edit finds its options in another order, and leaves them so. -/
theorem after_composes_presets :
    (upsertTagged "presets" "@vue/app" [("useBuiltIns", .string "usage"), ("modules", .bool false)]
        .skip).apply presetsConfig = .alreadyApplied ∧
      Value.Equal
        ((upsertTagged "presets" "@vue/app" [("polyfills", .array [])] .skip).after
          ((upsertTagged "presets" "@vue/app"
            [("useBuiltIns", .string "usage"), ("modules", .bool false)] .skip).after presetsConfig))
        ((upsertTagged "presets" "@vue/app"
          [("useBuiltIns", .string "usage"), ("modules", .bool false), ("polyfills", .array [])]
          .skip).after presetsConfig) := by
  have hoptions : (Value.object
      [("useBuiltIns", .string "usage"), ("modules", .bool false)]).WellKeyed := by
    simp [Value.WellKeyed, Value.MembersWellKeyed, Members.keys]
  have hoptions' : (Value.object [("polyfills", .array [])]).WellKeyed := by
    simp [Value.WellKeyed, Value.ItemsWellKeyed, Value.MembersWellKeyed, Members.keys]
  exact ⟨rfl, (after_composes wellKeyed_presetsConfig "presets" .skip).1
    "@vue/app" _ _ hoptions hoptions'⟩

end ConfigEdit

end ProjectSetup
