import ProjectSetup.Proofs.ConfigEdit
import ProjectSetup.Proofs.Json.Overlay
import ProjectSetup.Proofs.Step

/-!
# Edits on different fields of a config

An edit looks at nothing but the value of its field: that value decides how the edit ends, although
the config as a whole is compared with what it would become, and it decides what the field holds
afterwards.  Hence an edit on another field, before or after it, makes no difference.

* `apply_object`: an edit on a config, told by what it makes of its field.
* `wellKeyed_after`: objects keep having every key once.
* `after_comm`: two edits on different fields, in either order.
-/

namespace ProjectSetup

open Json (Value Members)

namespace Edited

variable {α β : Type}

/-- How the edit ended. -/
def verdict : Edited α → Verdict
  | rewritten _ => .applied
  | alreadyApplied => .alreadyApplied
  | skipped reason => .skipped reason

@[simp]
theorem verdict_map (f : α → β) (result : Edited α) : (result.map f).verdict = result.verdict := by
  cases result <;> rfl

end Edited

namespace ConfigEdit

variable {edit other : ConfigEdit} {config : Value} {members : Members} {items : List Value}

/-- The config after the edit. -/
def after (edit : ConfigEdit) (config : Value) : Value :=
  (edit.apply config).contentAfter config

/-- No object that the edit puts in has a key twice. -/
def WellKeyed : ConfigEdit → Prop
  | upsertTagged _ _ options _ => (Value.object options).WellKeyed
  | ensureEntries _ _ _ => True

theorem apply_of_ne_object (h : ∀ members, config ≠ .object members) :
    edit.apply config = .skipped (.configUnreadable .configNotObject) := by
  rw [apply_eq_onList]
  cases config with
  | object members => exact absurd rfl (h members)
  | _ => rfl

theorem after_of_ne_object (h : ∀ members, config ≠ .object members) :
    edit.after config = config := by
  rw [after, apply_of_ne_object h]
  rfl

/-- A config is an object, or an edit leaves it alone. -/
theorem object_or_forall_ne (config : Value) :
    (∃ members, config = .object members) ∨ ∀ members, config ≠ .object members := by
  cases config with
  | object members => exact .inl ⟨members, rfl⟩
  | _ => exact .inr fun _ h => by cases h

/-- An edit leaves the config the same if it leaves a list that is there the same. -/
theorem done_iff_of_hasList (h : edit.HasList members items) :
    edit.Done members ↔
      edit.field ∈ members.keys ∧ Value.sameItems items (edit.change items) = true := by
  constructor
  · rintro ⟨found, hfound, hsame⟩
    refine ⟨Members.mem_keys_of_get? hfound, ?_⟩
    rcases h with hget | ⟨hnone, -, -⟩
    · rw [hget] at hfound
      exact Value.array.inj (Option.some.inj hfound) ▸ hsame
    · rw [hnone] at hfound
      cases hfound
  · rintro ⟨hkey, hsame⟩
    rcases h with hget | ⟨hnone, -, -⟩
    · exact ⟨items, hget, hsame⟩
    · exact absurd hkey (Members.get?_eq_none_iff.1 hnone)

theorem apply_eq_alreadyApplied_iff (hkeys : (Value.object members).WellKeyed)
    (h : edit.HasList members items) :
    edit.apply (.object members) = .alreadyApplied ↔ edit.Done members := by
  rw [apply_of_hasList h, ← same_next_iff hkeys h]
  split_ifs with hsame
  · exact iff_of_true rfl hsame
  · exact iff_of_false (fun heq => by cases heq) hsame

theorem apply_of_not_done (hkeys : (Value.object members).WellKeyed)
    (h : edit.HasList members items) (hdone : ¬ edit.Done members) :
    edit.apply (.object members) = .rewritten (.object (edit.next members items)) := by
  rw [apply_of_hasList h, if_neg (hdone ∘ (same_next_iff hkeys h).1)]

/-! ### What an edit makes of its field -/

/-- What the edit makes of the value of its field. -/
def onField (edit : ConfigEdit) : Option Value → Edited Value
  | none =>
    match edit.missing with
    | .skip => .skipped (.configFieldMissing edit.field)
    | .create => .rewritten (.array (edit.change []))
  | some (.array items) =>
    if Value.sameItems items (edit.change items) = true then .alreadyApplied
    else .rewritten (.array (edit.change items))
  | some _ => .skipped (.notAList edit.field)

/-- The value of the field after the edit. -/
def fieldAfter (edit : ConfigEdit) (value? : Option Value) : Option Value :=
  match edit.onField value? with
  | .rewritten value => some value
  | .alreadyApplied => value?
  | .skipped _ => value?

/-- **An edit on a config, told by what it makes of its field.** -/
theorem apply_object (hkeys : (Value.object members).WellKeyed) :
    edit.apply (.object members) = (edit.onField (Members.get? edit.field members)).map
      fun value => .object (Members.insert edit.field value members) := by
  cases hget : Members.get? edit.field members with
  | none =>
    cases hmissing : edit.missing with
    | skip =>
      have hlist : list? edit.field edit.missing members = .error (.configFieldMissing edit.field) := by
        simp only [list?, hget, hmissing]
      rw [apply_of_list? hlist, onField, hmissing]
      rfl
    | create =>
      have hlist : edit.HasList members [] := .inr ⟨hget, hmissing, rfl⟩
      have hnot : ¬ edit.Done members := fun hdone =>
        Members.get?_eq_none_iff.1 hget ((done_iff_of_hasList hlist).1 hdone).1
      rw [apply_of_not_done hkeys hlist hnot, onField, hmissing]
      rfl
  | some value =>
    cases value with
    | array items =>
      have hlist : edit.HasList members items := .inl hget
      have hdone : edit.Done members ↔ Value.sameItems items (edit.change items) = true := by
        rw [done_iff_of_hasList hlist]
        exact and_iff_right (Members.mem_keys_of_get? hget)
      rw [onField]
      split_ifs with hsame
      · rw [(apply_eq_alreadyApplied_iff hkeys hlist).2 (hdone.2 hsame)]
        rfl
      · rw [apply_of_not_done hkeys hlist (hsame ∘ hdone.1)]
        rfl
    | _ =>
      have hlist : list? edit.field edit.missing members = .error (.notAList edit.field) := by
        simp only [list?, hget]
      rw [apply_of_list? hlist]
      rfl

theorem verdict_apply_object (hkeys : (Value.object members).WellKeyed) :
    (edit.apply (.object members)).verdict =
      (edit.onField (Members.get? edit.field members)).verdict := by
  rw [apply_object hkeys, Edited.verdict_map]

/-- An edit leaves an object, in which nothing but its field is changed. -/
theorem after_object (edit : ConfigEdit) (hkeys : (Value.object members).WellKeyed) :
    ∃ new, edit.after (.object members) = .object new ∧
      ∀ key, Members.get? key new =
        if edit.field = key then edit.fieldAfter (Members.get? edit.field members)
        else Members.get? key members := by
  have hkept : ∀ key, Members.get? key members =
      if edit.field = key then Members.get? edit.field members else Members.get? key members := by
    intro key
    split_ifs with h
    · rw [h]
    · rfl
  rw [after, apply_object hkeys]
  unfold fieldAfter
  cases edit.onField (Members.get? edit.field members) with
  | rewritten value => exact ⟨_, rfl, fun key => Members.get?_insert ..⟩
  | alreadyApplied => exact ⟨members, rfl, hkept⟩
  | skipped reason => exact ⟨members, rfl, hkept⟩

/-! ### Objects with every key once -/

theorem wellKeyed_withOptions {tag : String} {options : Members} {entry : Value}
    (hoptions : (Value.object options).WellKeyed) (hentry : entry.WellKeyed) :
    (withOptions tag options entry).WellKeyed := by
  unfold withOptions
  split
  · next first old more =>
    obtain ⟨hfirst, hold, hmore⟩ := hentry
    exact ⟨hfirst, Value.wellKeyed_overlay hold hoptions, hmore⟩
  · exact ⟨trivial, hoptions, trivial⟩

theorem wellKeyed_upsert {tag : String} {options : Members}
    (hoptions : (Value.object options).WellKeyed) (hitems : Value.ItemsWellKeyed items) :
    Value.ItemsWellKeyed (upsert tag options items) := by
  induction items with
  | nil => exact ⟨⟨trivial, hoptions, trivial⟩, trivial⟩
  | cons entry rest ih =>
    rw [upsert]
    split_ifs
    · exact ⟨wellKeyed_withOptions hoptions hitems.1, hitems.2⟩
    · exact ⟨hitems.1, ih hitems.2⟩

theorem wellKeyed_foldl_ensure (tags : List String) (hitems : Value.ItemsWellKeyed items) :
    Value.ItemsWellKeyed (tags.foldl ensure items) := by
  obtain ⟨added, hadded, -, -⟩ := foldl_ensure tags items
  rw [hadded, Value.itemsWellKeyed_iff]
  intro item hitem
  rcases List.mem_append.1 hitem with hitem | hitem
  · exact Value.itemsWellKeyed_iff.1 hitems item hitem
  · obtain ⟨tag, -, rfl⟩ := List.mem_map.1 hitem
    trivial

theorem wellKeyed_change (hedit : edit.WellKeyed) (hitems : Value.ItemsWellKeyed items) :
    Value.ItemsWellKeyed (edit.change items) := by
  cases edit with
  | upsertTagged => exact wellKeyed_upsert hedit hitems
  | ensureEntries _ tags => exact wellKeyed_foldl_ensure tags hitems

theorem wellKeyed_of_hasList (hkeys : (Value.object members).WellKeyed)
    (hlist : edit.HasList members items) : Value.ItemsWellKeyed items := by
  rcases hlist with hget | ⟨-, -, rfl⟩
  · exact Value.membersWellKeyed_iff.1 hkeys.2 _ (Members.mem_of_get? hget)
  · trivial

theorem wellKeyed_next (hedit : edit.WellKeyed) (hkeys : (Value.object members).WellKeyed)
    (hlist : edit.HasList members items) : (Value.object (edit.next members items)).WellKeyed :=
  Value.wellKeyed_insert (a := .array (edit.change items)) hkeys
    (wellKeyed_change hedit (wellKeyed_of_hasList hkeys hlist))

/-- Objects keep having every key once. -/
theorem wellKeyed_after (hedit : edit.WellKeyed) (hconfig : config.WellKeyed) :
    (edit.after config).WellKeyed := by
  rcases object_or_forall_ne config with ⟨members, rfl⟩ | hother
  · have hcases := apply_cases edit hconfig
    rw [after]
    generalize edit.apply (.object members) = result at hcases
    cases hcases with
    | inPlace _ => exact hconfig
    | skipped _ => exact hconfig
    | rewritten _ hlist => exact wellKeyed_next hedit hconfig hlist
  · rwa [after_of_ne_object hother]

/-! ### Two fields -/

/-- An edit ends as it would without an edit on another field before it. -/
theorem verdict_apply_after (hne : edit.field ≠ other.field) (hother : other.WellKeyed)
    (hconfig : config.WellKeyed) :
    (edit.apply (other.after config)).verdict = (edit.apply config).verdict := by
  have hkeys := wellKeyed_after hother hconfig
  rcases object_or_forall_ne config with ⟨members, rfl⟩ | hnot
  · obtain ⟨new, hnew, hget⟩ := after_object other hconfig
    rw [hnew] at hkeys ⊢
    rw [verdict_apply_object hkeys, verdict_apply_object hconfig, hget, if_neg (Ne.symm hne)]
  · rw [after_of_ne_object hnot]

/-- Two edits in one order, told by what they make of their fields. -/
theorem after_after_object (hne : edit.field ≠ other.field) (hedit : edit.WellKeyed)
    (hconfig : (Value.object members).WellKeyed) :
    ∃ new, other.after (edit.after (.object members)) = .object new ∧
      ∀ key, Members.get? key new =
        if other.field = key then other.fieldAfter (Members.get? other.field members)
        else if edit.field = key then edit.fieldAfter (Members.get? edit.field members)
        else Members.get? key members := by
  have hkeys := wellKeyed_after hedit hconfig
  obtain ⟨mid, hmid, hgetMid⟩ := after_object edit hconfig
  rw [hmid] at hkeys ⊢
  obtain ⟨new, hnew, hgetNew⟩ := after_object other hkeys
  refine ⟨new, hnew, fun key => ?_⟩
  rw [hgetNew, hgetMid, hgetMid, if_neg hne]

/-- **Edits on different fields are independent**: in either order they lead to the same config, up
to the order of members, and each of them ends in the same way. -/
theorem after_comm (hne : edit.field ≠ other.field) (hedit : edit.WellKeyed)
    (hother : other.WellKeyed) (hconfig : config.WellKeyed) :
    Value.Equal (other.after (edit.after config)) (edit.after (other.after config)) ∧
      (edit.apply (other.after config)).verdict = (edit.apply config).verdict ∧
      (other.apply (edit.after config)).verdict = (other.apply config).verdict := by
  refine ⟨?_, verdict_apply_after hne hother hconfig,
    verdict_apply_after (Ne.symm hne) hedit hconfig⟩
  rcases object_or_forall_ne config with ⟨members, rfl⟩ | hnot
  · obtain ⟨one, hone, hgetOne⟩ := after_after_object hne hedit hconfig
    obtain ⟨two, htwo, hgetTwo⟩ := after_after_object (Ne.symm hne) hother hconfig
    have hget : ∀ key, Members.get? key one = Members.get? key two := by
      intro key
      rw [hgetOne, hgetTwo]
      by_cases hkey : edit.field = key
      · rw [if_neg fun h => hne (hkey.trans h.symm), if_pos hkey, if_pos hkey]
      · rw [if_neg hkey, if_neg hkey]
    rw [hone, htwo]
    exact Value.equal_of_get?_eq hget
  · rw [after_of_ne_object hnot, after_of_ne_object hnot, after_of_ne_object hnot]

/-- Each of two edits creates its list, so that the lists come in the order of the edits. -/
theorem after_comm_created :
    (ensureEntries "plugins" ["lodash"] .create).after
        ((upsertTagged "presets" "@vue/app" [("modules", .bool false)] .create).after (.object [])) =
      .object [
        ("presets", .array [.array [.string "@vue/app", .object [("modules", .bool false)]]]),
        ("plugins", .array [.string "lodash"])] ∧
    (upsertTagged "presets" "@vue/app" [("modules", .bool false)] .create).after
        ((ensureEntries "plugins" ["lodash"] .create).after (.object [])) =
      .object [
        ("plugins", .array [.string "lodash"]),
        ("presets", .array [.array [.string "@vue/app", .object [("modules", .bool false)]]])] ∧
    Value.Equal
      ((ensureEntries "plugins" ["lodash"] .create).after
        ((upsertTagged "presets" "@vue/app" [("modules", .bool false)] .create).after (.object [])))
      ((upsertTagged "presets" "@vue/app" [("modules", .bool false)] .create).after
        ((ensureEntries "plugins" ["lodash"] .create).after (.object []))) := by
  have hne : (upsertTagged "presets" "@vue/app" [("modules", .bool false)] .create).field ≠
      (ensureEntries "plugins" ["lodash"] .create).field := by decide
  have hedit : (upsertTagged "presets" "@vue/app" [("modules", .bool false)] .create).WellKeyed := by
    simp [WellKeyed, Value.WellKeyed, Value.MembersWellKeyed, Members.keys]
  have hconfig : (Value.object []).WellKeyed := ⟨List.nodup_nil, trivial⟩
  exact ⟨rfl, rfl, (after_comm hne hedit trivial hconfig).1⟩

end ConfigEdit

end ProjectSetup
