import ProjectSetup.Proofs.ConfigEdit
import ProjectSetup.Proofs.ConfigModule.Saved
import ProjectSetup.Proofs.Pass

/-!
# Edits on config files

A config that is read is an object with every key once and nested at most 127 deep, and edits keep it
so.  After an edit the file is as before, or it has the edited config, whose floating-point numbers
are those that the printed ones are read as; if one of these cannot be read, then neither can the
file, and no later edit does anything.

* `after_of_textAfter`: the config in a file after an edit on it.
* `idle_config_iff`, `inPlace_config_iff`: when an edit leaves a file as it is.
-/

namespace ProjectSetup

open Json (Members Value)

/-! ### Configs that are read -/

namespace Json.Value

mutual

theorem everyFloat_of_forall {p : Binary64 → Prop} (h : ∀ x, p x) :
    ∀ value : Value, value.EveryFloat p
  | null => trivial
  | bool _ => trivial
  | number (.natural _ _) => trivial
  | number (.negative _ _) => trivial
  | number (.floating x) => h x
  | string _ => trivial
  | array items => itemsEveryFloat_of_forall h items
  | object members => membersEveryFloat_of_forall h members

theorem itemsEveryFloat_of_forall {p : Binary64 → Prop} (h : ∀ x, p x) :
    ∀ items : List Value, ItemsEveryFloat p items
  | [] => trivial
  | item :: rest => ⟨everyFloat_of_forall h item, itemsEveryFloat_of_forall h rest⟩

theorem membersEveryFloat_of_forall {p : Binary64 → Prop} (h : ∀ x, p x) :
    ∀ members : List (String × Value), MembersEveryFloat p members
  | [] => trivial
  | (_, value) :: rest => ⟨everyFloat_of_forall h value, membersEveryFloat_of_forall h rest⟩

end

end Json.Value

/-- What a config can be: nothing is said of its floating-point numbers. -/
abbrev IsConfig (members : Members) : Prop :=
  (Value.object members).Shaped Json.maxDepth fun _ => True

theorem isConfig_of_shape {members : Members} (hnest : (Value.object members).nesting ≤ Json.maxDepth)
    (hkeys : (Value.object members).WellKeyed) : IsConfig members :=
  ⟨hnest, hkeys, Json.Value.everyFloat_of_forall (fun _ => trivial) _⟩

theorem isConfig_of_parse {source : String} {value : Value}
    (h : ConfigModule.parse source = .ok value) : ∃ members, value = .object members ∧
      IsConfig members := by
  obtain ⟨tokens, -, h⟩ := Json.ok_of_bind h
  unfold ConfigModule.parseJson at h
  split_ifs at h
  · obtain rfl := Except.ok.inj h
    exact ⟨[], rfl, isConfig_of_shape (by decide) ⟨List.nodup_nil, trivial⟩⟩
  · split at h
    · cases h
    · next body hbody =>
      split at h
      · cases h
      · next found hfound =>
        split_ifs at h with hobject
        obtain rfl := Except.ok.inj h
        obtain ⟨w, -, hw⟩ := Json.parse_eq_ok_iff.1 hfound
        obtain ⟨hnest, hkeys⟩ := Json.shape_of_value? w hw
        cases found with
        | object members => exact ⟨members, rfl, isConfig_of_shape hnest hkeys⟩
        | _ => cases hobject

theorem isConfig_of_configOf {text? : Option String} {value : Value}
    (h : configOf text? = .ok value) : ∃ members, value = .object members ∧ IsConfig members := by
  cases text? with
  | none =>
    obtain rfl := Except.ok.inj h
    exact ⟨[], rfl, isConfig_of_shape (by decide) ⟨List.nodup_nil, trivial⟩⟩
  | some text => exact isConfig_of_parse h

theorem isConfig_of_configOf_object {text? : Option String} {members : Members}
    (h : configOf text? = .ok (.object members)) : IsConfig members := by
  obtain ⟨members', heq, hconfig⟩ := isConfig_of_configOf h
  obtain rfl := Value.object.inj heq
  exact hconfig

/-- A config that was written reads back with its floating-point numbers read again. -/
theorem eq_of_configOf_render {members : Members} {value : Value} (h : IsConfig members)
    (hread : configOf (some (ConfigModule.render (.object members))) = .ok value) :
    value = .object (Value.membersMapFloats Json.reread members) :=
  ((ConfigModule.parse_render_iff h.wellKeyed).1 hread).2.2.symm

theorem configOf_render {members : Members}
    (h : (Value.object members).Shaped Json.maxDepth fun _ => False) :
    configOf (some (ConfigModule.render (.object members))) = .ok (.object members) :=
  (ConfigModule.parse_render_iff h.wellKeyed).2
    ⟨h.nesting, Value.EveryFloat.mono (fun _ h => h.elim) _ h.floats,
      Value.mapFloats_of_integral _ _ h.floats⟩

/-! ### Edits on a file -/

variable {edit other : ConfigEdit} {text? : Option String} {text : String}
  {members members' : Members}

/-- The edit is done or has nothing to change. -/
def ConfigEdit.AtRest (edit : ConfigEdit) (members : Members) : Prop :=
  edit.Done members ∨ ∀ items, ¬ edit.HasList members items

/-- What an edit on a file can come to. -/
inductive ConfigOutcome (edit : ConfigEdit) (text? : Option String) : Edited String → Prop where
  | unreadable {why : Unreadable} : configOf text? = .error why →
    ConfigOutcome edit text? (.skipped (.configUnreadable why))
  | inPlace {members : Members} : configOf text? = .ok (.object members) → edit.Done members →
    ConfigOutcome edit text? .alreadyApplied
  | skipped {members : Members} {reason : SkipReason} : configOf text? = .ok (.object members) →
    (∀ items, ¬ edit.HasList members items) → ConfigOutcome edit text? (.skipped reason)
  | rewritten {members : Members} {items : List Value} : configOf text? = .ok (.object members) →
    ¬ edit.Done members → edit.HasList members items →
    ConfigOutcome edit text? (.rewritten (ConfigModule.render (.object (edit.next members items))))

theorem onText_config_cases (edit : ConfigEdit) (text? : Option String) :
    ConfigOutcome edit text? ((FileEdit.config edit).onText text?) := by
  rw [FileEdit.onText]
  cases hconfig : configOf text? with
  | error why => exact .unreadable hconfig
  | ok value =>
    obtain ⟨members, rfl, hshape⟩ := isConfig_of_configOf hconfig
    have hout := edit.apply_cases hshape.wellKeyed
    dsimp only
    generalize edit.apply (.object members) = edited at hout
    cases hout with
    | inPlace hdone => exact .inPlace hconfig hdone
    | skipped hnone => exact .skipped hconfig hnone
    | rewritten hnot hlist => exact .rewritten hconfig hnot hlist

theorem inPlace_config_iff :
    (FileEdit.config edit).onText text? = .alreadyApplied ↔
      ∃ members, configOf text? = .ok (.object members) ∧ edit.Done members := by
  have hout := onText_config_cases edit text?
  constructor
  · intro h
    rw [h] at hout
    cases hout with
    | inPlace hconfig hdone => exact ⟨_, hconfig, hdone⟩
  · rintro ⟨members, hconfig, hdone⟩
    generalize (FileEdit.config edit).onText text? = edited at hout
    cases hout with
    | unreadable hconfig' =>
      rw [hconfig] at hconfig'
      cases hconfig'
    | inPlace => rfl
    | skipped hconfig' hnone =>
      rw [hconfig] at hconfig'
      obtain rfl := Value.object.inj (Except.ok.inj hconfig')
      obtain ⟨items, hget, -⟩ := hdone
      exact absurd (.inl hget) (hnone items)
    | rewritten hconfig' hnot _ =>
      rw [hconfig] at hconfig'
      obtain rfl := Value.object.inj (Except.ok.inj hconfig')
      exact absurd hdone hnot

theorem idle_config_iff :
    (FileEdit.config edit).Idle text? ↔
      ∀ members, configOf text? = .ok (.object members) → edit.AtRest members := by
  have hout := onText_config_cases edit text?
  rw [FileEdit.Idle]
  generalize (FileEdit.config edit).onText text? = edited at hout
  constructor
  · intro hidle members hconfig
    cases hout with
    | unreadable hconfig' =>
      rw [hconfig] at hconfig'
      cases hconfig'
    | inPlace hconfig' hdone =>
      rw [hconfig] at hconfig'
      obtain rfl := Value.object.inj (Except.ok.inj hconfig')
      exact .inl hdone
    | skipped hconfig' hnone =>
      rw [hconfig] at hconfig'
      obtain rfl := Value.object.inj (Except.ok.inj hconfig')
      exact .inr hnone
    | rewritten => exact absurd rfl (hidle _)
  · intro hrest text heq
    subst heq
    cases hout with
    | rewritten hconfig hnot hlist =>
      rcases hrest _ hconfig with hdone | hnone
      · exact hnot hdone
      · exact hnone _ hlist

/-- The config after an edit: as before, or changed. -/
inductive After (edit : ConfigEdit) (members : Members) : Members → Prop where
  | same : edit.AtRest members → After edit members members
  | changed {items : List Value} : ¬ edit.Done members → edit.HasList members items →
    After edit members (Value.membersMapFloats Json.reread (edit.next members items))

/-- **The config in a file after an edit on it.** -/
theorem after_of_textAfter (hsettling : edit.Settling)
    (h : configOf ((FileEdit.config edit).textAfter text?) = .ok (.object members')) :
    ∃ members, configOf text? = .ok (.object members) ∧ After edit members members' := by
  have hout := onText_config_cases edit text?
  rw [FileEdit.textAfter] at h
  generalize (FileEdit.config edit).onText text? = edited at hout h
  cases hout with
  | unreadable hconfig =>
    dsimp only at h
    rw [hconfig] at h
    cases h
  | inPlace hconfig hdone =>
    dsimp only at h
    rw [hconfig] at h
    obtain rfl := Value.object.inj (Except.ok.inj h)
    exact ⟨_, hconfig, .same (.inl hdone)⟩
  | skipped hconfig hnone =>
    dsimp only at h
    rw [hconfig] at h
    obtain rfl := Value.object.inj (Except.ok.inj h)
    exact ⟨_, hconfig, .same (.inr hnone)⟩
  | rewritten hconfig hnot hlist =>
    have hshape := ConfigEdit.shaped_next hsettling (isConfig_of_configOf_object hconfig) hlist
    have heq := eq_of_configOf_render hshape h
    obtain rfl := Value.object.inj heq
    exact ⟨_, hconfig, .changed hnot hlist⟩

theorem After.atRest (hsettling : edit.Settling) (hshape : IsConfig members)
    (hshape' : IsConfig members') (h : After edit members members') : edit.AtRest members' := by
  cases h with
  | same hrest => exact hrest
  | changed hnot hlist =>
    exact .inl (ConfigEdit.done_mapFloats hsettling _ (ConfigEdit.shaped_next hsettling hshape hlist)
      hshape' (ConfigEdit.done_next hsettling hshape hlist))

theorem After.done (hsettling : edit.Settling) (hother : other.Settling)
    (hkept : edit.field = other.field → edit.KeptBy other) (hshape : IsConfig members)
    (hshape' : IsConfig members') (h : After other members members') (hdone : edit.Done members) :
    edit.Done members' := by
  cases h with
  | same => exact hdone
  | changed hnot hlist =>
    exact ConfigEdit.done_mapFloats hsettling _ (ConfigEdit.shaped_next hother hshape hlist) hshape'
      (ConfigEdit.done_next_of_done hother hkept hshape hlist hdone)

theorem After.noList (hfield : edit.field ≠ other.field) (h : After other members members')
    (hnone : ∀ items, ¬ edit.HasList members items) : ∀ items, ¬ edit.HasList members' items := by
  cases h with
  | same => exact hnone
  | changed hnot hlist =>
    intro items hitems
    obtain ⟨old, hold⟩ := ConfigEdit.hasList_mapFloats hitems
    exact hnone old ((ConfigEdit.hasList_next_iff hfield).1 hold)

theorem After.atRest_of_ne (hsettling : edit.Settling) (hother : other.Settling)
    (hfield : edit.field ≠ other.field) (hshape : IsConfig members) (hshape' : IsConfig members')
    (h : After other members members') (hrest : edit.AtRest members) : edit.AtRest members' := by
  rcases hrest with hdone | hnone
  · exact .inl (h.done hsettling hother (fun heq => absurd heq hfield) hshape hshape' hdone)
  · exact .inr (h.noList hfield hnone)

/-- No member of a config is lost. -/
theorem After.get?_eq_none {key : String} (h : After edit members members')
    (hnone : Members.get? key members' = none) : Members.get? key members = none := by
  cases h with
  | same => exact hnone
  | changed =>
    rw [Members.get?_membersMapFloats, Option.map_eq_none_iff, ConfigEdit.next,
      Members.get?_insert] at hnone
    split_ifs at hnone
    exact hnone

theorem After.get?_eq_none_iff {key : String} (hkey : key ≠ edit.field)
    (h : After edit members members') :
    Members.get? key members' = none ↔ Members.get? key members = none := by
  refine ⟨h.get?_eq_none, fun hnone => ?_⟩
  cases h with
  | same => exact hnone
  | changed =>
    rw [Members.get?_membersMapFloats, Option.map_eq_none_iff, ConfigEdit.next,
      Members.get?_insert, if_neg (Ne.symm hkey)]
    exact hnone

/-- An edit that leaves a file as it is still does so when another list is changed. -/
theorem idle_textAfter_config_of_ne (hsettling : edit.Settling) (hother : other.Settling)
    (hfield : edit.field ≠ other.field) (hidle : (FileEdit.config edit).Idle text?) :
    (FileEdit.config edit).Idle ((FileEdit.config other).textAfter text?) := by
  rw [idle_config_iff] at hidle ⊢
  intro members' hconfig'
  obtain ⟨members, hconfig, hafter⟩ := after_of_textAfter hother hconfig'
  exact hafter.atRest_of_ne hsettling hother hfield (isConfig_of_configOf_object hconfig)
    (isConfig_of_configOf_object hconfig') (hidle members hconfig)

/-- An edit leaves a file as it is that it has been applied to. -/
theorem idle_textAfter_config (hsettling : edit.Settling) :
    (FileEdit.config edit).Idle ((FileEdit.config edit).textAfter text?) := by
  rw [idle_config_iff]
  intro members' hconfig'
  obtain ⟨members, hconfig, hafter⟩ := after_of_textAfter hsettling hconfig'
  exact hafter.atRest hsettling (isConfig_of_configOf_object hconfig)
    (isConfig_of_configOf_object hconfig')

/-- Without floating-point numbers the edited config is read back as it was written. -/
theorem configOf_of_rewritten (hsettling : edit.Settling)
    (hint : ∀ value, configOf text? = .ok value → value.Integral)
    (h : (FileEdit.config edit).onText text? = .rewritten text) :
    ∃ members items, configOf text? = .ok (.object members) ∧ IsConfig members ∧
      edit.HasList members items ∧
      configOf (some text) = .ok (.object (edit.next members items)) ∧
      (Value.object (edit.next members items)).Integral := by
  have hout := onText_config_cases edit text?
  rw [h] at hout
  cases hout with
  | @rewritten members items hconfig hnot hlist =>
    have hshape := isConfig_of_configOf_object hconfig
    have hwhole : (Value.object members).Shaped Json.maxDepth fun _ => False :=
      ⟨hshape.nesting, hshape.wellKeyed, hint _ hconfig⟩
    have hnext := ConfigEdit.shaped_next hsettling hwhole hlist
    exact ⟨members, items, hconfig, hshape, hlist, configOf_render hnext, hnext.floats⟩

end ProjectSetup
