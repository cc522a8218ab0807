import ProjectSetup.Json.Reader
import ProjectSetup.Proofs.EntryTag
import ProjectSetup.Proofs.Json.Same

/-!
# What an edit on a config does

Both edits change a list that a field of the config holds, and leave the rest alone.  The edit is
done if the change leaves that list the same: if the first entry with the tag has the option, or if
every tag has an entry.

* `apply_cases`: what an edit on an object can come to.
* `settling_upsert`, `settling_ensure`: an edit is done once it was applied, and stays so when the
  floating-point numbers of the config change.
* `upsert_keptBy_ensure`, `ensure_keptBy_upsert`: it stays so under the other edit on the list.
-/

namespace ProjectSetup

open Json (Value Members)

namespace ConfigEdit

/-- The field that holds the list. -/
def field : ConfigEdit → String
  | upsertTagged field _ _ _ => field
  | ensureEntries field _ _ => field

/-- What to do where the list is absent. -/
def missing : ConfigEdit → MissingField
  | upsertTagged _ _ _ missing => missing
  | ensureEntries _ _ missing => missing

/-- What becomes of the list. -/
def change : ConfigEdit → List Value → List Value
  | upsertTagged _ tag options _ => upsert tag options
  | ensureEntries _ tags _ => tags.foldl ensure

theorem change_upsertTagged (field tag : String) (options : Members) (missing : MissingField)
    (items : List Value) :
    (upsertTagged field tag options missing).change items = upsert tag options items :=
  rfl

theorem change_ensureEntries (field : String) (tags : List String) (missing : MissingField)
    (items : List Value) :
    (ensureEntries field tags missing).change items = tags.foldl ensure items :=
  rfl

/-- The edit leaves the list of the config the same. -/
def Done (edit : ConfigEdit) (members : Members) : Prop :=
  ∃ items, Members.get? edit.field members = some (.array items) ∧
    Value.sameItems items (edit.change items) = true

/-- The list that the edit changes. -/
def HasList (edit : ConfigEdit) (members : Members) (items : List Value) : Prop :=
  Members.get? edit.field members = some (.array items) ∨
    (Members.get? edit.field members = none ∧ edit.missing = .create ∧ items = [])

/-- The config with the list changed. -/
def next (edit : ConfigEdit) (members : Members) (items : List Value) : Members :=
  Members.insert edit.field (.array (edit.change items)) members

/-- What an edit on an object can come to. -/
inductive Outcome (edit : ConfigEdit) (members : Members) : Edited Value → Prop where
  | inPlace : edit.Done members → Outcome edit members .alreadyApplied
  | skipped {reason : SkipReason} : (∀ items, ¬ edit.HasList members items) →
    Outcome edit members (.skipped reason)
  | rewritten {items : List Value} : ¬ edit.Done members → edit.HasList members items →
    Outcome edit members (.rewritten (.object (edit.next members items)))

theorem hasList_iff {edit : ConfigEdit} {members : Members} {items : List Value} :
    edit.HasList members items ↔ list? edit.field edit.missing members = .ok items := by
  unfold HasList list?
  cases hget : Members.get? edit.field members with
  | none => cases edit.missing <;> simp [eq_comm]
  | some value => cases value <;> simp

theorem same_next_iff {edit : ConfigEdit} {members : Members} {items : List Value}
    (hkeys : (Value.object members).WellKeyed) (hlist : edit.HasList members items) :
    Value.same (.object members) (.object (edit.next members items)) = true ↔
      edit.Done members := by
  rw [next, Value.same_insert_iff hkeys]
  constructor
  · rintro ⟨old, hget, hsame⟩
    rcases hlist with hlist | ⟨hnone, -, -⟩
    · rw [hlist] at hget
      obtain rfl := Option.some.inj hget
      exact ⟨items, hlist, hsame⟩
    · rw [hnone] at hget
      cases hget
  · rintro ⟨items', hget, hsame⟩
    rcases hlist with hlist | ⟨hnone, -, -⟩
    · rw [hlist] at hget
      obtain rfl := Value.array.inj (Option.some.inj hget)
      exact ⟨.array items, hlist, hsame⟩
    · rw [hnone] at hget
      cases hget

theorem apply_eq_onList (edit : ConfigEdit) (config : Value) :
    edit.apply config = onList edit.field edit.missing edit.change config := by
  cases edit <;> rfl

theorem apply_of_list? {edit : ConfigEdit} {members : Members} {reason : SkipReason}
    (h : list? edit.field edit.missing members = .error reason) :
    edit.apply (.object members) = .skipped reason := by
  rw [apply_eq_onList, onList, h]

theorem apply_of_hasList {edit : ConfigEdit} {members : Members} {items : List Value}
    (h : edit.HasList members items) :
    edit.apply (.object members) =
      if Value.same (.object members) (.object (edit.next members items)) = true then
        .alreadyApplied
      else .rewritten (.object (edit.next members items)) := by
  rw [apply_eq_onList, onList, hasList_iff.1 h]
  rfl

/-- **What an edit on an object can come to.** -/
theorem apply_cases (edit : ConfigEdit) {members : Members}
    (hkeys : (Value.object members).WellKeyed) :
    Outcome edit members (edit.apply (.object members)) := by
  cases hlist : list? edit.field edit.missing members with
  | error reason =>
    rw [apply_of_list? hlist]
    refine .skipped fun items h => ?_
    rw [hasList_iff, hlist] at h
    cases h
  | ok items =>
    have hhas : edit.HasList members items := hasList_iff.2 hlist
    rw [apply_of_hasList hhas]
    split_ifs with hsame
    · exact .inPlace ((same_next_iff hkeys hhas).1 hsame)
    · exact .rewritten (fun hdone => hsame ((same_next_iff hkeys hhas).2 hdone)) hhas

/-! ### Tags of a list -/

theorem length_eq_of_sameItems {as bs : List Value} (h : Value.sameItems as bs = true) :
    as.length = bs.length := by
  induction as generalizing bs with
  | nil =>
    cases bs with
    | nil => rfl
    | cons b bs => cases h
  | cons a as ih =>
    cases bs with
    | nil => cases h
    | cons b bs =>
      rw [Value.sameItems, Bool.and_eq_true] at h
      rw [List.length_cons, List.length_cons, ih h.2]

/-- Putting in tags leaves a list the same in which all of them are there. -/
theorem done_ensure_iff {tags : List String} {items : List Value}
    (hkeys : Value.ItemsWellKeyed items) :
    Value.sameItems items (tags.foldl ensure items) = true ↔ ∀ tag ∈ tags, HasTag tag items := by
  obtain ⟨added, hadded, -, hnone⟩ := foldl_ensure tags items
  rw [← hnone, hadded]
  constructor
  · intro h
    have hlength := length_eq_of_sameItems h
    rw [List.length_append, List.length_map] at hlength
    exact List.length_eq_zero_iff.1 (by omega)
  · rintro rfl
    rw [List.map_nil, List.append_nil]
    exact Value.sameItems_refl items hkeys

/-! ### Options of a tag -/

/-- The first entry with the tag has the option. -/
def Carries (tag key : String) (value : Value) (items : List Value) : Prop :=
  ∃ front first old more back found, items = front ++ .array (first :: .object old :: more) :: back ∧
    (∀ item ∈ front, entryTag? item ≠ some tag) ∧ first.string? = some tag ∧
    Members.get? key old = some found ∧ found.same value = true

variable {tag key : String} {value entry : Value} {items rest : List Value}

theorem carries_cons_of_ne (htag : entryTag? entry ≠ some tag) :
    Carries tag key value (entry :: rest) ↔ Carries tag key value rest := by
  constructor
  · rintro ⟨front, first, old, more, back, found, heq, hfront, hfirst, hget, hsame⟩
    cases front with
    | nil =>
      obtain ⟨rfl, -⟩ := List.cons.inj heq
      exact absurd hfirst htag
    | cons item front =>
      obtain ⟨rfl, rfl⟩ := List.cons.inj heq
      exact ⟨front, first, old, more, back, found, rfl,
        fun i hi => hfront i (List.mem_cons_of_mem _ hi), hfirst, hget, hsame⟩
  · rintro ⟨front, first, old, more, back, found, rfl, hfront, hfirst, hget, hsame⟩
    exact ⟨entry :: front, first, old, more, back, found, rfl,
      List.forall_mem_cons.2 ⟨htag, hfront⟩, hfirst, hget, hsame⟩

theorem carries_cons_of_eq (htag : entryTag? entry = some tag) :
    Carries tag key value (entry :: rest) ↔
      ∃ first old more found, entry = .array (first :: .object old :: more) ∧
        Members.get? key old = some found ∧ found.same value = true := by
  constructor
  · rintro ⟨front, first, old, more, back, found, heq, hfront, hfirst, hget, hsame⟩
    cases front with
    | nil =>
      obtain ⟨rfl, -⟩ := List.cons.inj heq
      exact ⟨first, old, more, found, rfl, hget, hsame⟩
    | cons item front =>
      obtain ⟨rfl, -⟩ := List.cons.inj heq
      exact absurd htag (hfront entry (by simp))
  · rintro ⟨first, old, more, found, rfl, hget, hsame⟩
    exact ⟨[], first, old, more, rest, found, rfl, by simp, htag, hget, hsame⟩

/-- An entry has options that others are put over, or is replaced. -/
theorem withOptions_cases (tag : String) (entry : Value) :
    (∃ first old more, entry = .array (first :: .object old :: more)) ∨
      (∀ first old more, entry ≠ .array (first :: .object old :: more)) ∧
        ∀ options, withOptions tag options entry = taggedEntry tag options := by
  by_cases hobject : ∃ first old more, entry = .array (first :: .object old :: more)
  · exact .inl hobject
  · refine .inr ⟨fun first old more h => hobject ⟨first, old, more, h⟩, fun options => ?_⟩
    unfold withOptions
    split
    · next first old more => exact absurd ⟨first, old, more, rfl⟩ hobject
    · rfl

/-- Putting an option to an entry leaves the entry the same if it has the option. -/
theorem same_withOptions_iff (hkeys : entry.WellKeyed) :
    entry.same (withOptions tag [(key, value)] entry) = true ↔
      ∃ first old more found, entry = .array (first :: .object old :: more) ∧
        Members.get? key old = some found ∧ found.same value = true := by
  rcases withOptions_cases tag entry with ⟨first, old, more, rfl⟩ | ⟨hne, hnew⟩
  · have hput : withOptions tag [(key, value)] (.array (first :: .object old :: more)) =
        .array (first :: .object (Members.insert key value old) :: more) := rfl
    obtain ⟨hfirst, hold, hmore⟩ := hkeys
    rw [hput, Value.same, Value.sameItems, Value.sameItems, Value.same_refl first hfirst,
      Value.sameItems_refl more hmore, Bool.true_and, Bool.and_true, Value.same_insert_iff hold]
    constructor
    · rintro ⟨found, hget, hsame⟩
      exact ⟨first, old, more, found, rfl, hget, hsame⟩
    · rintro ⟨first', old', more', found, heq, hget, hsame⟩
      simp only [Value.array.injEq, List.cons.injEq, Value.object.injEq] at heq
      obtain ⟨rfl, rfl, rfl⟩ := heq
      exact ⟨found, hget, hsame⟩
  · rw [hnew]
    constructor
    · intro h
      cases entry with
      | array items =>
        rcases items with _ | ⟨first, _ | ⟨second, more⟩⟩
        · cases h
        · have := length_eq_of_sameItems h
          cases this
        · cases second with
          | object old => exact absurd rfl (hne first old more)
          | _ => simp [taggedEntry, Value.same, Value.sameItems] at h
      | _ => cases h
    · rintro ⟨first, old, more, -, heq, -⟩
      exact absurd heq (hne first old more)

/-- Putting an option to a tag leaves a list the same in which the tag has the option. -/
theorem done_upsert_iff (hkeys : Value.ItemsWellKeyed items) :
    Value.sameItems items (upsert tag [(key, value)] items) = true ↔
      Carries tag key value items := by
  induction items with
  | nil =>
    constructor
    · intro h
      cases h
    · rintro ⟨front, first, old, more, back, found, heq, -⟩
      simp at heq
  | cons entry rest ih =>
    obtain ⟨hentry, hrest⟩ := hkeys
    rw [upsert]
    split_ifs with htag
    · rw [carries_cons_of_eq htag, Value.sameItems, Value.sameItems_refl rest hrest, Bool.and_true,
        same_withOptions_iff hentry]
    · rw [carries_cons_of_ne htag, Value.sameItems, Value.same_refl entry hentry, Bool.true_and,
        ih hrest]

/-! ### Edits that are done once applied -/

/-- The items of a list in a config: their objects have every key once, and what is nested in a
config is nested less deep in a list of it. -/
def Listed (p : Binary64 → Prop) (items : List Value) : Prop :=
  ∀ item ∈ items, item.Shaped (Json.maxDepth - 2) p

theorem Listed.wellKeyed {p : Binary64 → Prop} (h : Listed p items) :
    Value.ItemsWellKeyed items :=
  Value.itemsWellKeyed_iff.2 fun item hitem => (h item hitem).wellKeyed

/-- An edit that keeps the shape of the list it changes, is done once it was applied, and stays done
when floating-point numbers change. -/
structure Settling (edit : ConfigEdit) : Prop where
  listed : ∀ {p items}, Listed p items → Listed p (edit.change items)
  again : ∀ {p items}, Listed p items →
    Value.sameItems (edit.change items) (edit.change (edit.change items)) = true
  mapFloats : ∀ {p q items} (f), Listed p items → Listed q (Value.itemsMapFloats f items) →
    Value.sameItems items (edit.change items) = true →
    Value.sameItems (Value.itemsMapFloats f items)
      (edit.change (Value.itemsMapFloats f items)) = true

/-- The first edit stays done when the second one is applied to the same list. -/
def KeptBy (edit other : ConfigEdit) : Prop :=
  ∀ p items, Listed p items → Listed p (other.change items) →
    Value.sameItems items (edit.change items) = true →
    Value.sameItems (other.change items) (edit.change (other.change items)) = true

theorem entryTag?_mapFloats (f : Binary64 → Binary64) (entry : Value) :
    entryTag? (entry.mapFloats f) = entryTag? entry := by
  have hstring : ∀ value : Value, (value.mapFloats f).string? = value.string? := by
    intro value
    cases value with
    | number n => cases n <;> rfl
    | _ => rfl
  cases entry with
  | array items =>
    cases items with
    | nil => rfl
    | cons first rest => exact hstring first
  | number n => cases n <;> rfl
  | _ => rfl

theorem hasTag_mapFloats (f : Binary64 → Binary64) (h : HasTag tag items) :
    HasTag tag (Value.itemsMapFloats f items) := by
  obtain ⟨item, hitem, htag⟩ := h
  rw [Value.itemsMapFloats_eq_map]
  exact ⟨item.mapFloats f, List.mem_map_of_mem hitem, by rw [entryTag?_mapFloats, htag]⟩

theorem listed_ensure {p : Binary64 → Prop} (h : Listed p items) (tags : List String) :
    Listed p (tags.foldl ensure items) := by
  obtain ⟨added, hadded, -, -⟩ := foldl_ensure tags items
  rw [hadded]
  intro item hitem
  rcases List.mem_append.1 hitem with hitem | hitem
  · exact h item hitem
  · obtain ⟨tag, -, rfl⟩ := List.mem_map.1 hitem
    exact ⟨Nat.zero_le _, trivial, trivial⟩

theorem settling_ensure (field : String) (tags : List String) (missing : MissingField) :
    Settling (ensureEntries field tags missing) where
  listed h := listed_ensure h tags
  again h := by
    rw [change_ensureEntries, change_ensureEntries,
      done_ensure_iff (listed_ensure h tags).wellKeyed]
    obtain ⟨added, hadded, htags, -⟩ := foldl_ensure tags _
    rw [hadded]
    exact htags
  mapFloats f h h' hdone := by
    rw [change_ensureEntries, done_ensure_iff h.wellKeyed] at hdone
    rw [change_ensureEntries, done_ensure_iff h'.wellKeyed]
    exact fun tag htag => hasTag_mapFloats f (hdone tag htag)

theorem shaped_taggedEntry {depth : Nat} {p : Binary64 → Prop} (hvalue : value.Shaped depth p) :
    (taggedEntry tag [(key, value)]).Shaped (depth + 2) p := by
  rw [taggedEntry, Value.shaped_array_iff]
  have hobject : (Value.object [(key, value)]).Shaped (depth + 1) p := by
    rw [Value.shaped_object_iff]
    simpa [Members.keys] using hvalue
  simp only [List.mem_cons, List.not_mem_nil, or_false, forall_eq_or_imp, forall_eq]
  exact ⟨⟨Nat.zero_le _, trivial, trivial⟩, hobject⟩

theorem shaped_withOptions {depth : Nat} {p : Binary64 → Prop} (hvalue : value.Shaped depth p)
    (hentry : entry.Shaped (depth + 2) p) :
    (withOptions tag [(key, value)] entry).Shaped (depth + 2) p := by
  unfold withOptions
  split
  · next first old more =>
    rw [Value.shaped_array_iff] at hentry ⊢
    have hold : (Value.object (Members.insert key value old)).Shaped (depth + 1) p :=
      Value.shaped_insert (hentry _ (by simp)) hvalue
    intro item hitem
    simp only [List.mem_cons] at hitem hentry
    rcases hitem with rfl | rfl | hitem
    · exact hentry _ (.inl rfl)
    · exact hold
    · exact hentry _ (.inr (.inr hitem))
  · exact shaped_taggedEntry hvalue

theorem listed_upsert {p : Binary64 → Prop} (hvalue : value.Shaped (Json.maxDepth - 4) p)
    (h : Listed p items) : Listed p (upsert tag [(key, value)] items) := by
  induction items with
  | nil =>
    rintro item hitem
    obtain rfl := List.mem_singleton.1 hitem
    exact shaped_taggedEntry hvalue
  | cons entry rest ih =>
    have hentry := h entry (by simp)
    have hrest : Listed p rest := fun item hitem => h item (List.mem_cons_of_mem _ hitem)
    rw [upsert]
    split_ifs
    · exact List.forall_mem_cons.2 ⟨shaped_withOptions hvalue hentry, hrest⟩
    · exact List.forall_mem_cons.2 ⟨hentry, ih hrest⟩

/-- The first entry with the tag has the option once it was put to it. -/
theorem carries_upsert (hvalue : value.WellKeyed) :
    Carries tag key value (upsert tag [(key, value)] items) := by
  have hsame : value.same value = true := Value.same_refl value hvalue
  have hentry : Carries tag key value [taggedEntry tag [(key, value)]] :=
    ⟨[], .string tag, [(key, value)], [], [], value, rfl, by simp, rfl, by simp [Members.get?], hsame⟩
  induction items with
  | nil => exact hentry
  | cons entry rest ih =>
    rw [upsert]
    split_ifs with htag
    · unfold withOptions
      split
      · next first old more =>
        refine ⟨[], first, Members.insert key value old, more, rest, value, rfl, by simp, htag, ?_,
          hsame⟩
        rw [Members.get?_insert, if_pos rfl]
      · exact (carries_cons_of_eq rfl).2 ((carries_cons_of_eq rfl).1 hentry)
    · exact (carries_cons_of_ne htag).2 ih

theorem carries_mapFloats (f : Binary64 → Binary64) (hvalue : value.Integral)
    (h : Carries tag key value items) : Carries tag key value (Value.itemsMapFloats f items) := by
  obtain ⟨front, first, old, more, back, found, rfl, hfront, hfirst, hget, hsame⟩ := h
  have hentry : (Value.array (first :: .object old :: more)).mapFloats f =
      .array (first.mapFloats f :: .object (Value.membersMapFloats f old) ::
        Value.itemsMapFloats f more) := rfl
  rw [Value.itemsMapFloats_eq_map, List.map_append, List.map_cons, hentry]
  refine ⟨_, _, _, _, _, found.mapFloats f, rfl, ?_, ?_, ?_, Value.same_mapFloats f _ _ hvalue hsame⟩
  · intro item hitem
    obtain ⟨old, hold, rfl⟩ := List.mem_map.1 hitem
    rw [entryTag?_mapFloats]
    exact hfront old hold
  · have := entryTag?_mapFloats f (.array (first :: .object old :: more))
    rw [hentry] at this
    exact this.trans hfirst
  · rw [Members.get?_membersMapFloats, hget]
    rfl

theorem settling_upsert (field tag key : String) {value : Value} (missing : MissingField)
    (hvalue : value.Shaped (Json.maxDepth - 4) fun _ => False) :
    Settling (upsertTagged field tag [(key, value)] missing) where
  listed := by
    intro p items h
    exact listed_upsert ⟨hvalue.nesting, hvalue.wellKeyed,
      Value.EveryFloat.mono (fun _ h => h.elim) _ hvalue.floats⟩ h
  again := by
    intro p items h
    have hlisted : Listed p (upsert tag [(key, value)] items) :=
      listed_upsert ⟨hvalue.nesting, hvalue.wellKeyed,
        Value.EveryFloat.mono (fun _ h => h.elim) _ hvalue.floats⟩ h
    rw [change_upsertTagged, change_upsertTagged, done_upsert_iff hlisted.wellKeyed]
    exact carries_upsert hvalue.wellKeyed
  mapFloats := by
    intro p q items f h h' hdone
    rw [change_upsertTagged, done_upsert_iff h.wellKeyed] at hdone
    rw [change_upsertTagged, done_upsert_iff h'.wellKeyed]
    exact carries_mapFloats f hvalue.floats hdone

/-! ### Two edits on one list -/

theorem upsert_keptBy_ensure (field tag key : String) (value : Value) (missing : MissingField)
    (field' : String) (tags : List String) (missing' : MissingField) :
    KeptBy (upsertTagged field tag [(key, value)] missing) (ensureEntries field' tags missing') := by
  intro p items h h' hdone
  rw [change_upsertTagged, done_upsert_iff h.wellKeyed] at hdone
  rw [change_upsertTagged, done_upsert_iff h'.wellKeyed]
  obtain ⟨added, hadded, -, -⟩ := foldl_ensure tags items
  obtain ⟨front, first, old, more, back, found, rfl, hfront, hfirst, hget, hsame⟩ := hdone
  rw [change_ensureEntries, hadded]
  exact ⟨front, first, old, more, back ++ added.map .string, found, by simp, hfront, hfirst, hget,
    hsame⟩

theorem entryTag?_withOptions {options : Members} (h : entryTag? entry = some tag) :
    entryTag? (withOptions tag options entry) = some tag := by
  unfold withOptions
  split
  · exact h
  · rfl

theorem hasTag_upsert {other : String} {options : Members} (h : HasTag tag items) :
    HasTag tag (upsert other options items) := by
  obtain ⟨item, hitem, htag⟩ := h
  induction items with
  | nil => cases hitem
  | cons entry rest ih =>
    rw [upsert]
    split_ifs with hother
    · have hnew : entryTag? (withOptions other options entry) = some other :=
        entryTag?_withOptions hother
      rcases List.mem_cons.1 hitem with rfl | hitem
      · rw [hother] at htag
        exact ⟨_, by simp, hnew.trans htag⟩
      · exact ⟨item, by simp [hitem], htag⟩
    · rcases List.mem_cons.1 hitem with rfl | hitem
      · exact ⟨item, by simp, htag⟩
      · obtain ⟨found, hfound, hfoundTag⟩ := ih hitem
        exact ⟨found, by simp [hfound], hfoundTag⟩

theorem ensure_keptBy_upsert (field : String) (tags : List String) (missing : MissingField)
    (field' tag : String) (options : Members) (missing' : MissingField) :
    KeptBy (ensureEntries field tags missing) (upsertTagged field' tag options missing') := by
  intro p items h h' hdone
  rw [change_ensureEntries, done_ensure_iff h.wellKeyed] at hdone
  rw [change_ensureEntries, done_ensure_iff h'.wellKeyed]
  exact fun tag htag => hasTag_upsert (hdone tag htag)

/-! ### The config after an edit -/

variable {edit other : ConfigEdit} {members : Members} {p q : Binary64 → Prop}

theorem listed_of_get? (h : (Value.object members).Shaped Json.maxDepth p)
    (hget : Members.get? key members = some (.array items)) : Listed p items := by
  have hmembers : (Value.object members).Shaped (Json.maxDepth - 1 + 1) p := h
  have hitems : (Value.array items).Shaped (Json.maxDepth - 2 + 1) p :=
    (Value.shaped_object_iff.1 hmembers).2 _ (Members.mem_of_get? hget)
  exact Value.shaped_array_iff.1 hitems

theorem listed_of_hasList (h : (Value.object members).Shaped Json.maxDepth p)
    (hlist : edit.HasList members items) : Listed p items := by
  rcases hlist with hget | ⟨-, -, rfl⟩
  · exact listed_of_get? h hget
  · simp [Listed]

theorem shaped_next (hsettling : edit.Settling) (h : (Value.object members).Shaped Json.maxDepth p)
    (hlist : edit.HasList members items) :
    (Value.object (edit.next members items)).Shaped Json.maxDepth p := by
  have hmembers : (Value.object members).Shaped (Json.maxDepth - 1 + 1) p := h
  have hchanged : (Value.array (edit.change items)).Shaped (Json.maxDepth - 2 + 1) p :=
    Value.shaped_array_iff.2 (hsettling.listed (listed_of_hasList h hlist))
  exact Value.shaped_insert hmembers hchanged

theorem done_next (hsettling : edit.Settling) (h : (Value.object members).Shaped Json.maxDepth p)
    (hlist : edit.HasList members items) : edit.Done (edit.next members items) := by
  refine ⟨edit.change items, ?_, hsettling.again (listed_of_hasList h hlist)⟩
  rw [next, Members.get?_insert, if_pos rfl]

/-- An edit stays done when another one is applied to another list, or to the same one if it keeps
the first edit. -/
theorem done_next_of_done (hsettling : other.Settling)
    (hkept : edit.field = other.field → edit.KeptBy other)
    (h : (Value.object members).Shaped Json.maxDepth p) (hlist : other.HasList members items)
    (hdone : edit.Done members) : edit.Done (other.next members items) := by
  obtain ⟨found, hget, hsame⟩ := hdone
  by_cases hfield : edit.field = other.field
  · have heq : found = items := by
      rcases hlist with hlist | ⟨hnone, -, -⟩
      · rw [← hfield, hget] at hlist
        exact Value.array.inj (Option.some.inj hlist)
      · rw [← hfield, hget] at hnone
        cases hnone
    subst heq
    have hlisted := listed_of_hasList h hlist
    refine ⟨other.change found, ?_, hkept hfield p found hlisted (hsettling.listed hlisted) hsame⟩
    rw [next, Members.get?_insert, if_pos hfield.symm]
  · refine ⟨found, ?_, hsame⟩
    rw [next, Members.get?_insert, if_neg (Ne.symm hfield), hget]

theorem done_mapFloats (hsettling : edit.Settling) (f : Binary64 → Binary64)
    (h : (Value.object members).Shaped Json.maxDepth p)
    (h' : (Value.object (Value.membersMapFloats f members)).Shaped Json.maxDepth q)
    (hdone : edit.Done members) : edit.Done (Value.membersMapFloats f members) := by
  obtain ⟨items, hget, hsame⟩ := hdone
  have hget' : Members.get? edit.field (Value.membersMapFloats f members) =
      some (.array (Value.itemsMapFloats f items)) := by
    rw [Members.get?_membersMapFloats, hget]
    rfl
  exact ⟨_, hget', hsettling.mapFloats f (listed_of_get? h hget) (listed_of_get? h' hget') hsame⟩

theorem hasList_mapFloats {f : Binary64 → Binary64}
    (h : edit.HasList (Value.membersMapFloats f members) items) :
    ∃ old, edit.HasList members old := by
  rcases h with hget | ⟨hnone, hcreate, -⟩
  · rw [Members.get?_membersMapFloats] at hget
    obtain ⟨value, hvalue, heq⟩ := Option.map_eq_some_iff.1 hget
    cases value with
    | array old => exact ⟨old, .inl hvalue⟩
    | number n => cases n <;> cases heq
    | _ => cases heq
  · rw [Members.get?_membersMapFloats, Option.map_eq_none_iff] at hnone
    exact ⟨[], .inr ⟨hnone, hcreate, rfl⟩⟩

theorem hasList_next_iff {old : List Value} (hfield : edit.field ≠ other.field) :
    edit.HasList (other.next members old) items ↔ edit.HasList members items := by
  unfold HasList next
  rw [Members.get?_insert, if_neg (Ne.symm hfield)]

end ConfigEdit

end ProjectSetup
