import Mathlib.Data.List.Basic
import ProjectSetup.ConfigEdit

/-!
# Tags of the entries of a list

An entry of a list has a tag if it is the tag or a list that starts with it.  Tags that are put into
a list one by one add those that no entry has: each of them once, in the order in which they first
come.

* `entryTag?_eq_some_iff`: what the tag of an entry is.
* `exists_missingTags`: what the tags that are put in add.
-/

namespace ProjectSetup

open Json (Value)

namespace ConfigEdit

variable {tag : String} {tags : List String} {entry : Value} {items : List Value}

/-! ### Entries with a tag -/

/-- The entry is the tag, or a list that starts with it. -/
inductive Tagged (tag : String) : Value → Prop where
  | bare : Tagged tag (.string tag)
  | headed (more : List Value) : Tagged tag (.array (.string tag :: more))

theorem entryTag?_eq_some_iff : entryTag? entry = some tag ↔ Tagged tag entry := by
  constructor
  · intro h
    cases entry with
    | string text => exact Option.some.inj h ▸ .bare
    | array items =>
      cases items with
      | nil => cases h
      | cons first more =>
        cases first with
        | string text => exact Option.some.inj h ▸ .headed more
        | _ => cases h
    | _ => cases h
  · intro h
    cases h with
    | bare => rfl
    | headed more => rfl

/-- The list has an entry with the tag. -/
def HasTag (tag : String) (items : List Value) : Prop :=
  ∃ item ∈ items, entryTag? item = some tag

theorem hasTag_iff : HasTag tag items ↔ ∃ item ∈ items, Tagged tag item := by
  simp only [HasTag, entryTag?_eq_some_iff]

theorem not_hasTag_iff : ¬ HasTag tag items ↔ ∀ item ∈ items, ¬ Tagged tag item := by
  rw [hasTag_iff]
  simp

theorem tagged_string_iff {other : String} : Tagged tag (.string other) ↔ tag = other := by
  constructor
  · intro h
    cases h
    rfl
  · rintro rfl
    exact .bare

theorem HasTag.append {tag : String} {items : List Value} (h : HasTag tag items)
    (more : List Value) : HasTag tag (items ++ more) := by
  obtain ⟨item, hitem, htag⟩ := h
  exact ⟨item, List.mem_append_left _ hitem, htag⟩

/-- No entry of a list has the tag, or there is a first one that has it. -/
theorem exists_first_tagged (tag : String) (items : List Value) :
    (∀ item ∈ items, ¬ Tagged tag item) ∨
      ∃ front entry back, items = front ++ entry :: back ∧ (∀ item ∈ front, ¬ Tagged tag item) ∧
        Tagged tag entry := by
  cases hfind : items.find? fun item => entryTag? item == some tag with
  | none =>
    refine .inl fun item hitem htag => ?_
    have := List.find?_eq_none.1 hfind item hitem
    exact this (beq_iff_eq.2 (entryTag?_eq_some_iff.2 htag))
  | some entry =>
    obtain ⟨htag, front, back, rfl, hfront⟩ := List.find?_eq_some_iff_append.1 hfind
    refine .inr ⟨front, entry, back, rfl, fun item hitem h => ?_,
      entryTag?_eq_some_iff.1 (beq_iff_eq.1 htag)⟩
    have := hfront item hitem
    rw [entryTag?_eq_some_iff.2 h, beq_self_eq_true] at this
    cases this

/-! ### Tags that are put in -/

theorem ensure_eq (items : List Value) (tag : String) :
    (HasTag tag items ∧ ensure items tag = items) ∨
      (¬ HasTag tag items ∧ ensure items tag = items ++ [.string tag]) := by
  have hany : (items.any fun entry => entryTag? entry == some tag) = true ↔ HasTag tag items := by
    simp [HasTag, List.any_eq_true]
  rw [ensure]
  split_ifs with h
  · exact .inl ⟨hany.1 h, rfl⟩
  · exact .inr ⟨fun htag => h (hany.2 htag), rfl⟩

/-- The tags that no entry has, each of them once, in the order in which they first come. -/
structure MissingTags (tags : List String) (items : List Value) (added : List String) : Prop where
  mem_iff : ∀ tag, tag ∈ added ↔ tag ∈ tags ∧ ∀ item ∈ items, ¬ Tagged tag item
  ordered : added.Pairwise fun a b => tags.idxOf a < tags.idxOf b

theorem MissingTags.ordered_cons {added : List String} (h : MissingTags tags items added)
    (hne : ∀ other ∈ added, tag ≠ other) :
    added.Pairwise fun a b => (tag :: tags).idxOf a < (tag :: tags).idxOf b := by
  refine h.ordered.imp_of_mem fun ha hb hlt => ?_
  rw [List.idxOf_cons_ne _ (hne _ ha), List.idxOf_cons_ne _ (hne _ hb)]
  exact Nat.succ_lt_succ hlt

/-- A tag that has an entry changes nothing of what is missing. -/
theorem MissingTags.cons_of_hasTag {added : List String} (h : MissingTags tags items added)
    (htag : HasTag tag items) : MissingTags (tag :: tags) items added := by
  have hne : ∀ other ∈ added, tag ≠ other := by
    rintro other hother rfl
    exact not_hasTag_iff.2 ((h.mem_iff tag).1 hother).2 htag
  constructor
  · intro other
    rw [h.mem_iff, List.mem_cons]
    constructor
    · exact fun ⟨hmem, hnone⟩ => ⟨.inr hmem, hnone⟩
    · rintro ⟨rfl | hmem, hnone⟩
      · exact absurd htag (not_hasTag_iff.2 hnone)
      · exact ⟨hmem, hnone⟩
  · exact h.ordered_cons hne

/-- A tag that has no entry is the first one that is missing. -/
theorem MissingTags.cons_of_not_hasTag {added : List String}
    (h : MissingTags tags (items ++ [.string tag]) added) (htag : ¬ HasTag tag items) :
    MissingTags (tag :: tags) items (tag :: added) := by
  have hmem : ∀ other, other ∈ added ↔
      other ∈ tags ∧ (∀ item ∈ items, ¬ Tagged other item) ∧ other ≠ tag := by
    intro other
    rw [h.mem_iff, List.forall_mem_append, List.forall_mem_singleton, tagged_string_iff]
  have hne : ∀ other ∈ added, tag ≠ other := fun other hother => Ne.symm ((hmem other).1 hother).2.2
  constructor
  · intro other
    rw [List.mem_cons, List.mem_cons, hmem]
    by_cases hother : other = tag
    · subst hother
      simpa using not_hasTag_iff.1 htag
    · simp [hother]
  · rw [List.pairwise_cons]
    constructor
    · intro other hother
      rw [List.idxOf_cons_self, List.idxOf_cons_ne _ (hne other hother)]
      exact Nat.succ_pos _
    · exact h.ordered_cons hne

/-- Putting in tags one by one adds those that are missing. -/
theorem exists_missingTags (tags : List String) (items : List Value) :
    ∃ added, MissingTags tags items added ∧
      tags.foldl ensure items = items ++ added.map .string := by
  induction tags generalizing items with
  | nil => exact ⟨[], ⟨by simp, .nil⟩, by simp⟩
  | cons tag tags ih =>
    rw [List.foldl_cons]
    rcases ensure_eq items tag with ⟨htag, heq⟩ | ⟨htag, heq⟩
    · obtain ⟨added, hadded, hfold⟩ := ih items
      rw [heq]
      exact ⟨added, hadded.cons_of_hasTag htag, hfold⟩
    · obtain ⟨added, hadded, hfold⟩ := ih (items ++ [.string tag])
      refine ⟨tag :: added, hadded.cons_of_not_hasTag htag, ?_⟩
      rw [heq, hfold, List.map_cons, List.append_assoc, List.singleton_append]

theorem MissingTags.exists_tagged {added : List String} (h : MissingTags tags items added) :
    ∀ tag ∈ tags, ∃ item ∈ items ++ added.map .string, Tagged tag item := by
  intro tag htag
  by_cases hhas : HasTag tag items
  · exact hasTag_iff.1 (hhas.append _)
  · have hmem : tag ∈ added := (h.mem_iff tag).2 ⟨htag, not_hasTag_iff.1 hhas⟩
    exact ⟨.string tag, List.mem_append_right _ (List.mem_map_of_mem hmem), .bare⟩

theorem MissingTags.eq_nil {added : List String} (h : MissingTags tags items added)
    (htags : ∀ tag ∈ tags, ∃ item ∈ items, Tagged tag item) : added = [] := by
  refine List.eq_nil_iff_forall_not_mem.2 fun tag hmem => ?_
  obtain ⟨htag, hnone⟩ := (h.mem_iff tag).1 hmem
  obtain ⟨item, hitem, htagged⟩ := htags tag htag
  exact hnone item hitem htagged

/-- Putting in tags adds strings at the end: none if all tags are there. -/
theorem foldl_ensure (tags : List String) (items : List Value) :
    ∃ added : List String, tags.foldl ensure items = items ++ added.map .string ∧
      (∀ tag ∈ tags, HasTag tag (items ++ added.map .string)) ∧
      (added = [] ↔ ∀ tag ∈ tags, HasTag tag items) := by
  obtain ⟨added, hadded, hfold⟩ := exists_missingTags tags items
  have htags : ∀ tag ∈ tags, HasTag tag (items ++ added.map .string) :=
    fun tag htag => hasTag_iff.2 (hadded.exists_tagged tag htag)
  refine ⟨added, hfold, htags, ?_, ?_⟩
  · rintro rfl
    simpa using htags
  · exact fun h => hadded.eq_nil fun tag htag => hasTag_iff.1 (h tag htag)

end ConfigEdit

end ProjectSetup
