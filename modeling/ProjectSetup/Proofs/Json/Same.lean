import ProjectSetup.Proofs.Json.Shape

/-!
# Values that are the same

A value is the same as itself if its objects have every key once.  An object is the same as itself
with a member put in if that member is there already with the same value, and what is the same as a
value without floating-point numbers has none either.

* `same_refl`, `same_insert_iff`, `same_mapFloats`
-/

namespace ProjectSetup.Json

namespace Members

theorem get?_of_mem {members : Members} {key : String} {value : Value}
    (hkeys : members.keys.Nodup) (h : (key, value) ∈ members) : get? key members = some value := by
  induction members with
  | nil => cases h
  | cons m rest ih =>
    obtain ⟨k, v⟩ := m
    rw [keys, List.map_cons, List.nodup_cons] at hkeys
    rw [get?]
    rcases List.mem_cons.1 h with heq | hrest
    · obtain ⟨rfl, rfl⟩ := Prod.mk.inj heq
      rw [if_pos rfl]
    · have hne : k ≠ key := by
        rintro rfl
        exact hkeys.1 (List.mem_map.2 ⟨_, hrest, rfl⟩)
      rw [if_neg hne]
      exact ih hkeys.2 hrest

theorem length_insert {members : Members} {key : String} {value : Value} :
    (insert key value members).length =
      if key ∈ members.keys then members.length else members.length + 1 := by
  have hlength : ∀ ms : Members, ms.keys.length = ms.length := fun ms => List.length_map _
  rw [← hlength, keys_insert]
  split_ifs
  · exact hlength members
  · rw [List.length_append, hlength]
    rfl

theorem get?_membersMapFloats {members : Members} {key : String} (f : Binary64 → Binary64) :
    get? key (Value.membersMapFloats f members) = (get? key members).map (Value.mapFloats f) := by
  induction members with
  | nil => rfl
  | cons m rest ih =>
    obtain ⟨k, v⟩ := m
    rw [Value.membersMapFloats, get?, get?]
    split_ifs
    · rfl
    · exact ih

end Members

namespace Value

theorem sameMembers_iff {members other : Members} :
    sameMembers members other = true ↔
      ∀ m ∈ members, ∃ found, Members.get? m.1 other = some found ∧ same m.2 found = true := by
  induction members with
  | nil => simp [sameMembers]
  | cons m rest ih =>
    obtain ⟨k, v⟩ := m
    rw [sameMembers, Bool.and_eq_true, ih, List.forall_mem_cons]
    cases Members.get? k other <;> simp

/-! ### The same as itself -/

mutual

theorem same_refl : ∀ value : Value, value.WellKeyed → same value value = true
  | null, _ => rfl
  | bool _, _ => by simp [same]
  | number (.natural _ _), _ => by simp [same, Number.same]
  | number (.negative _ _), _ => by simp [same, Number.same]
  | number (.floating _), _ => by simp [same, Number.same, Binary64.same]
  | string _, _ => by simp [same]
  | array items, h => sameItems_refl items h
  | object members, h => by
    rw [same, Bool.and_eq_true]
    exact ⟨beq_self_eq_true _, sameMembers_refl members h.1 h.2 fun m hm => hm⟩

theorem sameItems_refl : ∀ items : List Value, ItemsWellKeyed items → sameItems items items = true
  | [], _ => rfl
  | item :: rest, h => by
    rw [sameItems, same_refl item h.1, sameItems_refl rest h.2]
    rfl

theorem sameMembers_refl {whole : Members} : ∀ members : List (String × Value),
    (Members.keys whole).Nodup → MembersWellKeyed members → (∀ m ∈ members, m ∈ whole) →
    sameMembers members whole = true
  | [], _, _, _ => rfl
  | (key, value) :: rest, hkeys, h, hmem => by
    have hget : Members.get? key whole = some value :=
      Members.get?_of_mem hkeys (hmem _ (by simp))
    rw [sameMembers, hget]
    dsimp only
    rw [same_refl value h.1,
      sameMembers_refl rest hkeys h.2 fun m hm => hmem m (List.mem_cons_of_mem _ hm)]
    rfl

end

/-- An object is the same with a member put in if that member is there with the same value. -/
theorem same_insert_iff {members : Members} {key : String} {value : Value}
    (h : (object members).WellKeyed) :
    same (object members) (object (Members.insert key value members)) = true ↔
      ∃ old, Members.get? key members = some old ∧ same old value = true := by
  rw [same, Bool.and_eq_true, beq_iff_eq, Members.length_insert, sameMembers_iff]
  constructor
  · rintro ⟨hlength, hsame⟩
    have hkey : key ∈ members.keys := by
      by_contra hkey
      rw [if_neg hkey] at hlength
      omega
    obtain ⟨old, hget⟩ := Members.exists_get?_of_mem_keys hkey
    obtain ⟨found, hfound, hsame⟩ := hsame _ (Members.mem_of_get? hget)
    rw [Members.get?_insert, if_pos rfl] at hfound
    obtain rfl := Option.some.inj hfound
    exact ⟨old, hget, hsame⟩
  · rintro ⟨old, hget, hsame⟩
    rw [if_pos (Members.mem_keys_of_get? hget)]
    refine ⟨rfl, fun m hm => ?_⟩
    have hmember := Members.get?_of_mem h.1 hm
    rw [Members.get?_insert]
    split_ifs with hk
    · subst hk
      rw [hget] at hmember
      obtain rfl := Option.some.inj hmember
      exact ⟨value, rfl, hsame⟩
    · exact ⟨m.2, hmember, same_refl _ (membersWellKeyed_iff.1 h.2 m hm)⟩

/-! ### Values without floating-point numbers -/

mutual

/-- What is the same as a value without floating-point numbers stays so. -/
theorem same_mapFloats (f : Binary64 → Binary64) : ∀ a b : Value, b.Integral → same a b = true →
    same (a.mapFloats f) b = true
  | null, _, _, h => h
  | bool _, _, _, h => h
  | number (.natural _ _), _, _, h => h
  | number (.negative _ _), _, _, h => h
  | number (.floating x), b, hb, h => by
    cases b with
    | number n =>
      cases n with
      | floating y => exact hb.elim
      | natural => cases h
      | negative => cases h
    | _ => cases h
  | string _, _, _, h => h
  | array as, b, hb, h => by
    cases b with
    | array bs => exact sameItems_mapFloats f as bs hb h
    | _ => cases h
  | object ms, b, hb, h => by
    cases b with
    | object others =>
      rw [same, Bool.and_eq_true, beq_iff_eq] at h
      rw [mapFloats, same, Bool.and_eq_true, beq_iff_eq, membersMapFloats_eq_map, List.length_map,
        ← membersMapFloats_eq_map]
      exact ⟨h.1, sameMembers_mapFloats f ms others hb h.2⟩
    | _ => cases h

theorem sameItems_mapFloats (f : Binary64 → Binary64) : ∀ as bs : List Value,
    ItemsEveryFloat (fun _ => False) bs → sameItems as bs = true →
    sameItems (itemsMapFloats f as) bs = true
  | [], _, _, h => h
  | a :: as, [], _, h => by cases h
  | a :: as, b :: bs, hb, h => by
    rw [sameItems, Bool.and_eq_true] at h
    rw [itemsMapFloats, sameItems, same_mapFloats f a b hb.1 h.1,
      sameItems_mapFloats f as bs hb.2 h.2]
    rfl

theorem sameMembers_mapFloats (f : Binary64 → Binary64) : ∀ (ms : List (String × Value))
    (others : Members), MembersEveryFloat (fun _ => False) others → sameMembers ms others = true →
    sameMembers (membersMapFloats f ms) others = true
  | [], _, _, _ => rfl
  | (key, value) :: rest, others, hothers, h => by
    rw [sameMembers, Bool.and_eq_true] at h
    rw [membersMapFloats, sameMembers, sameMembers_mapFloats f rest others hothers h.2]
    cases hget : Members.get? key others with
    | none =>
      rw [hget] at h
      cases h.1
    | some found =>
      rw [hget] at h
      have hfound := membersEveryFloat_iff.1 hothers _ (Members.mem_of_get? hget)
      dsimp only
      rw [same_mapFloats f value found hfound h.1]
      rfl

end

end Value

end ProjectSetup.Json
