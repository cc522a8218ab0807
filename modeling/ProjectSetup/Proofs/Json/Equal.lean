import Mathlib.Data.List.Forall2
import Mathlib.Data.List.Perm.Subperm
import ProjectSetup.Proofs.Json.Same

/-!
# Equal JSON values

Two JSON values are equal if they differ only in the order of the members of objects: what is in
the same place of two lists is equal, two objects have the same keys, and under each key what is
equal.  Numbers are equal within their kind, and a floating-point zero is equal to the other one.

* `Equal.refl`, `Equal.symm`, `Equal.trans`: it is an equivalence.
* `same_iff_equal`: it is what the comparison of values finds out, for values whose objects have
  every key once.
-/

namespace ProjectSetup.Json

theorem Number.same_comm (m n : Number) : m.same n = n.same m := by
  cases m <;> cases n <;> simp [Number.same, Binary64.same, Bool.beq_comm, Bool.and_comm]

theorem Number.same_trans {k m n : Number} (h : k.same m = true) (h' : m.same n = true) :
    k.same n = true := by
  cases k <;> cases m <;> cases n <;> simp_all only [Number.same, beq_iff_eq, reduceCtorEq]
  next x y z =>
    simp only [Binary64.same, Bool.or_eq_true, beq_iff_eq, Bool.and_eq_true] at h h' ⊢
    rcases h with rfl | ⟨hx, hy⟩
    · exact h'
    · rcases h' with rfl | ⟨-, hz⟩
      · exact .inr ⟨hx, hy⟩
      · exact .inr ⟨hx, hz⟩

namespace Value

/-- The values are equal as JSON values. -/
inductive Equal : Value → Value → Prop where
  | null : Equal null null
  | bool (value : Bool) : Equal (bool value) (bool value)
  | number {m n : Number} (h : m.same n = true) : Equal (number m) (number n)
  | string (text : String) : Equal (string text) (string text)
  | array {as bs : List Value} (hlength : as.length = bs.length)
      (hitems : ∀ (i : Nat) (a b : Value), as[i]? = some a → bs[i]? = some b → Equal a b) :
      Equal (array as) (array bs)
  | object {as bs : Members} (hkeys : ∀ key, key ∈ as.keys ↔ key ∈ bs.keys)
      (hvalues : ∀ (key : String) (a b : Value), Members.get? key as = some a →
        Members.get? key bs = some b → Equal a b) :
      Equal (object as) (object bs)

/-! ### An equivalence -/

mutual

@[refl]
theorem Equal.refl : ∀ value : Value, Equal value value
  | .null => .null
  | .bool value => .bool value
  | .number n => .number (by cases n <;> simp [Number.same, Binary64.same])
  | .string text => .string text
  | .array items => .array rfl fun i a b ha hb => by
    rw [ha] at hb
    exact Option.some.inj hb ▸ Equal.refl_items items a (List.mem_of_getElem? ha)
  | .object members => .object (fun _ => Iff.rfl) fun key a b ha hb => by
    rw [ha] at hb
    exact Option.some.inj hb ▸ Equal.refl_members members _ (Members.mem_of_get? ha)

theorem Equal.refl_items : ∀ items : List Value, ∀ item ∈ items, Equal item item
  | [], _, h => by cases h
  | first :: rest, item, h => by
    rcases List.mem_cons.1 h with heq | h
    · exact heq ▸ Equal.refl first
    · exact Equal.refl_items rest item h

theorem Equal.refl_members : ∀ members : List (String × Value), ∀ m ∈ members, Equal m.2 m.2
  | [], _, h => by cases h
  | (key, value) :: rest, m, h => by
    rcases List.mem_cons.1 h with heq | h
    · exact heq ▸ Equal.refl value
    · exact Equal.refl_members rest m h

end

@[symm]
theorem Equal.symm {a b : Value} (h : Equal a b) : Equal b a := by
  induction h with
  | null => exact .null
  | bool value => exact .bool value
  | number h => exact .number (by rwa [Number.same_comm])
  | string text => exact .string text
  | array hlength _ ih => exact .array hlength.symm fun i b a hb ha => ih i a b ha hb
  | object hkeys _ ih =>
    exact .object (fun key => (hkeys key).symm) fun key b a hb ha => ih key a b ha hb

@[trans]
theorem Equal.trans {a b c : Value} (h : Equal a b) (h' : Equal b c) : Equal a c := by
  induction h generalizing c with
  | null => exact h'
  | bool value => exact h'
  | number h =>
    cases h' with
    | number h' => exact .number (Number.same_trans h h')
  | string text => exact h'
  | @array as bs hlength _ ih =>
    cases h' with
    | @array _ cs hlength' hitems' =>
      refine .array (hlength.trans hlength') fun i a c ha hc => ?_
      have hi : i < bs.length := hlength ▸ (List.getElem?_eq_some_iff.1 ha).1
      have hb : bs[i]? = some bs[i] := List.getElem?_eq_getElem hi
      exact ih i a bs[i] ha hb (hitems' i bs[i] c hb hc)
  | object hkeys _ ih =>
    cases h' with
    | object hkeys' hvalues' =>
      refine .object (fun key => (hkeys key).trans (hkeys' key)) fun key a c ha hc => ?_
      obtain ⟨b, hb⟩ := Members.exists_get?_of_mem_keys ((hkeys key).1 (Members.mem_keys_of_get? ha))
      exact ih key a b ha hb (hvalues' key b c hb hc)

/-! ### Lists and objects -/

/-- Two lists are equal if they are item by item. -/
theorem equal_array_iff {as bs : List Value} :
    Equal (array as) (array bs) ↔ List.Forall₂ Equal as bs := by
  rw [List.forall₂_iff_get]
  constructor
  · intro h
    cases h with
    | array hlength hitems =>
      exact ⟨hlength, fun i ha hb => hitems i _ _ (by simp [ha]) (by simp [hb])⟩
  · rintro ⟨hlength, hitems⟩
    refine .array hlength fun i a b ha hb => ?_
    obtain ⟨hia, rfl⟩ := List.getElem?_eq_some_iff.1 ha
    obtain ⟨hib, rfl⟩ := List.getElem?_eq_some_iff.1 hb
    exact hitems i hia hib

theorem isNone_iff_of_rel {a? b? : Option Value} (h : Option.Rel Equal a? b?) :
    a? = none ↔ b? = none := by
  cases h with
  | some _ => exact iff_of_false (by simp) (by simp)
  | none => exact Iff.rfl

/-- Two objects are equal if what they have under each key is. -/
theorem equal_object_iff {as bs : Members} :
    Equal (object as) (object bs) ↔
      ∀ key, Option.Rel Equal (Members.get? key as) (Members.get? key bs) := by
  constructor
  · intro h key
    cases h with
    | object hkeys hvalues =>
      cases ha : Members.get? key as with
      | none =>
        have hb : Members.get? key bs = none :=
          Members.get?_eq_none_iff.2 fun h => Members.get?_eq_none_iff.1 ha ((hkeys key).2 h)
        rw [hb]
        exact .none
      | some a =>
        obtain ⟨b, hb⟩ := Members.exists_get?_of_mem_keys ((hkeys key).1 (Members.mem_keys_of_get? ha))
        rw [hb]
        exact .some (hvalues key a b ha hb)
  · intro h
    refine .object (fun key => ?_) fun key a b ha hb => ?_
    · rw [← not_iff_not, ← Members.get?_eq_none_iff, ← Members.get?_eq_none_iff]
      exact isNone_iff_of_rel (h key)
    · have hrel := h key
      rw [ha, hb] at hrel
      cases hrel with
      | some hequal => exact hequal

theorem equal_of_get?_eq {as bs : Members}
    (h : ∀ key, Members.get? key as = Members.get? key bs) : Equal (object as) (object bs) := by
  refine equal_object_iff.2 fun key => ?_
  rw [h key]
  cases Members.get? key bs with
  | none => exact .none
  | some value => exact .some (Equal.refl value)

/-! ### What the comparison finds out -/

theorem mem_keys_iff_of_length_eq {as bs : Members} (has : as.keys.Nodup)
    (hlength : as.length = bs.length) (hmem : ∀ m ∈ as, m.1 ∈ bs.keys) (key : String) :
    key ∈ as.keys ↔ key ∈ bs.keys := by
  have hsize : bs.keys.length = as.keys.length := by
    rw [Members.keys, Members.keys, List.length_map, List.length_map, hlength]
  have hsub : as.keys ⊆ bs.keys := by
    intro key hkey
    obtain ⟨m, hm, rfl⟩ := List.mem_map.1 hkey
    exact hmem m hm
  exact ((List.subperm_of_subset has hsub).perm_of_length_le (Nat.le_of_eq hsize)).mem_iff

theorem length_eq_of_mem_keys_iff {as bs : Members} (has : as.keys.Nodup) (hbs : bs.keys.Nodup)
    (hkeys : ∀ key, key ∈ as.keys ↔ key ∈ bs.keys) : as.length = bs.length := by
  have hperm := ((List.perm_ext_iff_of_nodup has hbs).2 hkeys).length_eq
  rwa [Members.keys, Members.keys, List.length_map, List.length_map] at hperm

mutual

theorem equal_of_same : ∀ a b : Value, a.WellKeyed → same a b = true → Equal a b
  | .null, b, _, h => by
    cases b with
    | null => exact .null
    | _ => cases h
  | .bool value, b, _, h => by
    cases b with
    | bool other => exact beq_iff_eq.1 h ▸ .bool value
    | _ => cases h
  | .number n, b, _, h => by
    cases b with
    | number m => exact .number h
    | _ => cases h
  | .string text, b, _, h => by
    cases b with
    | string other => exact beq_iff_eq.1 h ▸ .string text
    | _ => cases h
  | .array items, b, hkeys, h => by
    cases b with
    | array others => exact equal_array_iff.2 (forall₂_equal_of_same items others hkeys h)
    | _ => cases h
  | .object members, b, hkeys, h => by
    cases b with
    | object others =>
      rw [same, Bool.and_eq_true, beq_iff_eq] at h
      have hfound := equal_of_sameMembers members others hkeys.2 h.2
      refine .object (mem_keys_iff_of_length_eq hkeys.1 h.1 fun m hm => ?_) fun key a b ha hb => ?_
      · obtain ⟨b, hb, -⟩ := hfound m hm
        exact Members.mem_keys_of_get? hb
      · obtain ⟨found, hget, hequal⟩ := hfound _ (Members.mem_of_get? ha)
        rw [hb] at hget
        exact Option.some.inj hget ▸ hequal
    | _ => cases h

theorem forall₂_equal_of_same : ∀ as bs : List Value, ItemsWellKeyed as →
    sameItems as bs = true → List.Forall₂ Equal as bs
  | [], [], _, _ => .nil
  | [], _ :: _, _, h => by cases h
  | _ :: _, [], _, h => by cases h
  | a :: as, b :: bs, hkeys, h => by
    rw [sameItems, Bool.and_eq_true] at h
    exact .cons (equal_of_same a b hkeys.1 h.1) (forall₂_equal_of_same as bs hkeys.2 h.2)

theorem equal_of_sameMembers : ∀ (members : List (String × Value)) (others : Members),
    MembersWellKeyed members → sameMembers members others = true →
    ∀ m ∈ members, ∃ found, Members.get? m.1 others = some found ∧ Equal m.2 found
  | [], _, _, _, _, hm => by cases hm
  | (key, value) :: rest, others, hkeys, h, m, hm => by
    rw [sameMembers, Bool.and_eq_true] at h
    rcases List.mem_cons.1 hm with heq | hm
    · cases hget : Members.get? key others with
      | none =>
        rw [hget] at h
        cases h.1
      | some found =>
        rw [hget] at h
        rw [heq]
        exact ⟨found, hget, equal_of_same value found hkeys.1 h.1⟩
    · exact equal_of_sameMembers rest others hkeys.2 h.2 m hm

end

theorem sameItems_of_forall₂ {as bs : List Value}
    (h : List.Forall₂ (fun a b => same a b = true) as bs) : sameItems as bs = true := by
  induction h with
  | nil => rfl
  | cons hsame _ ih => rw [sameItems, hsame, ih, Bool.and_self]

theorem same_of_equal {a b : Value} (h : Equal a b) (ha : a.WellKeyed) (hb : b.WellKeyed) :
    same a b = true := by
  induction h with
  | null => rfl
  | bool value => exact beq_self_eq_true value
  | number h => exact h
  | string text => exact beq_self_eq_true text
  | @array as bs hlength _ ih =>
    refine sameItems_of_forall₂ (List.forall₂_iff_get.2 ⟨hlength, fun i hia hib => ?_⟩)
    exact ih i _ _ (by simp [hia]) (by simp [hib])
      (itemsWellKeyed_iff.1 ha _ (List.get_mem ..)) (itemsWellKeyed_iff.1 hb _ (List.get_mem ..))
  | @object as bs hkeys _ ih =>
    rw [same, length_eq_of_mem_keys_iff ha.1 hb.1 hkeys, beq_self_eq_true, Bool.true_and,
      sameMembers_iff]
    intro m hm
    have hget : Members.get? m.1 as = some m.2 := Members.get?_of_mem ha.1 hm
    obtain ⟨found, hfound⟩ := Members.exists_get?_of_mem_keys ((hkeys m.1).1 (Members.mem_keys_of_get? hget))
    exact ⟨found, hfound, ih m.1 m.2 found hget hfound (membersWellKeyed_iff.1 ha.2 m hm)
      (membersWellKeyed_iff.1 hb.2 _ (Members.mem_of_get? hfound))⟩

/-- **The comparison of values finds out whether they are equal.** -/
theorem same_iff_equal {a b : Value} (ha : a.WellKeyed) (hb : b.WellKeyed) :
    same a b = true ↔ Equal a b :=
  ⟨equal_of_same a b ha, fun h => same_of_equal h ha hb⟩

end Value

end ProjectSetup.Json
