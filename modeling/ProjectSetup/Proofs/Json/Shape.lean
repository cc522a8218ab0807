import Mathlib.Tactic.Common
import ProjectSetup.Json.Value

/-!
# The shape of JSON values

How deep a value is nested, whether its objects have every key once, and what its floating-point
numbers are like: what decides whether a value that is written reads back as itself.

Each of the three is kept by `Members.insert`, so that an edit which puts a value into an object
only has to look at that value.
-/

namespace ProjectSetup.Json

namespace Members

/-- The keys of an object, in order. -/
def keys (members : Members) : List String :=
  members.map Prod.fst

theorem get?_eq_none_iff {key : String} {members : Members} :
    get? key members = none ↔ key ∉ members.keys := by
  induction members with
  | nil => simp [get?, keys]
  | cons m rest ih =>
    obtain ⟨k, v⟩ := m
    by_cases hk : k = key
    · simp [get?, keys, hk]
    · simpa [get?, keys, hk, Ne.symm hk] using ih

theorem mem_of_get? {key : String} {value : Value} {members : Members}
    (h : get? key members = some value) : (key, value) ∈ members := by
  induction members with
  | nil => cases h
  | cons m rest ih =>
    obtain ⟨k, v⟩ := m
    rw [get?] at h
    split_ifs at h with hk
    · obtain rfl := Option.some.inj h
      simp [hk]
    · exact List.mem_cons_of_mem _ (ih h)

theorem exists_get?_of_mem_keys {key : String} {members : Members} (h : key ∈ members.keys) :
    ∃ value, get? key members = some value := by
  cases hget : get? key members with
  | none => exact absurd h (get?_eq_none_iff.1 hget)
  | some value => exact ⟨value, rfl⟩

theorem mem_keys_of_get? {key : String} {value : Value} {members : Members}
    (h : get? key members = some value) : key ∈ members.keys :=
  List.mem_map.2 ⟨_, mem_of_get? h, rfl⟩

theorem insert_of_not_mem {key : String} {value : Value} {members : Members}
    (h : key ∉ members.keys) : insert key value members = members ++ [(key, value)] := by
  induction members with
  | nil => rfl
  | cons m rest ih =>
    obtain ⟨k, v⟩ := m
    simp only [keys, List.map_cons, List.mem_cons, not_or] at h
    rw [insert, if_neg (Ne.symm h.1), ih h.2, List.cons_append]

theorem keys_insert {key : String} {value : Value} {members : Members} :
    (insert key value members).keys =
      if key ∈ members.keys then members.keys else members.keys ++ [key] := by
  induction members with
  | nil => simp [insert, keys]
  | cons m rest ih =>
    obtain ⟨k, v⟩ := m
    by_cases hk : k = key
    · simp [insert, keys, hk]
    · simp only [keys] at ih
      by_cases hmem : key ∈ rest.map Prod.fst <;>
        simp [insert, hk, keys, ih, Ne.symm hk, hmem]

theorem nodup_keys_insert {key : String} {value : Value} {members : Members}
    (h : members.keys.Nodup) : (insert key value members).keys.Nodup := by
  rw [keys_insert]
  split_ifs with hk
  · exact h
  · rw [List.nodup_append]
    refine ⟨h, by simp, ?_⟩
    rintro a ha b hb rfl
    exact hk (List.mem_singleton.1 hb ▸ ha)

theorem mem_insert {key : String} {value : Value} {members : Members} {m : String × Value}
    (h : m ∈ insert key value members) : m = (key, value) ∨ m ∈ members := by
  induction members with
  | nil => simpa [insert] using h
  | cons n rest ih =>
    obtain ⟨k, v⟩ := n
    rw [insert] at h
    split_ifs at h with hk
    · rcases List.mem_cons.1 h with rfl | h
      · exact .inl (by rw [hk])
      · exact .inr (List.mem_cons_of_mem _ h)
    · rcases List.mem_cons.1 h with rfl | h
      · exact .inr (List.mem_cons_self ..)
      · rcases ih h with rfl | h
        · exact .inl rfl
        · exact .inr (List.mem_cons_of_mem _ h)

end Members

namespace Value

mutual

/-- How deep lists and objects are nested. -/
def nesting : Value → Nat
  | array items => itemsNesting items + 1
  | object members => membersNesting members + 1
  | _ => 0

/-- How deep the deepest of the items is nested. -/
def itemsNesting : List Value → Nat
  | [] => 0
  | item :: rest => max item.nesting (itemsNesting rest)

/-- How deep the deepest of the members is nested. -/
def membersNesting : List (String × Value) → Nat
  | [] => 0
  | (_, value) :: rest => max value.nesting (membersNesting rest)

end

mutual

/-- No object has a key twice. -/
def WellKeyed : Value → Prop
  | array items => ItemsWellKeyed items
  | object members => (Members.keys members).Nodup ∧ MembersWellKeyed members
  | _ => True

/-- No object in the items has a key twice. -/
def ItemsWellKeyed : List Value → Prop
  | [] => True
  | item :: rest => item.WellKeyed ∧ ItemsWellKeyed rest

/-- No object in the values of the members has a key twice. -/
def MembersWellKeyed : List (String × Value) → Prop
  | [] => True
  | (_, value) :: rest => value.WellKeyed ∧ MembersWellKeyed rest

end

mutual

/-- Every floating-point number in the value has the property. -/
def EveryFloat (p : Binary64 → Prop) : Value → Prop
  | number (.floating x) => p x
  | array items => ItemsEveryFloat p items
  | object members => MembersEveryFloat p members
  | _ => True

/-- Every floating-point number in the items has the property. -/
def ItemsEveryFloat (p : Binary64 → Prop) : List Value → Prop
  | [] => True
  | item :: rest => item.EveryFloat p ∧ ItemsEveryFloat p rest

/-- Every floating-point number in the values of the members has the property. -/
def MembersEveryFloat (p : Binary64 → Prop) : List (String × Value) → Prop
  | [] => True
  | (_, value) :: rest => value.EveryFloat p ∧ MembersEveryFloat p rest

end

/-- All numbers are integers. -/
def Integral (value : Value) : Prop :=
  value.EveryFloat fun _ => False

mutual

/-- The value with every floating-point number changed. -/
def mapFloats (f : Binary64 → Binary64) : Value → Value
  | number (.floating x) => number (.floating (f x))
  | array items => array (itemsMapFloats f items)
  | object members => object (membersMapFloats f members)
  | value => value

/-- The items with every floating-point number changed. -/
def itemsMapFloats (f : Binary64 → Binary64) : List Value → List Value
  | [] => []
  | item :: rest => item.mapFloats f :: itemsMapFloats f rest

/-- The members with every floating-point number changed. -/
def membersMapFloats (f : Binary64 → Binary64) : List (String × Value) → Members
  | [] => []
  | (key, value) :: rest => (key, value.mapFloats f) :: membersMapFloats f rest

end

/-! ### Over items and members -/

theorem itemsNesting_le_iff {items : List Value} {depth : Nat} :
    itemsNesting items ≤ depth ↔ ∀ item ∈ items, item.nesting ≤ depth := by
  induction items with
  | nil => simp [itemsNesting]
  | cons item rest ih => simp only [itemsNesting, Nat.max_le, ih, List.forall_mem_cons]

theorem membersNesting_le_iff {members : Members} {depth : Nat} :
    membersNesting members ≤ depth ↔ ∀ m ∈ members, m.2.nesting ≤ depth := by
  induction members with
  | nil => simp [membersNesting]
  | cons m rest ih => simp only [membersNesting, Nat.max_le, ih, List.forall_mem_cons]

theorem itemsWellKeyed_iff {items : List Value} :
    ItemsWellKeyed items ↔ ∀ item ∈ items, item.WellKeyed := by
  induction items with
  | nil => simp [ItemsWellKeyed]
  | cons item rest ih => simp [ItemsWellKeyed, ih]

theorem membersWellKeyed_iff {members : Members} :
    MembersWellKeyed members ↔ ∀ m ∈ members, m.2.WellKeyed := by
  induction members with
  | nil => simp [MembersWellKeyed]
  | cons m rest ih => simp [MembersWellKeyed, ih]

theorem itemsEveryFloat_iff {p : Binary64 → Prop} {items : List Value} :
    ItemsEveryFloat p items ↔ ∀ item ∈ items, item.EveryFloat p := by
  induction items with
  | nil => simp [ItemsEveryFloat]
  | cons item rest ih => simp [ItemsEveryFloat, ih]

theorem membersEveryFloat_iff {p : Binary64 → Prop} {members : Members} :
    MembersEveryFloat p members ↔ ∀ m ∈ members, m.2.EveryFloat p := by
  induction members with
  | nil => simp [MembersEveryFloat]
  | cons m rest ih => simp [MembersEveryFloat, ih]

theorem itemsMapFloats_eq_map {f : Binary64 → Binary64} {items : List Value} :
    itemsMapFloats f items = items.map (mapFloats f) := by
  induction items with
  | nil => rfl
  | cons item rest ih => rw [itemsMapFloats, ih, List.map_cons]

theorem membersMapFloats_eq_map {f : Binary64 → Binary64} {members : Members} :
    membersMapFloats f members = members.map fun m => (m.1, m.2.mapFloats f) := by
  induction members with
  | nil => rfl
  | cons m rest ih => rw [membersMapFloats, ih, List.map_cons]

/-! ### Objects with a member put in -/

theorem membersNesting_insert_le {members : Members} {key : String} {value : Value} {depth : Nat}
    (hm : membersNesting members ≤ depth) (hv : value.nesting ≤ depth) :
    membersNesting (Members.insert key value members) ≤ depth := by
  rw [membersNesting_le_iff] at hm ⊢
  intro m h
  rcases Members.mem_insert h with rfl | h
  · exact hv
  · exact hm m h

theorem membersWellKeyed_insert {members : Members} {key : String} {value : Value}
    (hm : MembersWellKeyed members) (hv : value.WellKeyed) :
    MembersWellKeyed (Members.insert key value members) := by
  rw [membersWellKeyed_iff] at hm ⊢
  intro m h
  rcases Members.mem_insert h with rfl | h
  · exact hv
  · exact hm m h

/-- The value is nested at most so deep, its objects have every key once, and its floating-point
numbers have the property. -/
structure Shaped (depth : Nat) (p : Binary64 → Prop) (value : Value) : Prop where
  nesting : value.nesting ≤ depth
  wellKeyed : value.WellKeyed
  floats : value.EveryFloat p

theorem shaped_array_iff {items : List Value} {depth : Nat} {p : Binary64 → Prop} :
    (array items).Shaped (depth + 1) p ↔ ∀ item ∈ items, item.Shaped depth p := by
  constructor
  · rintro ⟨hn, hk, hf⟩ item hitem
    rw [nesting, Nat.add_le_add_iff_right, itemsNesting_le_iff] at hn
    exact ⟨hn item hitem, itemsWellKeyed_iff.1 hk item hitem, itemsEveryFloat_iff.1 hf item hitem⟩
  · intro h
    refine ⟨?_, itemsWellKeyed_iff.2 fun item hitem => (h item hitem).wellKeyed,
      itemsEveryFloat_iff.2 fun item hitem => (h item hitem).floats⟩
    rw [nesting, Nat.add_le_add_iff_right, itemsNesting_le_iff]
    exact fun item hitem => (h item hitem).nesting

theorem shaped_object_iff {members : Members} {depth : Nat} {p : Binary64 → Prop} :
    (object members).Shaped (depth + 1) p ↔
      members.keys.Nodup ∧ ∀ m ∈ members, m.2.Shaped depth p := by
  constructor
  · rintro ⟨hn, hk, hf⟩
    rw [nesting, Nat.add_le_add_iff_right, membersNesting_le_iff] at hn
    exact ⟨hk.1, fun m hm => ⟨hn m hm, membersWellKeyed_iff.1 hk.2 m hm,
      membersEveryFloat_iff.1 hf m hm⟩⟩
  · rintro ⟨hkeys, h⟩
    refine ⟨?_, ⟨hkeys, membersWellKeyed_iff.2 fun m hm => (h m hm).wellKeyed⟩,
      membersEveryFloat_iff.2 fun m hm => (h m hm).floats⟩
    rw [nesting, Nat.add_le_add_iff_right, membersNesting_le_iff]
    exact fun m hm => (h m hm).nesting

theorem shaped_insert {members : Members} {key : String} {value : Value} {depth : Nat}
    {p : Binary64 → Prop} (h : (object members).Shaped (depth + 1) p) (hv : value.Shaped depth p) :
    (object (Members.insert key value members)).Shaped (depth + 1) p := by
  rw [shaped_object_iff] at h ⊢
  refine ⟨Members.nodup_keys_insert h.1, fun m hm => ?_⟩
  rcases Members.mem_insert hm with rfl | hm
  · exact hv
  · exact h.2 m hm

/-! ### Changing floating-point numbers -/

mutual

theorem mapFloats_of_integral (f : Binary64 → Binary64) :
    ∀ value : Value, value.Integral → value.mapFloats f = value
  | null, _ => rfl
  | bool _, _ => rfl
  | number (.natural _ _), _ => rfl
  | number (.negative _ _), _ => rfl
  | number (.floating _), h => h.elim
  | string _, _ => rfl
  | array items, h => by rw [mapFloats, itemsMapFloats_of_integral f items h]
  | object members, h => by rw [mapFloats, membersMapFloats_of_integral f members h]

theorem itemsMapFloats_of_integral (f : Binary64 → Binary64) :
    ∀ items : List Value, ItemsEveryFloat (fun _ => False) items → itemsMapFloats f items = items
  | [], _ => rfl
  | item :: rest, h => by
    rw [itemsMapFloats, mapFloats_of_integral f item h.1, itemsMapFloats_of_integral f rest h.2]

theorem membersMapFloats_of_integral (f : Binary64 → Binary64) :
    ∀ members : List (String × Value), MembersEveryFloat (fun _ => False) members →
      membersMapFloats f members = members
  | [], _ => rfl
  | (key, value) :: rest, h => by
    rw [membersMapFloats, mapFloats_of_integral f value h.1,
      membersMapFloats_of_integral f rest h.2]

end

mutual

theorem EveryFloat.mono {p q : Binary64 → Prop} (hpq : ∀ x, p x → q x) :
    ∀ value : Value, value.EveryFloat p → value.EveryFloat q
  | null, _ => trivial
  | bool _, _ => trivial
  | number (.natural _ _), _ => trivial
  | number (.negative _ _), _ => trivial
  | number (.floating x), h => hpq x h
  | string _, _ => trivial
  | array items, h => ItemsEveryFloat.mono hpq items h
  | object members, h => MembersEveryFloat.mono hpq members h

theorem ItemsEveryFloat.mono {p q : Binary64 → Prop} (hpq : ∀ x, p x → q x) :
    ∀ items : List Value, ItemsEveryFloat p items → ItemsEveryFloat q items
  | [], _ => trivial
  | item :: rest, h => ⟨EveryFloat.mono hpq item h.1, ItemsEveryFloat.mono hpq rest h.2⟩

theorem MembersEveryFloat.mono {p q : Binary64 → Prop} (hpq : ∀ x, p x → q x) :
    ∀ members : List (String × Value), MembersEveryFloat p members → MembersEveryFloat q members
  | [], _ => trivial
  | (_, value) :: rest, h =>
    ⟨EveryFloat.mono hpq value h.1, MembersEveryFloat.mono hpq rest h.2⟩

end

end Value

end ProjectSetup.Json
