import ProjectSetup.Proofs.Json.Equal

/-!
# Members that are put in

A member that is put into an object takes the place of the one with its key, or comes to the end.
Members that are put over others, one after the other, do the same all at once: the keys of the
object keep their places, the new ones follow in the order in which they come, and under a key of
both is the new value.

* `put_iff`: what putting in one member does.
* `overlaid_iff`: what putting in many members does.
* `overlay_overlay`: two overlays, one after the other, are one overlay.
-/

namespace ProjectSetup.Json

namespace Members

variable {key other : String} {value value' : Value} {members base mid top new : Members}

/-! ### One member -/

/-- The members with a value put under a key: in the place of the first member with that key, or at
the end. -/
inductive Put (key : String) (value : Value) : Members → Members → Prop where
  | inPlace {front back : Members} {old : Value} (hfirst : key ∉ front.keys) :
    Put key value (front ++ (key, old) :: back) (front ++ (key, value) :: back)
  | atEnd {members : Members} (hnew : key ∉ members.keys) :
    Put key value members (members ++ [(key, value)])

theorem insert_append_cons {front back : Members} {old : Value} (hfirst : key ∉ front.keys) :
    insert key value (front ++ (key, old) :: back) = front ++ (key, value) :: back := by
  induction front with
  | nil => simp [insert]
  | cons m front ih =>
    obtain ⟨k, v⟩ := m
    rw [keys, List.map_cons, List.mem_cons, not_or] at hfirst
    rw [List.cons_append, insert, if_neg (Ne.symm hfirst.1), ih hfirst.2, List.cons_append]

theorem exists_eq_append_cons (h : key ∈ members.keys) :
    ∃ (front : Members) (old : Value) (back : Members),
      members = front ++ (key, old) :: back ∧ key ∉ front.keys := by
  induction members with
  | nil => cases h
  | cons m rest ih =>
    obtain ⟨k, v⟩ := m
    by_cases hk : key = k
    · subst hk
      exact ⟨[], v, rest, rfl, List.not_mem_nil⟩
    · rw [keys, List.map_cons, List.mem_cons] at h
      obtain ⟨front, old, back, rfl, hfirst⟩ := ih (h.resolve_left hk)
      refine ⟨(k, v) :: front, old, back, rfl, ?_⟩
      rw [keys, List.map_cons, List.mem_cons, not_or]
      exact ⟨hk, hfirst⟩

/-- **What putting in a member does.** -/
theorem put_iff : Put key value members new ↔ insert key value members = new := by
  constructor
  · intro h
    cases h with
    | inPlace hfirst => exact insert_append_cons hfirst
    | atEnd hnew => exact insert_of_not_mem hnew
  · rintro rfl
    by_cases hkey : key ∈ members.keys
    · obtain ⟨front, old, back, rfl, hfirst⟩ := exists_eq_append_cons hkey
      rw [insert_append_cons hfirst]
      exact .inPlace hfirst
    · rw [insert_of_not_mem hkey]
      exact .atEnd hkey

theorem insert_of_get? (h : get? key members = some value) : insert key value members = members := by
  induction members with
  | nil => cases h
  | cons m rest ih =>
    obtain ⟨k, v⟩ := m
    rw [get?] at h
    rw [insert]
    split_ifs at h ⊢ with hk
    · rw [Option.some.inj h]
    · rw [ih h]

theorem insert_insert : insert key value' (insert key value members) = insert key value' members := by
  induction members with
  | nil => simp [insert]
  | cons m rest ih =>
    obtain ⟨k, v⟩ := m
    by_cases hk : k = key <;> simp [insert, hk, ih]

/-- A member whose key is there already can be put in before or after another one. -/
theorem insert_comm_of_mem (hne : other ≠ key) (hkey : key ∈ members.keys) :
    insert other value' (insert key value members) =
      insert key value (insert other value' members) := by
  induction members with
  | nil => cases hkey
  | cons m rest ih =>
    obtain ⟨k, v⟩ := m
    rw [keys, List.map_cons, List.mem_cons] at hkey
    by_cases hk : k = key
    · subst hk
      simp [insert, Ne.symm hne]
    · have hrest : key ∈ keys rest := hkey.resolve_left (Ne.symm hk)
      by_cases ho : k = other <;> simp [insert, hk, ho, hne, ih hrest]

/-- Members with the same keys in the same order and the same values are the same. -/
theorem eq_of_keys_eq (hnodup : members.keys.Nodup) (hkeys : members.keys = new.keys)
    (hvalues : ∀ key, get? key members = get? key new) : members = new := by
  induction members generalizing new with
  | nil =>
    cases new with
    | nil => rfl
    | cons n more => cases hkeys
  | cons m rest ih =>
    cases new with
    | nil => cases hkeys
    | cons n more =>
      obtain ⟨k, v⟩ := m
      obtain ⟨k', v'⟩ := n
      obtain ⟨rfl, hrest⟩ := List.cons.inj hkeys
      have hhead := hvalues k
      simp only [get?, if_pos] at hhead
      rw [keys, List.map_cons, List.nodup_cons] at hnodup
      rw [Option.some.inj hhead, ih hnodup.2 hrest]
      intro key
      by_cases hk : k = key
      · subst hk
        have hmore : k ∉ keys more := fun h => hnodup.1 (hrest ▸ h)
        rw [get?_eq_none_iff.2 hnodup.1, get?_eq_none_iff.2 hmore]
      · simpa [get?, hk] using hvalues key

/-! ### Many members -/

/-- The members with others put over them: their keys keep their places, new keys follow in the order
of the others, and the values of the others count. -/
structure Overlaid (base top new : Members) : Prop where
  keys : new.keys = base.keys ++ top.keys.filter fun key => key ∉ base.keys
  values : ∀ key, get? key new = (get? key top).or (get? key base)

theorem overlay_cons (base : Members) (m : String × Value) (top : Members) :
    overlay base (m :: top) = overlay (insert m.1 m.2 base) top :=
  rfl

theorem get?_overlay_of_not_mem (h : key ∉ top.keys) :
    get? key (overlay base top) = get? key base := by
  induction top generalizing base with
  | nil => rfl
  | cons m top ih =>
    rw [keys, List.map_cons, List.mem_cons, not_or] at h
    rw [overlay_cons, ih h.2, get?_insert, if_neg (Ne.symm h.1)]

/-- The members that were put in are there. -/
theorem get?_overlay (hkeys : top.keys.Nodup) : ∀ m ∈ top, get? m.1 (overlay base top) = some m.2 := by
  induction top generalizing base with
  | nil => simp
  | cons n top ih =>
    rw [keys, List.map_cons, List.nodup_cons] at hkeys
    intro m hm
    rw [overlay_cons]
    rcases List.mem_cons.1 hm with rfl | hm
    · rw [get?_overlay_of_not_mem hkeys.1, get?_insert, if_pos rfl]
    · exact ih hkeys.2 m hm

/-- Members that are there are not put in again. -/
theorem overlay_of_get? (h : ∀ m ∈ top, get? m.1 base = some m.2) : overlay base top = base := by
  induction top with
  | nil => rfl
  | cons m top ih =>
    rw [overlay_cons, insert_of_get? (h m List.mem_cons_self)]
    exact ih fun n hn => h n (List.mem_cons_of_mem _ hn)

theorem overlay_self (hkeys : members.keys.Nodup) : overlay members members = members :=
  overlay_of_get? fun _ hm => get?_of_mem hkeys hm

theorem keys_overlay (hkeys : top.keys.Nodup) :
    (overlay base top).keys = base.keys ++ top.keys.filter fun key => key ∉ base.keys := by
  induction top generalizing base with
  | nil => exact (List.append_nil _).symm
  | cons m top ih =>
    have hcons : keys (m :: top) = m.1 :: keys top := rfl
    rw [hcons, List.nodup_cons] at hkeys
    rw [overlay_cons, ih hkeys.2, hcons, keys_insert]
    split_ifs with hm
    · rw [List.filter_cons_of_neg (by simpa using hm)]
    · rw [List.filter_cons_of_pos (by simpa using hm), List.append_assoc, List.singleton_append]
      congr 2
      refine List.filter_congr fun key hkey => ?_
      have hne : key ≠ m.1 := fun h => hkeys.1 (h ▸ hkey)
      simp [hne]

theorem overlaid_overlay (htop : top.keys.Nodup) : Overlaid base top (overlay base top) := by
  refine ⟨keys_overlay htop, fun key => ?_⟩
  cases hget : get? key top with
  | none => exact get?_overlay_of_not_mem (get?_eq_none_iff.1 hget)
  | some value => exact get?_overlay htop _ (mem_of_get? hget)

/-- **What putting in many members does.** -/
theorem overlaid_iff (hbase : base.keys.Nodup) (htop : top.keys.Nodup) :
    Overlaid base top new ↔ overlay base top = new := by
  have hoverlay : Overlaid base top (overlay base top) := overlaid_overlay htop
  have hnodup : (overlay base top).keys.Nodup := by
    rw [keys_overlay htop, List.nodup_append]
    refine ⟨hbase, htop.filter _, ?_⟩
    rintro a ha b hb rfl
    exact absurd ha (by simpa using (List.mem_filter.1 hb).2)
  constructor
  · intro h
    exact eq_of_keys_eq hnodup (hoverlay.keys.trans h.keys.symm)
      fun key => (hoverlay.values key).trans (h.values key).symm
  · rintro rfl
    exact hoverlay

/-! ### One overlay after the other -/

theorem overlay_insert_of_mem (hmem : key ∈ base.keys) (htop : key ∉ top.keys) :
    overlay (insert key value base) top = insert key value (overlay base top) := by
  induction top generalizing base with
  | nil => rfl
  | cons m top ih =>
    rw [keys, List.map_cons, List.mem_cons, not_or] at htop
    have hmem' : key ∈ (insert m.1 m.2 base).keys := by
      rw [keys_insert]
      split_ifs
      · exact hmem
      · exact List.mem_append_left _ hmem
    rw [overlay_cons, overlay_cons, insert_comm_of_mem (Ne.symm htop.1) hmem, ih hmem' htop.2]

theorem overlay_insert (htop : top.keys.Nodup) :
    overlay base (insert key value top) = insert key value (overlay base top) := by
  induction top generalizing base with
  | nil => rfl
  | cons m top ih =>
    obtain ⟨k, v⟩ := m
    rw [keys, List.map_cons, List.nodup_cons] at htop
    by_cases hk : k = key
    · subst hk
      have hget : get? k (insert k v base) = some v := by rw [get?_insert, if_pos rfl]
      have hmem : k ∈ (insert k v base).keys := mem_keys_of_get? hget
      have hput : insert k value ((k, v) :: top) = (k, value) :: top := by simp [insert]
      rw [hput, overlay_cons, overlay_cons, ← overlay_insert_of_mem hmem htop.1, insert_insert]
    · have hput : insert key value ((k, v) :: top) = (k, v) :: insert key value top := by
        simp [insert, hk]
      rw [hput, overlay_cons, overlay_cons, ih htop.2]

/-- **Two overlays, one after the other, are one overlay.** -/
theorem overlay_overlay (hmid : mid.keys.Nodup) :
    overlay base (overlay mid top) = overlay (overlay base mid) top := by
  induction top generalizing mid with
  | nil => rfl
  | cons m top ih =>
    rw [overlay_cons, ih (nodup_keys_insert hmid), overlay_insert hmid, overlay_cons]

end Members

namespace Value

variable {key : String} {a b : Value} {as bs top : Members}

theorem wellKeyed_insert (has : (object as).WellKeyed) (ha : a.WellKeyed) :
    (object (Members.insert key a as)).WellKeyed :=
  ⟨Members.nodup_keys_insert has.1, membersWellKeyed_insert has.2 ha⟩

theorem wellKeyed_overlay (has : (object as).WellKeyed) (htop : (object top).WellKeyed) :
    (object (Members.overlay as top)).WellKeyed := by
  obtain ⟨-, hvalues⟩ := htop
  induction top generalizing as with
  | nil => exact has
  | cons m top ih => exact ih (wellKeyed_insert has hvalues.1) hvalues.2

theorem equal_insert (has : Equal (object as) (object bs)) (ha : Equal a b) :
    Equal (object (Members.insert key a as)) (object (Members.insert key b bs)) := by
  rw [equal_object_iff] at has ⊢
  intro other
  rw [Members.get?_insert, Members.get?_insert]
  split_ifs
  · exact .some ha
  · exact has other

theorem equal_overlay (top : Members) (has : Equal (object as) (object bs)) :
    Equal (object (Members.overlay as top)) (object (Members.overlay bs top)) := by
  induction top generalizing as bs with
  | nil => exact has
  | cons m top ih => exact ih (equal_insert has (Equal.refl m.2))

end Value

end ProjectSetup.Json
