import ProjectSetup.Manifest
import ProjectSetup.Proofs.Json.Overlay
import ProjectSetup.Proofs.Json.Pretty

/-!
# A manifest that is extended again

An extension that was put over a manifest leaves it as it is when it is put over it again: every
entry is there, with the same text, and nothing is put in a second time or in another place.  The
manifest that was written reads back as it was, as long as it has no floating-point numbers, so that
a second extension finds nothing to write.

* `extendMembers_again`: an extension put over what it made.
* `newMembers?_again`: an extension of the manifest that it wrote.
-/

namespace ProjectSetup

open Json (Members Value)

namespace Extension

variable {manifest new : Members} {name : String} {entries : Section}

theorem keys_members (entries : Section) : (members entries).keys = entries.keys := by
  rw [members, Members.keys, List.map_map, ← Std.TreeMap.map_fst_toList_eq_keys]
  rfl

theorem nodup_keys_members (entries : Section) : (members entries).keys.Nodup := by
  rw [keys_members]
  exact Std.TreeMap.nodup_keys

theorem nodup_sections (extension : Extension) : (extension.sections.map Prod.fst).Nodup := by
  show ["dependencies", "devDependencies", "scripts"].Nodup
  decide

/-! ### Sections that are there -/

/-- The manifest has the entries in the section of the name, if there are any. -/
def Covers (manifest : Members) (name : String) (entries : Section) : Prop :=
  entries.isEmpty = true ∨ ∃ old, Members.get? name manifest = some (.object old) ∧
    ∀ m ∈ members entries, Members.get? m.1 old = some m.2

/-- The section that entries are put over; it is empty if it is absent. -/
theorem extendSection_cases (h : extendSection manifest name entries = .ok new) :
    (entries.isEmpty = true ∧ new = manifest) ∨ ∃ old : Members,
      (Members.get? name manifest = some (.object old) ∨
        (Members.get? name manifest = none ∧ old = [])) ∧
      new = Members.insert name (.object (Members.overlay old (members entries))) manifest := by
  rw [extendSection] at h
  split_ifs at h with hempty
  · exact .inl ⟨hempty, (Except.ok.inj h).symm⟩
  · right
    split at h
    · next old hold =>
      refine ⟨old, ?_, (Except.ok.inj h).symm⟩
      cases hget : Members.get? name manifest with
      | none =>
        rw [hget] at hold
        exact .inr ⟨rfl, (Value.object.inj hold).symm⟩
      | some value =>
        rw [hget] at hold
        exact .inl (congrArg some hold)
    · cases h

theorem covers_of_extendSection (h : extendSection manifest name entries = .ok new) :
    Covers new name entries := by
  rcases extendSection_cases h with ⟨hempty, -⟩ | ⟨old, -, rfl⟩
  · exact .inl hempty
  · refine .inr ⟨Members.overlay old (members entries), ?_,
      Members.get?_overlay (nodup_keys_members entries)⟩
    rw [Members.get?_insert, if_pos rfl]

theorem extendSection_of_covers (h : Covers manifest name entries) :
    extendSection manifest name entries = .ok manifest := by
  rw [extendSection]
  split_ifs with hempty
  · rfl
  · obtain ⟨old, hget, hmembers⟩ := h.resolve_left hempty
    rw [hget, Option.getD_some]
    dsimp only
    rw [Members.overlay_of_get? hmembers, Members.insert_of_get? hget]

theorem Covers.extendSection {other : String} {more : Section} (hne : other ≠ name)
    (hcovers : Covers manifest name entries)
    (h : extendSection manifest other more = .ok new) : Covers new name entries := by
  rcases extendSection_cases h with ⟨-, rfl⟩ | ⟨old, -, rfl⟩
  · exact hcovers
  · rcases hcovers with hempty | ⟨found, hget, hmembers⟩
    · exact .inl hempty
    · refine .inr ⟨found, ?_, hmembers⟩
      rw [Members.get?_insert, if_neg hne, hget]

/-- Sections that are put over a manifest one after the other are there in the end. -/
theorem covers_of_foldlM {sections : List (String × Section)}
    (hnames : (sections.map Prod.fst).Nodup)
    (h : sections.foldlM (fun manifest (name, entries) => Extension.extendSection manifest name entries)
      manifest = .ok new) :
    (∀ s ∈ sections, Covers new s.1 s.2) ∧
      ∀ name entries, name ∉ sections.map Prod.fst → Covers manifest name entries →
        Covers new name entries := by
  induction sections generalizing manifest with
  | nil =>
    obtain rfl := Except.ok.inj h
    exact ⟨by simp, fun _ _ _ hcovers => hcovers⟩
  | cons s sections ih =>
    obtain ⟨mid, hmid, hrest⟩ := Json.ok_of_bind h
    rw [List.map_cons, List.nodup_cons] at hnames
    obtain ⟨hthere, hkeep⟩ := ih hnames.2 hrest
    refine ⟨fun t ht => ?_, fun name entries hname hcovers => ?_⟩
    · rcases List.mem_cons.1 ht with rfl | ht
      · exact hkeep _ _ hnames.1 (covers_of_extendSection hmid)
      · exact hthere t ht
    · rw [List.map_cons, List.mem_cons, not_or] at hname
      exact hkeep _ _ hname.2 (hcovers.extendSection (Ne.symm hname.1) hmid)

theorem foldlM_of_covers {sections : List (String × Section)}
    (h : ∀ s ∈ sections, Covers manifest s.1 s.2) :
    sections.foldlM (fun manifest (name, entries) => Extension.extendSection manifest name entries)
      manifest = .ok manifest := by
  induction sections with
  | nil => rfl
  | cons s sections ih =>
    rw [List.foldlM_cons]
    dsimp only
    rw [extendSection_of_covers (h s List.mem_cons_self)]
    exact ih fun t ht => h t (List.mem_cons_of_mem _ ht)

/-- **An extension put over what it made** changes nothing. -/
theorem extendMembers_again {extension : Extension}
    (h : extension.extendMembers manifest = .ok new) : extension.extendMembers new = .ok new :=
  foldlM_of_covers (covers_of_foldlM (nodup_sections extension) h).1

/-! ### Manifests that are written and read -/

theorem shaped_overlay {base top : Members} {depth : Nat} {p : Binary64 → Prop}
    (hbase : (Value.object base).Shaped (depth + 1) p) (htop : ∀ m ∈ top, m.2.Shaped depth p) :
    (Value.object (Members.overlay base top)).Shaped (depth + 1) p := by
  induction top generalizing base with
  | nil => exact hbase
  | cons m top ih =>
    rw [Members.overlay_cons]
    exact ih (Value.shaped_insert hbase (htop m List.mem_cons_self))
      fun n hn => htop n (List.mem_cons_of_mem _ hn)

theorem shaped_of_mem_members {depth : Nat} {p : Binary64 → Prop} :
    ∀ m ∈ members entries, m.2.Shaped depth p := by
  intro m hm
  obtain ⟨e, -, rfl⟩ := List.mem_map.1 hm
  exact ⟨Nat.zero_le depth, trivial, trivial⟩

theorem shaped_extendSection {depth : Nat} {p : Binary64 → Prop}
    (hmanifest : (Value.object manifest).Shaped (depth + 2) p)
    (h : extendSection manifest name entries = .ok new) :
    (Value.object new).Shaped (depth + 2) p := by
  rcases extendSection_cases h with ⟨-, rfl⟩ | ⟨old, hold, rfl⟩
  · exact hmanifest
  · have hsection : (Value.object old).Shaped (depth + 1) p := by
      rcases hold with hget | ⟨-, rfl⟩
      · exact (Value.shaped_object_iff.1 hmanifest).2 _ (Members.mem_of_get? hget)
      · exact Value.shaped_object_iff.2 ⟨List.nodup_nil, by simp⟩
    exact Value.shaped_insert hmanifest (shaped_overlay hsection shaped_of_mem_members)

/-- An extension puts in no numbers, and nothing that is nested too deep. -/
theorem shaped_extendMembers {extension : Extension} {p : Binary64 → Prop}
    (hmanifest : (Value.object manifest).Shaped Json.maxDepth p)
    (h : extension.extendMembers manifest = .ok new) :
    (Value.object new).Shaped Json.maxDepth p := by
  rw [extendMembers] at h
  generalize extension.sections = sections at h
  induction sections generalizing manifest with
  | nil =>
    obtain rfl := Except.ok.inj h
    exact hmanifest
  | cons s sections ih =>
    obtain ⟨mid, hmid, hrest⟩ := Json.ok_of_bind h
    exact ih (shaped_extendSection hmanifest hmid) hrest

theorem parse_manifestText (h : (Value.object manifest).Shaped Json.maxDepth fun _ => False) :
    Value.parse (manifestText manifest) = .ok (.object manifest) :=
  Json.parse_prettyText h.wellKeyed h.floats h.nesting

variable {tree tree' : Tree} {place : Place} {extension : Extension}

/-- A manifest that is read has each key once, and is nested at most 127 deep. -/
theorem shape_of_readManifest (h : readManifest tree place = .ok manifest) :
    (Value.object manifest).nesting ≤ Json.maxDepth ∧ (Value.object manifest).WellKeyed := by
  obtain ⟨text?, -, h⟩ := Json.ok_of_bind h
  cases text? with
  | none =>
    obtain rfl := Except.ok.inj h
    exact ⟨by decide, List.nodup_nil, trivial⟩
  | some text =>
    dsimp only at h
    split at h
    · cases h
    · next found hfound =>
      obtain rfl := Except.ok.inj h
      obtain ⟨w, -, hw⟩ := Json.parse_eq_ok_iff.1 hfound
      exact Json.shape_of_value? w hw
    · cases h

/-- A manifest that was written reads back. -/
theorem readManifest_of_written (hshape : (Value.object new).Shaped Json.maxDepth fun _ => False)
    (hwritten : tree.readText? place = .ok (some (manifestText new))) :
    readManifest tree place = .ok new := by
  rw [readManifest, hwritten]
  simp [bind, Except.bind, pure, Except.pure, parse_manifestText hshape]

theorem newMembers?_of_extendMembers (hread : readManifest tree place = .ok manifest)
    (hnew : extension.extendMembers manifest = .ok new) :
    extension.newMembers? tree place =
      .ok (if (Value.object new).same (.object manifest) then none else some new) := by
  rw [newMembers?, hread]
  simp only [bind, Except.bind]
  rw [hnew]
  rfl

/-- The manifest under the extension, and whether it is another one. -/
theorem newMembers?_cases {new? : Option Members}
    (h : extension.newMembers? tree place = .ok new?) :
    ∃ manifest new, readManifest tree place = .ok manifest ∧
      extension.extendMembers manifest = .ok new ∧
      new? = if (Value.object new).same (.object manifest) then none else some new := by
  obtain ⟨manifest, hmanifest, h⟩ := Json.ok_of_bind h
  cases hextend : extension.extendMembers manifest with
  | error name =>
    rw [hextend] at h
    cases h
  | ok new =>
    rw [hextend] at h
    exact ⟨manifest, new, hmanifest, hextend, (Except.ok.inj h).symm⟩

theorem newMembers?_congr (h : tree'.readText? place = tree.readText? place) :
    extension.newMembers? tree' place = extension.newMembers? tree place := by
  rw [newMembers?, newMembers?, readManifest, readManifest, h]

/-- **An extension of the manifest that it wrote** finds nothing to write. -/
theorem newMembers?_again (h : extension.newMembers? tree place = .ok (some new))
    (hint : ∀ manifest, readManifest tree place = .ok manifest → (Value.object manifest).Integral)
    (hwritten : tree'.readText? place = .ok (some (manifestText new))) :
    extension.newMembers? tree' place = .ok none := by
  obtain ⟨manifest, new', hmanifest, hextend, hnew⟩ := newMembers?_cases h
  obtain rfl : new' = new := by
    split_ifs at hnew
    exact (Option.some.inj hnew).symm
  obtain ⟨hnest, hkeys⟩ := shape_of_readManifest hmanifest
  have hshape := shaped_extendMembers ⟨hnest, hkeys, hint manifest hmanifest⟩ hextend
  have hread := readManifest_of_written hshape hwritten
  have hsame := Json.Value.same_refl _ hshape.wellKeyed
  rw [newMembers?_of_extendMembers hread (extendMembers_again hextend), if_pos hsame]

end Extension

end ProjectSetup
