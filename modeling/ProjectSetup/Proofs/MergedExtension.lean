import ProjectSetup.Proofs.ManifestOverlay

/-!
# An extension that is put over another one

Extensions are merged in memory, section by section, before they are put over a manifest; putting
them over it one after the other, with the manifest written and read in between, comes to the same.
The entries of the upper extension win over those of the lower one, and both over the manifest.  Only
the order of new members may differ: the merged entries are sorted as a whole.

* `getElem?_entriesOf_merge`, `isEmpty_entriesOf_merge`: the entries of two extensions in one.
* `exists_extendMembers_merge_iff`: a section that is no object stops the merged extension just if it
  stops one of the two.
* `BothOver`: one manifest is the other with two extensions over it; `equal_of_bothOver`.
* `extendManifest_merge`: both ways of extending the manifest of a project.
-/

namespace ProjectSetup

open Json (Members Value)

namespace Extension

variable {manifest mid new new' : Members} {name key : String} {a b : Extension}

/-! ### Entries of merged extensions -/

theorem getElem?_insertMany_toList (base top : Section) (key : String) :
    (base.insertMany top.toList)[key]? = top[key]?.or base[key]? := by
  cases htop : top[key]? with
  | none =>
    refine Std.TreeMap.getElem?_insertMany_list_of_contains_eq_false ?_
    rw [Std.TreeMap.map_fst_toList_eq_keys, List.contains_eq_mem, decide_eq_false_iff_not,
      Std.TreeMap.mem_keys, Std.TreeMap.mem_iff_isSome_getElem?, htop]
    simp
  | some entry =>
    have hmem : (key, entry) ∈ top.toList := Std.TreeMap.mem_toList_iff_getElem?_eq_some.2 htop
    exact Std.TreeMap.getElem?_insertMany_list_of_mem Std.ReflCmp.compare_self
      Std.TreeMap.distinct_keys_toList hmem

theorem entriesOf_merge (a b : Extension) (name : String) :
    (a.merge b).entriesOf name = (a.entriesOf name).insertMany (b.entriesOf name).toList := by
  by_cases hname : name ∈ a.sections.map Prod.fst
  · obtain ⟨s, hs, rfl⟩ := List.mem_map.1 hname
    unfold sections at hs
    simp only [List.mem_cons, List.not_mem_nil, or_false] at hs
    rcases hs with rfl | rfl | rfl <;> rfl
  · have hb : name ∉ b.sections.map Prod.fst := hname
    have hmerge : name ∉ (a.merge b).sections.map Prod.fst := hname
    rw [entriesOf_of_not_mem hname, entriesOf_of_not_mem hb, entriesOf_of_not_mem hmerge]
    rfl

/-- The entries of the upper extension win. -/
theorem getElem?_entriesOf_merge (a b : Extension) (name key : String) :
    ((a.merge b).entriesOf name)[key]? = (b.entriesOf name)[key]?.or (a.entriesOf name)[key]? := by
  rw [entriesOf_merge, getElem?_insertMany_toList]

/-- A merged section comes without entries just if both sections do. -/
theorem isEmpty_entriesOf_merge (a b : Extension) (name : String) :
    ((a.merge b).entriesOf name).isEmpty =
      ((a.entriesOf name).isEmpty && (b.entriesOf name).isEmpty) := by
  rw [entriesOf_merge, Std.TreeMap.isEmpty_insertMany_list, Std.TreeMap.isEmpty_toList]

/-! ### Sections that are no objects -/

/-- An extension that is put over a manifest makes no section an object that another extension would
have stumbled over, and spoils none. -/
theorem foreign_iff_of_extendMembers (h : a.extendMembers manifest = .ok mid) :
    Foreign mid name ↔ Foreign manifest name := by
  have hextended := extended_of_extendMembers h
  cases hentries : (a.entriesOf name).isEmpty with
  | true => exact foreign_congr (hextended.others name hentries)
  | false =>
    have hbefore : ¬ Foreign manifest name := exists_extendMembers_iff.1 ⟨mid, h⟩ name hentries
    obtain ⟨now, hget, -⟩ := hextended.sections name hentries
    refine iff_of_false ?_ hbefore
    rintro ⟨value, hvalue, hforeign⟩
    rw [hget] at hvalue
    exact hforeign now (Option.some.inj hvalue).symm

/-- **What stops a merged extension** stops one of the two, one after the other. -/
theorem exists_extendMembers_merge_iff :
    (∃ new, (a.merge b).extendMembers manifest = .ok new) ↔
      ∃ mid, a.extendMembers manifest = .ok mid ∧ ∃ new, b.extendMembers mid = .ok new := by
  simp only [exists_extendMembers_iff, isEmpty_entriesOf_merge, Bool.and_eq_false_iff]
  constructor
  · intro h
    obtain ⟨mid, hmid⟩ := exists_extendMembers_iff.2 fun name hentries => h name (.inl hentries)
    refine ⟨mid, hmid, fun name hentries => ?_⟩
    rw [foreign_iff_of_extendMembers hmid]
    exact h name (.inr hentries)
  · rintro ⟨mid, hmid, h⟩ name hentries
    rcases hentries with hentries | hentries
    · exact exists_extendMembers_iff.1 ⟨mid, hmid⟩ name hentries
    · rw [← foreign_iff_of_extendMembers hmid]
      exact h name hentries

/-! ### Two extensions over a manifest -/

/-- One manifest is the other with two extensions over it, the second one over the first one: a
section that one of them has entries for is an object with the entries of the second one, the other
ones of the first one and what else it had; everything else is as it was. -/
structure BothOver (a b : Extension) (manifest new : Members) : Prop where
  sections : ∀ name, (a.entriesOf name).isEmpty = false ∨ (b.entriesOf name).isEmpty = false →
    ∃ now, Members.get? name new = some (.object now) ∧ ∀ key, Members.get? key now =
      (((b.entriesOf name)[key]?.or (a.entriesOf name)[key]?).map .string).or
        (Members.get? key (sectionOf manifest name))
  others : ∀ name, (a.entriesOf name).isEmpty = true → (b.entriesOf name).isEmpty = true →
    Members.get? name new = Members.get? name manifest

theorem get?_sectionOf_of_extended (h : Extended a manifest new) (name key : String) :
    Members.get? key (sectionOf new name) =
      ((a.entriesOf name)[key]?.map .string).or (Members.get? key (sectionOf manifest name)) := by
  cases hentries : (a.entriesOf name).isEmpty with
  | true =>
    have hnone : (a.entriesOf name)[key]? = none :=
      Std.TreeMap.getElem?_eq_none (Std.TreeMap.isEmpty_iff_forall_not_mem.1 hentries key)
    rw [sectionOf_congr (h.others name hentries), hnone]
    rfl
  | false =>
    obtain ⟨now, hget, hover⟩ := h.sections name hentries
    rw [← hover.values key, sectionOf, hget]

theorem bothOver_of_merge (h : Extended (a.merge b) manifest new) : BothOver a b manifest new := by
  refine ⟨fun name hentries => ?_, fun name ha hb => ?_⟩
  · have hmerge : ((a.merge b).entriesOf name).isEmpty = false := by
      rw [isEmpty_entriesOf_merge]
      rcases hentries with hempty | hempty <;> simp [hempty]
    obtain ⟨now, hget, hover⟩ := h.sections name hmerge
    refine ⟨now, hget, fun key => ?_⟩
    rw [hover.values, getElem?_entriesOf_merge]
  · refine h.others name ?_
    rw [isEmpty_entriesOf_merge, ha, hb]
    rfl

theorem bothOver_of_extended (ha : Extended a manifest mid) (hb : Extended b mid new) :
    BothOver a b manifest new := by
  refine ⟨fun name hentries => ?_, fun name hempty hempty' => ?_⟩
  · have hvalues : ∀ key, Members.get? key (sectionOf new name) =
        (((b.entriesOf name)[key]?.or (a.entriesOf name)[key]?).map .string).or
          (Members.get? key (sectionOf manifest name)) := by
      intro key
      rw [get?_sectionOf_of_extended hb, get?_sectionOf_of_extended ha, ← Option.or_assoc,
        Option.map_or]
    have hobject : ∃ now, Members.get? name new = some (.object now) := by
      cases hempty : (b.entriesOf name).isEmpty with
      | false =>
        obtain ⟨now, hget, -⟩ := hb.sections name hempty
        exact ⟨now, hget⟩
      | true =>
        have hentries' : (a.entriesOf name).isEmpty = false := by simpa [hempty] using hentries
        obtain ⟨now, hget, -⟩ := ha.sections name hentries'
        exact ⟨now, (hb.others name hempty).trans hget⟩
    obtain ⟨now, hget⟩ := hobject
    have hnow : sectionOf new name = now := by rw [sectionOf, hget]
    exact ⟨now, hget, fun key => hnow ▸ hvalues key⟩
  · rw [hb.others name hempty', ha.others name hempty]

/-- Two manifests with the same extensions over the same manifest are equal. -/
theorem equal_of_bothOver (h : BothOver a b manifest new) (h' : BothOver a b manifest new') :
    (Value.object new).Equal (.object new') := by
  refine Value.equal_object_iff.2 fun name => ?_
  by_cases hentries : (a.entriesOf name).isEmpty = false ∨ (b.entriesOf name).isEmpty = false
  · obtain ⟨now, hget, hvalues⟩ := h.sections name hentries
    obtain ⟨now', hget', hvalues'⟩ := h'.sections name hentries
    rw [hget, hget']
    exact .some (Value.equal_of_get?_eq fun key => (hvalues key).trans (hvalues' key).symm)
  · rw [not_or, Bool.not_eq_false, Bool.not_eq_false] at hentries
    rw [h.others name hentries.1 hentries.2, h'.others name hentries.1 hentries.2]
    cases Members.get? name manifest with
    | none => exact .none
    | some value => exact .some (Value.Equal.refl value)

/-! ### The manifest of a project -/

variable {root : Place} {tree once first second : Tree}

/-- **Both ways of extending the manifest of a project**: a merged extension can be put over it just
if the lower one can be and then the upper one, and the manifests that are read afterwards are equal,
with the upper entries over the lower ones over the manifest. -/
theorem extendManifest_merge {merged lower upper : Except Failure Bool}
    (h : HasManifest root tree manifest)
    (honce : (a.merge b).extendManifest root tree = (once, merged))
    (hfirst : a.extendManifest root tree = (first, lower))
    (hsecond : b.extendManifest root first = (second, upper)) :
    ((∃ changed, merged = .ok changed) ↔
        (∃ changed, lower = .ok changed) ∧ ∃ changed, upper = .ok changed) ∧
      ((∃ changed, merged = .ok changed) →
        ∃ new new', readManifest once (root.resolve "package.json") = .ok new ∧
          readManifest second (root.resolve "package.json") = .ok new' ∧
          (Value.object new).Equal (.object new') ∧
          BothOver a b manifest new ∧ BothOver a b manifest new') := by
  have hmerged : (∃ changed, merged = .ok changed) ↔
      ∃ mid, a.extendMembers manifest = .ok mid ∧ ∃ new, b.extendMembers mid = .ok new := by
    rw [← exists_extendMembers_merge_iff, ← exists_extendManifest_iff h, honce]
  have hlower : (∃ changed, lower = .ok changed) ↔ ∃ mid, a.extendMembers manifest = .ok mid := by
    rw [← exists_extendManifest_iff h, hfirst]
  -- the upper extension finds what the lower one has written
  have hupper : ∀ mid, a.extendMembers manifest = .ok mid →
      ((∃ changed, upper = .ok changed) ↔ ∃ new, b.extendMembers mid = .ok new) := by
    intro mid hextend
    have hmid : HasManifest root first mid := hasManifest_of_run h hextend hfirst
    rw [← exists_extendManifest_iff hmid, hsecond]
  constructor
  · rw [hmerged, hlower]
    constructor
    · rintro ⟨mid, hextend, hnew⟩
      exact ⟨⟨mid, hextend⟩, (hupper mid hextend).2 hnew⟩
    · rintro ⟨⟨mid, hextend⟩, hok⟩
      exact ⟨mid, hextend, (hupper mid hextend).1 hok⟩
  · intro hok
    obtain ⟨mid, hextend, new', hnew'⟩ := hmerged.1 hok
    obtain ⟨new, hnew⟩ := exists_extendMembers_merge_iff.2 ⟨mid, hextend, new', hnew'⟩
    have honce' : HasManifest root once new := hasManifest_of_run h hnew honce
    have hfirst' : HasManifest root first mid := hasManifest_of_run h hextend hfirst
    have hsecond' : HasManifest root second new' := hasManifest_of_run hfirst' hnew' hsecond
    have hover : BothOver a b manifest new := bothOver_of_merge (extended_of_extendMembers hnew)
    have hover' : BothOver a b manifest new' :=
      bothOver_of_extended (extended_of_extendMembers hextend) (extended_of_extendMembers hnew')
    exact ⟨new, new', honce'.read, hsecond'.read, equal_of_bothOver hover hover', hover, hover'⟩

/-- A later version of a dependency wins over an earlier one, and both leave the others alone. -/
theorem extendManifest_merge_versions :
    let root : Place := ⟨".", []⟩
    let older : Extension := { dependencies := (∅ : Section).insert "vuetify" "^2.2.11" }
    let newer : Extension := { dependencies := (∅ : Section).insert "vuetify" "^2.3.0" }
    ∃ new new', readManifest ((older.merge newer).extendManifest root mixedTree).1
          (root.resolve "package.json") = .ok new ∧
        readManifest (newer.extendManifest root (older.extendManifest root mixedTree).1).1
          (root.resolve "package.json") = .ok new' ∧
        (Value.object new).Equal (.object new') ∧
        Members.get? "vuetify" (sectionOf new "dependencies") = some (.string "^2.3.0") ∧
        Members.get? "vue" (sectionOf new "dependencies") = some (.string "^2.6.10") := by
  intro root older newer
  have hextend : ∃ new, (older.merge newer).extendMembers mixedManifest = .ok new := ⟨_, rfl⟩
  have hok := (exists_extendManifest_iff hasManifest_mixedTree (older.merge newer)).2 hextend
  rcases honce : (older.merge newer).extendManifest root mixedTree with ⟨once, merged⟩
  rcases hfirst : older.extendManifest root mixedTree with ⟨first, lower⟩
  rcases hsecond : newer.extendManifest root first with ⟨second, upper⟩
  rw [honce] at hok
  obtain ⟨-, hboth⟩ := extendManifest_merge hasManifest_mixedTree honce hfirst hsecond
  obtain ⟨new, new', hnew, hnew', hequal, hover, -⟩ := hboth hok
  have hentries : (newer.entriesOf "dependencies").isEmpty = false := by
    simp [entriesOf_dependencies, newer]
  obtain ⟨now, hget, hvalues⟩ := hover.sections "dependencies" (.inr hentries)
  have hnow : sectionOf new "dependencies" = now := by rw [sectionOf, hget]
  refine ⟨new, new', hnew, hnew', hequal, ?_, ?_⟩
  · rw [hnow, hvalues]
    simp [entriesOf_dependencies, newer]
  · have hvue : Members.get? "vue" (sectionOf mixedManifest "dependencies") =
        some (.string "^2.6.10") := rfl
    rw [hnow, hvalues, hvue]
    simp [entriesOf_dependencies, newer, older]

end Extension

end ProjectSetup
