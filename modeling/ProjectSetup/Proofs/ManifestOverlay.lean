import ProjectSetup.Proofs.Manifest
import ProjectSetup.Proofs.PassFrame
import ProjectSetup.Proofs.Setup

/-!
# An extension over a manifest, all at once

An extension is put over a manifest one section after the other, and any of them may find that it
cannot be.  What comes of it is told by the manifest at the start alone: the extension fails if there
is a section with entries that the manifest has something else than an object for, and then nothing
is written, whatever the sections before it have put in.  Otherwise each section with entries is there
with the entries over the ones it had, and everything else is as it was, in its old order.

* `extendMembers_of_not_blocks`, `extendMembers_of_firstBlocked`: the two ways it can end.
* `extended_overlay`: the manifest under an extension, key by key.
* `extendManifest_of_extendMembers`: what is written reads back.
* `extendManifest_exact`: what extending the manifest of a project comes to.
-/

namespace ProjectSetup

open Json (Members Value)

namespace Extension

variable {manifest manifest' new : Members} {name key : String} {entries : Section}
  {extension : Extension} {sections : List (String × Section)}

/-! ### Sections of extensions and of manifests -/

/-- The entries of the section of the name; a name that no section has comes without entries. -/
def entriesOf (extension : Extension) (name : String) : Section :=
  (extension.sections.lookup name).getD ∅

/-- The members of the section of the name; there are none where it is absent or no object. -/
def sectionOf (manifest : Members) (name : String) : Members :=
  match Members.get? name manifest with
  | some (.object old) => old
  | _ => []

/-- The manifest has something else than an object under the name. -/
def Foreign (manifest : Members) (name : String) : Prop :=
  ∃ value, Members.get? name manifest = some value ∧ ∀ old, value ≠ .object old

/-- The section has entries, and the manifest has something else than an object for it. -/
def Blocks (manifest : Members) (s : String × Section) : Prop :=
  s.2.isEmpty = false ∧ Foreign manifest s.1

/-- The first section of the extension with entries that the manifest has something else than an
object for. -/
inductive FirstBlocked (extension : Extension) (manifest : Members) (name : String) : Prop where
  | intro {front back : List (String × Section)} {entries : Section}
    (sections : extension.sections = front ++ (name, entries) :: back)
    (blocks : Blocks manifest (name, entries)) (before : ∀ s ∈ front, ¬ Blocks manifest s)

theorem entriesOf_dependencies (extension : Extension) :
    extension.entriesOf "dependencies" = extension.dependencies :=
  rfl

theorem entriesOf_of_mem {s : String × Section} (h : s ∈ extension.sections) :
    extension.entriesOf s.1 = s.2 := by
  unfold sections at h
  unfold entriesOf sections
  simp only [List.mem_cons, List.not_mem_nil, or_false] at h
  rcases h with rfl | rfl | rfl <;> rfl

theorem entriesOf_of_not_mem (h : name ∉ extension.sections.map Prod.fst) :
    extension.entriesOf name = ∅ := by
  have hnone : extension.sections.lookup name = none := by
    refine List.lookup_eq_none_iff.2 fun s hs => ?_
    have hne : name ≠ s.1 := fun heq => h (heq ▸ List.mem_map_of_mem hs)
    simpa using hne
  rw [entriesOf, hnone, Option.getD_none]

/-- A name whose section has entries is the name of a section. -/
theorem mem_sections_of_entriesOf (h : (extension.entriesOf name).isEmpty = false) :
    (name, extension.entriesOf name) ∈ extension.sections := by
  by_cases hmem : name ∈ extension.sections.map Prod.fst
  · obtain ⟨s, hs, rfl⟩ := List.mem_map.1 hmem
    rw [entriesOf_of_mem hs]
    exact hs
  · rw [entriesOf_of_not_mem hmem] at h
    simp at h

theorem forall_not_blocks_iff :
    (∀ s ∈ extension.sections, ¬ Blocks manifest s) ↔
      ∀ name, (extension.entriesOf name).isEmpty = false → ¬ Foreign manifest name := by
  constructor
  · intro h name hentries hforeign
    exact h _ (mem_sections_of_entriesOf hentries) ⟨hentries, hforeign⟩
  · rintro h s hs ⟨hentries, hforeign⟩
    exact h s.1 (by rwa [entriesOf_of_mem hs]) hforeign

theorem exists_firstBlocked (h : ∃ s ∈ extension.sections, Blocks manifest s) :
    ∃ name, FirstBlocked extension manifest name := by
  classical
  obtain ⟨s, hs, hblocks⟩ := h
  have hfind : (extension.sections.find? fun s => decide (Blocks manifest s)).isSome = true :=
    List.find?_isSome.2 ⟨s, hs, decide_eq_true hblocks⟩
  obtain ⟨⟨name, entries⟩, hfound⟩ := Option.isSome_iff_exists.1 hfind
  obtain ⟨hfirst, front, back, hsections, hbefore⟩ := List.find?_eq_some_iff_append.1 hfound
  exact ⟨name, .intro hsections (of_decide_eq_true hfirst) fun t ht => by simpa using hbefore t ht⟩

theorem foreign_congr (h : Members.get? name manifest' = Members.get? name manifest) :
    Foreign manifest' name ↔ Foreign manifest name := by
  rw [Foreign, Foreign, h]

theorem sectionOf_congr (h : Members.get? name manifest' = Members.get? name manifest) :
    sectionOf manifest' name = sectionOf manifest name := by
  rw [sectionOf, sectionOf, h]

/-! ### Sections over a manifest -/

/-- The sections with entries, each as it is in the manifest with the entries over it. -/
def overlaidSections (manifest : Members) (sections : List (String × Section)) : Members :=
  (sections.filter fun s => !s.2.isEmpty).map fun s =>
    (s.1, .object (Members.overlay (sectionOf manifest s.1) (members s.2)))

theorem overlaidSections_cons (manifest : Members) (s : String × Section)
    (sections : List (String × Section)) :
    overlaidSections manifest (s :: sections) =
      overlaidSections manifest [s] ++ overlaidSections manifest sections := by
  unfold overlaidSections
  rw [← List.map_append, ← List.filter_append, List.singleton_append]

theorem keys_overlaidSections (manifest : Members) (sections : List (String × Section)) :
    (overlaidSections manifest sections).keys =
      (sections.filter fun s => !s.2.isEmpty).map Prod.fst := by
  rw [overlaidSections, Members.keys, List.map_map]
  rfl

theorem keys_overlaidSections_sublist (manifest : Members) (sections : List (String × Section)) :
    (overlaidSections manifest sections).keys.Sublist (sections.map Prod.fst) := by
  rw [keys_overlaidSections]
  exact List.filter_sublist.map Prod.fst

theorem mem_overlaidSections (manifest : Members) {s : String × Section} (hs : s ∈ sections)
    (hentries : s.2.isEmpty = false) :
    (s.1, .object (Members.overlay (sectionOf manifest s.1) (members s.2))) ∈
      overlaidSections manifest sections := by
  have hsome : s ∈ sections.filter fun s => !s.2.isEmpty :=
    List.mem_filter.2 ⟨hs, by rw [hentries]; rfl⟩
  exact List.mem_map.2 ⟨s, hsome, rfl⟩

theorem overlaidSections_congr
    (h : ∀ s ∈ sections, Members.get? s.1 manifest' = Members.get? s.1 manifest) :
    overlaidSections manifest' sections = overlaidSections manifest sections := by
  refine List.map_congr_left fun s hs => ?_
  rw [sectionOf_congr (h s (List.mem_of_mem_filter hs))]

/-- A section that is not blocked is put over the one of the manifest. -/
theorem extendSection_of_not_blocks (h : ¬ Blocks manifest (name, entries)) :
    extendSection manifest name entries =
      .ok (Members.overlay manifest (overlaidSections manifest [(name, entries)])) := by
  rw [extendSection]
  by_cases hempty : entries.isEmpty = true
  · have hnone : overlaidSections manifest [(name, entries)] = [] := by
      simp [overlaidSections, hempty]
    rw [if_pos hempty, hnone]
    rfl
  · have hone : overlaidSections manifest [(name, entries)] =
        [(name, .object (Members.overlay (sectionOf manifest name) (members entries)))] := by
      simp [overlaidSections, hempty]
    rw [if_neg hempty, hone]
    unfold sectionOf
    cases hget : Members.get? name manifest with
    | none => rfl
    | some value =>
      cases value with
      | object old => rfl
      | _ => exact absurd ⟨by simpa using hempty, _, hget, by simp⟩ h

/-- A blocked section is given by its name. -/
theorem extendSection_of_blocks (h : Blocks manifest (name, entries)) :
    extendSection manifest name entries = .error name := by
  obtain ⟨hentries, value, hget, hforeign⟩ := h
  have hnot : ¬ entries.isEmpty = true := by simpa using hentries
  rw [extendSection, if_neg hnot, hget, Option.getD_some]
  cases value with
  | object old => exact absurd rfl (hforeign old)
  | _ => rfl

/-- Where a section goes, nothing else changes. -/
theorem get?_overlay_overlaidSections_of_not_mem (h : name ∉ sections.map Prod.fst) :
    Members.get? name (Members.overlay manifest (overlaidSections manifest' sections)) =
      Members.get? name manifest := by
  refine Members.get?_overlay_of_not_mem fun hmem => h ?_
  exact (keys_overlaidSections_sublist manifest' sections).subset hmem

/-- Sections that are put over a manifest one after the other, where none is blocked at the start.
None of them sees what the others put in, since their names are apart. -/
theorem foldlM_of_not_blocks (hnames : (sections.map Prod.fst).Nodup)
    (h : ∀ s ∈ sections, ¬ Blocks manifest s) :
    sections.foldlM (fun manifest (name, entries) => extendSection manifest name entries) manifest =
      .ok (Members.overlay manifest (overlaidSections manifest sections)) := by
  induction sections generalizing manifest with
  | nil => rfl
  | cons s sections ih =>
    rw [List.map_cons, List.nodup_cons] at hnames
    let mid := Members.overlay manifest (overlaidSections manifest [s])
    have hmid : ∀ t ∈ sections, Members.get? t.1 mid = Members.get? t.1 manifest := by
      intro t ht
      refine get?_overlay_overlaidSections_of_not_mem ?_
      have hne : t.1 ≠ s.1 := fun heq => hnames.1 (heq ▸ List.mem_map_of_mem ht)
      simpa using hne
    have hfree : ∀ t ∈ sections, ¬ Blocks mid t := by
      intro t ht hblocks
      exact h t (List.mem_cons_of_mem _ ht) ⟨hblocks.1, (foreign_congr (hmid t ht)).1 hblocks.2⟩
    have hfirst : extendSection manifest s.1 s.2 = .ok mid :=
      extendSection_of_not_blocks (h s List.mem_cons_self)
    rw [List.foldlM_cons]
    dsimp only
    rw [hfirst]
    show sections.foldlM _ mid = _
    rw [ih hnames.2 hfree, overlaidSections_congr hmid, overlaidSections_cons, Members.overlay,
      Members.overlay, List.foldl_append]
    rfl

/-- **An extension none of whose sections is blocked** is put over the manifest. -/
theorem extendMembers_of_not_blocks (h : ∀ s ∈ extension.sections, ¬ Blocks manifest s) :
    extension.extendMembers manifest =
      .ok (Members.overlay manifest (overlaidSections manifest extension.sections)) :=
  foldlM_of_not_blocks (nodup_sections extension) h

/-- **An extension with a blocked section** gives the name of the first one. -/
theorem extendMembers_of_firstBlocked (h : FirstBlocked extension manifest name) :
    extension.extendMembers manifest = .error name := by
  obtain @⟨front, back, entries, hsections, hblocks, hbefore⟩ := h
  have hnames := nodup_sections extension
  rw [hsections, List.map_append, List.map_cons, List.nodup_append] at hnames
  obtain ⟨hfront, -, hapart⟩ := hnames
  have hname : name ∉ front.map Prod.fst := fun hmem => hapart _ hmem name List.mem_cons_self rfl
  -- the sections before it are put over the manifest, and leave it blocked
  let mid := Members.overlay manifest (overlaidSections manifest front)
  have hstill : Blocks mid (name, entries) :=
    ⟨hblocks.1, (foreign_congr (get?_overlay_overlaidSections_of_not_mem hname)).2 hblocks.2⟩
  rw [extendMembers, hsections, List.foldlM_append, foldlM_of_not_blocks hfront hbefore]
  show (extendSection mid name entries >>= fun manifest => List.foldlM _ manifest back) = _
  rw [extendSection_of_blocks hstill]
  rfl

/-- An extension is put over a manifest unless one of its sections is blocked. -/
theorem extendMembers_eq_ok_iff :
    extension.extendMembers manifest = .ok new ↔ (∀ s ∈ extension.sections, ¬ Blocks manifest s) ∧
      new = Members.overlay manifest (overlaidSections manifest extension.sections) := by
  by_cases h : ∀ s ∈ extension.sections, ¬ Blocks manifest s
  · rw [extendMembers_of_not_blocks h, Except.ok.injEq, eq_comm, and_iff_right h]
  · have hblocked : ∃ s ∈ extension.sections, Blocks manifest s := by simpa using h
    obtain ⟨name, hfirst⟩ := exists_firstBlocked hblocked
    rw [extendMembers_of_firstBlocked hfirst]
    exact iff_of_false (by simp) fun hok => h hok.1

theorem exists_extendMembers_iff :
    (∃ new, extension.extendMembers manifest = .ok new) ↔
      ∀ name, (extension.entriesOf name).isEmpty = false → ¬ Foreign manifest name := by
  rw [← forall_not_blocks_iff]
  constructor
  · rintro ⟨new, hnew⟩
    exact (extendMembers_eq_ok_iff.1 hnew).1
  · intro hfree
    exact ⟨_, extendMembers_of_not_blocks hfree⟩

/-! ### The manifest under an extension, key by key -/

theorem get?_members (entries : Section) (key : String) :
    Members.get? key (members entries) = entries[key]?.map .string := by
  cases hentry : entries[key]? with
  | none =>
    refine Members.get?_eq_none_iff.2 fun hmem => ?_
    rw [keys_members, Std.TreeMap.mem_keys, Std.TreeMap.mem_iff_isSome_getElem?, hentry] at hmem
    cases hmem
  | some entry =>
    refine Members.get?_of_mem (nodup_keys_members entries) (List.mem_map.2 ⟨(key, entry), ?_, rfl⟩)
    exact Std.TreeMap.mem_toList_iff_getElem?_eq_some.2 hentry

/-- One section is the other with the entries over it: the keys it had keep their places, and new ones
follow in the order of the entries. -/
structure SectionOver (entries : Section) (old new : Members) : Prop where
  keys : new.keys = old.keys ++ entries.keys.filter fun key => key ∉ old.keys
  values : ∀ key,
    Members.get? key new = (entries[key]?.map .string).or (Members.get? key old)

/-- One manifest is the other under the extension. -/
structure Extended (extension : Extension) (manifest new : Members) : Prop where
  /-- The keys that were there keep their places, and the sections with entries that were not there
  follow. -/
  keys : new.keys = manifest.keys ++
    ((extension.sections.filter fun s => !s.2.isEmpty).map Prod.fst).filter
      fun name => name ∉ manifest.keys
  /-- A section that the extension has entries for has these over what it had. -/
  sections : ∀ name, (extension.entriesOf name).isEmpty = false →
    ∃ now, Members.get? name new = some (.object now) ∧
      SectionOver (extension.entriesOf name) (sectionOf manifest name) now
  /-- Everything else is as it was. -/
  others : ∀ name, (extension.entriesOf name).isEmpty = true →
    Members.get? name new = Members.get? name manifest

theorem sectionOver_overlay (entries : Section) (old : Members) :
    SectionOver entries old (Members.overlay old (members entries)) := by
  have hover : Members.Overlaid old (members entries) (Members.overlay old (members entries)) :=
    Members.overlaid_overlay (nodup_keys_members entries)
  refine ⟨?_, fun key => ?_⟩
  · rw [hover.keys, keys_members]
  · rw [hover.values, get?_members]

theorem extended_overlay (extension : Extension) (manifest : Members) :
    Extended extension manifest
      (Members.overlay manifest (overlaidSections manifest extension.sections)) := by
  have hnodup : (overlaidSections manifest extension.sections).keys.Nodup :=
    (nodup_sections extension).sublist (keys_overlaidSections_sublist _ _)
  refine ⟨?_, fun name hentries => ?_, fun name hempty => ?_⟩
  · rw [Members.keys_overlay hnodup, keys_overlaidSections]
  · have hmem := mem_sections_of_entriesOf hentries
    exact ⟨_, Members.get?_overlay hnodup _ (mem_overlaidSections manifest hmem hentries),
      sectionOver_overlay _ _⟩
  · refine Members.get?_overlay_of_not_mem fun hmem => ?_
    rw [keys_overlaidSections] at hmem
    obtain ⟨s, hs, rfl⟩ := List.mem_map.1 hmem
    obtain ⟨hin, hsome⟩ := List.mem_filter.1 hs
    rw [entriesOf_of_mem hin] at hempty
    simp [hempty] at hsome

theorem extended_of_extendMembers (h : extension.extendMembers manifest = .ok new) :
    Extended extension manifest new := by
  obtain ⟨-, rfl⟩ := extendMembers_eq_ok_iff.1 h
  exact extended_overlay extension manifest

/-! ### Extensions that change nothing -/

/-- A section that is there in one of two equal manifests is there in the other. -/
theorem Covers.of_equal (hequal : (Value.object new).Equal (.object manifest))
    (h : Covers new name entries) : Covers manifest name entries := by
  rcases h with hempty | ⟨old, hget, hmembers⟩
  · exact .inl hempty
  · right
    have hrel := Value.equal_object_iff.1 hequal name
    rw [hget] at hrel
    generalize Members.get? name manifest = found at hrel ⊢
    cases hrel with
    | @some _ value hvalue =>
      cases value with
      | object old' =>
        refine ⟨old', rfl, fun m hm => ?_⟩
        obtain ⟨e, -, rfl⟩ := List.mem_map.1 hm
        have hentry := Value.equal_object_iff.1 hvalue e.1
        rw [hmembers _ hm] at hentry
        generalize Members.get? e.1 old' = entry at hentry ⊢
        cases hentry with
        | some htext =>
          cases htext
          rfl
      | _ => cases hvalue

/-- A manifest under an extension that is equal to the one before is the same, also in its order. -/
theorem eq_of_equal (hnew : extension.extendMembers manifest = .ok new)
    (hequal : (Value.object new).Equal (.object manifest)) : new = manifest := by
  have hcovers : ∀ s ∈ extension.sections, Covers manifest s.1 s.2 := fun s hs =>
    ((covers_of_foldlM (nodup_sections extension) hnew).1 s hs).of_equal hequal
  have hsame : extension.extendMembers manifest = .ok manifest := foldlM_of_covers hcovers
  rw [hnew] at hsame
  exact Except.ok.inj hsame

/-! ### The manifest of a project -/

variable {root : Place} {tree tree' : Tree}

/-- The manifest of a project: its file can be read and written, or made if it is not there, and it
has no floating-point numbers. -/
structure HasManifest (root : Place) (tree : Tree) (manifest : Members) : Prop where
  inside : tree.Inside (root.resolve "package.json").parts
  read : readManifest tree (root.resolve "package.json") = .ok manifest
  integral : (Value.object manifest).Integral

/-- Where the root is a directory, the file can be read and written if it can be read. -/
theorem hasManifest_of_directory (hroot : tree.sight root.parts = .directory)
    (hread : readManifest tree (root.resolve "package.json") = .ok manifest)
    (hint : (Value.object manifest).Integral) : HasManifest root tree manifest := by
  have hnames : Path.names (Path.dropDotSlash "package.json".toList) =
      [] ++ ["package.json".toList] := by decide
  exact ⟨Tree.inside_resolve hroot [] _ hnames (by decide) (by decide), hread, hint⟩

theorem extendManifest_of_error (h : HasManifest root tree manifest)
    (hnew : extension.extendMembers manifest = .error name) :
    extension.extendManifest root tree =
      (tree, .error (.sectionNotObject name (root.resolve "package.json").shown)) := by
  have hfail : extension.newMembers? tree (root.resolve "package.json") =
      .error (.sectionNotObject name (root.resolve "package.json").shown) := by
    rw [newMembers?, h.read]
    simp only [bind, Except.bind]
    rw [hnew]
  rw [extendManifest, ← resolve_manifest]
  dsimp only
  rw [hfail]

/-- A file that was read as a manifest can be written. -/
theorem writeText_of_readManifest {place : Place} (text : String)
    (hinside : tree.Inside place.parts) (hread : readManifest tree place = .ok manifest) :
    ∃ tree', tree.writeText place text = (tree', .ok ()) ∧ tree'.Inside place.parts ∧
      tree'.readText? place = .ok (some text) := by
  obtain ⟨text?, htext, -⟩ := Json.ok_of_bind hread
  obtain ⟨path, tree', hwrite, hfollow, -, hwith⟩ := writeText_of_readText? text hinside htext
  refine ⟨tree', hwrite, hinside.mono hwith.keepsDirectories, ?_⟩
  rw [Tree.readText?, Tree.sight_of_follow hfollow, hwith.there]

/-- **What is written reads back**: where the extension can be put over the manifest, the manifest
that is read afterwards is the one under the extension.  Nothing is written if that is the one that
was there. -/
theorem extendManifest_of_extendMembers (h : HasManifest root tree manifest)
    (hnew : extension.extendMembers manifest = .ok new) :
    ∃ tree' changed, extension.extendManifest root tree = (tree', .ok changed) ∧
      HasManifest root tree' new ∧
      (changed = true ↔ ¬ (Value.object new).Equal (.object manifest)) ∧
      (changed = false → tree' = tree) := by
  obtain ⟨hnest, hkeys⟩ := shape_of_readManifest h.read
  have hshape := shaped_extendMembers ⟨hnest, hkeys, h.integral⟩ hnew
  have hsame := Value.same_iff_equal hshape.wellKeyed hkeys
  have hmembers := newMembers?_of_extendMembers h.read hnew
  rw [extendManifest, ← resolve_manifest]
  dsimp only
  rw [hmembers]
  by_cases hequal : (Value.object new).Equal (.object manifest)
  · -- equal manifests could still have their keys in different orders
    have heq : new = manifest := eq_of_equal hnew hequal
    rw [if_pos (hsame.2 hequal)]
    exact ⟨tree, false, rfl, heq ▸ h, by simp [hequal], fun _ => rfl⟩
  · rw [if_neg (mt hsame.1 hequal)]
    obtain ⟨tree', hwrite, hinside', hwritten⟩ :=
      writeText_of_readManifest (manifestText new) h.inside h.read
    dsimp only
    rw [hwrite]
    exact ⟨tree', true, rfl, ⟨hinside', readManifest_of_written hshape hwritten, hshape.floats⟩,
      by simp [hequal], by simp⟩

/-- The tree after an extension that can be put over the manifest has the manifest under it. -/
theorem hasManifest_of_run {result : Except Failure Bool} (h : HasManifest root tree manifest)
    (hnew : extension.extendMembers manifest = .ok new)
    (hrun : extension.extendManifest root tree = (tree', result)) : HasManifest root tree' new := by
  obtain ⟨written, changed, hwritten, hhas, -⟩ := extendManifest_of_extendMembers h hnew
  rw [hwritten] at hrun
  obtain ⟨rfl, -⟩ := Prod.mk.inj hrun
  exact hhas

theorem exists_extendManifest_iff (h : HasManifest root tree manifest) (extension : Extension) :
    (∃ changed, (extension.extendManifest root tree).2 = .ok changed) ↔
      ∃ new, extension.extendMembers manifest = .ok new := by
  constructor
  · rintro ⟨changed, hok⟩
    cases hnew : extension.extendMembers manifest with
    | error name =>
      rw [extendManifest_of_error h hnew] at hok
      cases hok
    | ok new => exact ⟨new, rfl⟩
  · rintro ⟨new, hnew⟩
    obtain ⟨tree', changed, hrun, -⟩ := extendManifest_of_extendMembers h hnew
    exact ⟨changed, by rw [hrun]⟩

/-- A manifest whose dependencies are an object and whose scripts are not. -/
def mixedManifest : Members :=
  [("dependencies", .object [("vue", .string "^2.6.10")]), ("scripts", .null)]

/-- A project with that manifest. -/
def mixedTree : Tree :=
  .directory [("package.json", .file (.text (manifestText mixedManifest)))]

theorem hasManifest_mixedTree : HasManifest ⟨".", []⟩ mixedTree mixedManifest := by
  have hshape : (Value.object mixedManifest).Shaped Json.maxDepth fun _ => False := by
    refine ⟨by decide, ?_, ?_⟩
    · simp [mixedManifest, Value.WellKeyed, Value.MembersWellKeyed, Members.keys]
    · simp [mixedManifest, Value.EveryFloat, Value.MembersEveryFloat]
  exact hasManifest_of_directory rfl (readManifest_of_written hshape rfl) hshape.floats

end Extension

end ProjectSetup
