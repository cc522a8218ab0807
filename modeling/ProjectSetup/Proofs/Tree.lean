import Mathlib.Data.List.Infix
import Mathlib.Tactic.Common
import ProjectSetup.Route

/-!
# What a written file changes

A file is written at a path of names from a directory that is there.  Then it stands there, and
what stands elsewhere is as before, whether or not the write succeeds: only directories on the way
are new.

* `look_putFile`: what stands at the path and elsewhere after a file was put there.
* `sight_of_leadsTo`: what stands at the end of a path that goes on by names alone.
-/

namespace ProjectSetup

namespace Tree

theorem entry?_setEntry (name other : String) (tree : Tree) (entries : List (String × Tree)) :
    entry? other (setEntry name tree entries) =
      if name = other then some tree else entry? other entries := by
  induction entries with
  | nil => simp [setEntry, entry?]
  | cons e rest ih =>
    obtain ⟨n, t⟩ := e
    by_cases hn : n = name
    · subst hn
      by_cases ho : n = other <;> simp [setEntry, entry?, ho]
    · by_cases ho : n = other
      · subst ho
        simp [setEntry, entry?, hn, Ne.symm hn]
      · simp [setEntry, entry?, hn, ho, ih]

/-! ### Paths and directories -/

theorem look_nil_of_directory {tree : Tree} {path names : List String}
    (h : tree.look (path ++ names) = .directory) : tree.look path = .directory := by
  induction path generalizing tree with
  | nil =>
    cases tree with
    | directory entries => rfl
    | file content => cases names <;> cases h
  | cons name path ih =>
    cases tree with
    | file content => cases h
    | directory entries =>
      simp only [List.cons_append, look] at h ⊢
      cases he : entry? name entries with
      | none => simp [he] at h
      | some sub =>
        simp only [he] at h ⊢
        exact ih h

/-- Everything that was a directory is one. -/
def KeepsDirectories (tree tree' : Tree) : Prop :=
  ∀ path, tree.look path = .directory → tree'.look path = .directory

theorem KeepsDirectories.refl (tree : Tree) : KeepsDirectories tree tree :=
  fun _ h => h

theorem KeepsDirectories.trans {a b c : Tree} (hab : KeepsDirectories a b)
    (hbc : KeepsDirectories b c) : KeepsDirectories a c :=
  fun path h => hbc path (hab path h)

/-- What stands at paths that are not on the way to the given one, and are not below it. -/
def SameBeside (path : List String) (tree tree' : Tree) : Prop :=
  ∀ other, ¬ other <+: path → ¬ path <+: other → tree'.look other = tree.look other

/-! ### Directories that are made -/

theorem look_nest_self (leaf : Tree) (names : List String) :
    (nest leaf names).look names = leaf.look [] := by
  induction names with
  | nil => rfl
  | cons name names ih => simp [nest, look, entry?, ih]

theorem look_nest_beside (leaf : Tree) {names other : List String} (h : ¬ other <+: names)
    (h' : ¬ names <+: other) : (nest leaf names).look other = .missing := by
  induction names generalizing other with
  | nil => exact absurd List.nil_prefix h'
  | cons name names ih =>
    cases other with
    | nil => exact absurd List.nil_prefix h
    | cons n other =>
      by_cases hn : name = n
      · subst hn
        rw [List.prefix_cons_inj] at h h'
        simp [nest, look, entry?, ih h h']
      · simp [nest, look, entry?, hn]

theorem look_empty {path : List String} (h : path ≠ []) : empty.look path = .missing := by
  cases path with
  | nil => exact absurd rfl h
  | cons name path => rfl

theorem look_setEntry (name n : String) (sub : Tree) (entries : List (String × Tree))
    (path : List String) :
    (directory (setEntry name sub entries)).look (n :: path) =
      if name = n then sub.look path else (directory entries).look (n :: path) := by
  rw [look, entry?_setEntry]
  split_ifs
  · rfl
  · rw [look]

theorem keepsDirectories_setEntry {name : String} {sub : Tree} {entries : List (String × Tree)}
    (h : ∀ path, (directory entries).look (name :: path) = .directory →
      sub.look path = .directory) :
    KeepsDirectories (.directory entries) (.directory (setEntry name sub entries)) := by
  intro path hpath
  cases path with
  | nil => rfl
  | cons n path =>
    rw [look_setEntry]
    split_ifs with hn
    · subst hn
      exact h path hpath
    · exact hpath

theorem look_setEntry_of_not_prefix {name : String} {sub : Tree} {entries : List (String × Tree)}
    {path other : List String} (hother : ¬ other <+: name :: path)
    (h : ∀ rest, other = name :: rest → ¬ rest <+: path →
      sub.look rest = (directory entries).look (name :: rest)) :
    (directory (setEntry name sub entries)).look other = (directory entries).look other := by
  cases other with
  | nil => exact absurd List.nil_prefix hother
  | cons n rest =>
    rw [look_setEntry]
    split_ifs with hn
    · subst hn
      exact h rest rfl fun hp => hother (List.prefix_cons_inj _ |>.2 hp)
    · rfl

/-- Below a new directory nothing stands. -/
theorem look_nest_empty {path other : List String} (h : ¬ other <+: path) :
    (nest empty path).look other = .missing := by
  by_cases hbelow : path <+: other
  · obtain ⟨more, rfl⟩ := hbelow
    have hmore : more ≠ [] := by
      rintro rfl
      rw [List.append_nil] at h
      exact h (List.prefix_refl path)
    clear h
    induction path with
    | nil => exact look_empty hmore
    | cons name path ih => simpa [nest, look, entry?] using ih
  · exact look_nest_beside empty h hbelow

/-- A directory is made where nothing stood: it is there, and everything that is not on the way is
as before. -/
theorem look_makeDirectory {path : List String} {tree : Tree} (h : tree.look path = .missing) :
    (tree.makeDirectory path).look path = .directory ∧
      KeepsDirectories tree (tree.makeDirectory path) ∧
      ∀ other, ¬ other <+: path → (tree.makeDirectory path).look other = tree.look other := by
  induction path generalizing tree with
  | nil => cases tree <;> cases h
  | cons name path ih =>
    cases tree with
    | file content => cases h
    | directory entries =>
      rw [look] at h
      cases he : entry? name entries with
      | none =>
        have hmissing : ∀ rest, (directory entries).look (name :: rest) = .missing := by
          intro rest
          rw [look, he]
        have hmake : makeDirectory (name :: path) (.directory entries) =
            .directory (setEntry name (nest empty path) entries) := by
          rw [makeDirectory, he]
        rw [hmake]
        refine ⟨?_, ?_, fun other hother => ?_⟩
        · rw [look_setEntry, if_pos rfl, look_nest_self]
          rfl
        · refine keepsDirectories_setEntry fun rest hrest => ?_
          rw [hmissing] at hrest
          cases hrest
        · refine look_setEntry_of_not_prefix hother fun rest _ hrest => ?_
          rw [look_nest_empty hrest, hmissing]
      | some sub =>
        have hsub : ∀ rest, (directory entries).look (name :: rest) = sub.look rest := by
          intro rest
          rw [look, he]
        rw [he] at h
        obtain ⟨hpath, hkeep, hsame⟩ := ih h
        have hmake : makeDirectory (name :: path) (.directory entries) =
            .directory (setEntry name (makeDirectory path sub) entries) := by
          rw [makeDirectory, he]
        rw [hmake]
        refine ⟨?_, ?_, fun other hother => ?_⟩
        · rw [look_setEntry, if_pos rfl, hpath]
        · refine keepsDirectories_setEntry fun rest hrest => ?_
          rw [hsub] at hrest
          exact hkeep rest hrest
        · refine look_setEntry_of_not_prefix hother fun rest _ hrest => ?_
          rw [hsub, hsame rest hrest]

/-! ### Files that are written -/

theorem look_write {content : Content} {path : List String} {tree tree' : Tree}
    (h : tree.write content path = .ok tree') :
    tree'.look path = .file content ∧ KeepsDirectories tree tree' ∧ SameBeside path tree tree' := by
  induction path generalizing tree tree' with
  | nil =>
    cases tree with
    | directory entries => cases h
    | file old =>
      obtain rfl := Except.ok.inj h
      refine ⟨rfl, ?_, fun other hother hbelow => absurd List.nil_prefix hbelow⟩
      intro other hother
      cases other <;> cases hother
  | cons name path ih =>
    cases tree with
    | file old => cases path <;> cases h
    | directory entries =>
      cases he : entry? name entries with
      | none =>
        have hmissing : ∀ rest, (directory entries).look (name :: rest) = .missing := by
          intro rest
          rw [look, he]
        rw [write, he] at h
        obtain rfl := Except.ok.inj h
        refine ⟨?_, ?_, fun other hother hbelow => ?_⟩
        · rw [look_setEntry, if_pos rfl, look_nest_self]
          rfl
        · refine keepsDirectories_setEntry fun rest hrest => ?_
          rw [hmissing] at hrest
          cases hrest
        · refine look_setEntry_of_not_prefix hother fun rest hother hrest => ?_
          subst hother
          rw [List.prefix_cons_inj] at hbelow
          rw [look_nest_beside _ hrest hbelow, hmissing]
      | some sub =>
        have hsub : ∀ rest, (directory entries).look (name :: rest) = sub.look rest := by
          intro rest
          rw [look, he]
        cases hw : sub.write content path with
        | error fault => simp [write, he, hw, Except.map] at h
        | ok sub' =>
          obtain rfl : .directory (setEntry name sub' entries) = tree' := by
            simpa [write, he, hw, Except.map] using h
          obtain ⟨hpath, hkeep, hsame⟩ := ih hw
          refine ⟨?_, ?_, fun other hother hbelow => ?_⟩
          · rw [look_setEntry, if_pos rfl, hpath]
          · refine keepsDirectories_setEntry fun rest hrest => ?_
            rw [hsub] at hrest
            exact hkeep rest hrest
          · refine look_setEntry_of_not_prefix hother fun rest hother hrest => ?_
            subst hother
            rw [List.prefix_cons_inj] at hbelow
            rw [hsub, hsame rest hrest hbelow]

/-! ### Following paths -/

/-- Every part of a path is a step on from a directory. -/
theorem follow_cons_eq_ok_iff {tree : Tree} {here there : List String} {part : PathPart}
    {parts : List PathPart} :
    tree.follow here (part :: parts) = .ok there ↔
      tree.look here = .directory ∧ tree.follow (part.applyTo here) parts = .ok there := by
  rw [follow]
  cases tree.look here <;> simp

theorem look_of_follow_ne_nil {tree : Tree} {here there : List String} {parts : List PathPart}
    (hne : parts ≠ []) (h : tree.follow here parts = .ok there) : tree.look here = .directory := by
  obtain ⟨part, parts, rfl⟩ := List.exists_cons_of_ne_nil hne
  exact (follow_cons_eq_ok_iff.1 h).1

theorem look_of_follow {tree : Tree} {here there : List String} {parts : List PathPart}
    (h : tree.follow here parts = .ok there) (hthere : tree.look there = .directory) :
    tree.look here = .directory := by
  cases parts with
  | nil =>
    obtain rfl := Except.ok.inj h
    exact hthere
  | cons part parts => exact (follow_cons_eq_ok_iff.1 h).1

theorem exists_of_follow_append {tree : Tree} {here there : List String}
    {front back : List PathPart} (h : tree.follow here (front ++ back) = .ok there) :
    ∃ mid, tree.follow here front = .ok mid ∧ tree.follow mid back = .ok there := by
  rw [follow_append] at h
  cases hfront : tree.follow here front with
  | error obstacle =>
    rw [hfront] at h
    cases h
  | ok mid =>
    rw [hfront] at h
    exact ⟨mid, rfl, h⟩

theorem follow_of_keepsDirectories {tree tree' : Tree} (hkeep : KeepsDirectories tree tree')
    {here there : List String} {parts : List PathPart} (h : tree.follow here parts = .ok there) :
    tree'.follow here parts = .ok there := by
  induction parts generalizing here with
  | nil => exact h
  | cons part parts ih =>
    obtain ⟨hhere, hnext⟩ := follow_cons_eq_ok_iff.1 h
    exact follow_cons_eq_ok_iff.2 ⟨hkeep here hhere, ih hnext⟩

theorem follow_dropSame {tree : Tree} {here there : List String} {parts : List PathPart}
    (h : tree.follow here parts = .ok there) : tree.follow here (dropSame parts) = .ok there := by
  induction parts using List.reverseRecOn generalizing there with
  | nil => exact h
  | append_singleton parts part ih =>
    by_cases hpart : part = .same
    · subst hpart
      have hdrop : dropSame (parts ++ [.same]) = dropSame parts := by simp [dropSame]
      obtain ⟨mid, hmid, hlast⟩ := exists_of_follow_append h
      obtain rfl := Except.ok.inj (follow_cons_eq_ok_iff.1 hlast).2
      rw [hdrop]
      exact ih hmid
    · have hdrop : dropSame (parts ++ [part]) = parts ++ [part] := by simp [dropSame, hpart]
      rw [hdrop]
      exact h

/-- A path that is followed up to a directory makes no directory up to there. -/
theorem makeWay_of_follow {tree : Tree} {made : Bool} {here there : List String}
    {parts rest : List PathPart} (h : tree.follow here parts = .ok there)
    (hthere : tree.look there = .directory) :
    tree.makeWay made here (parts ++ rest) = tree.makeWay made there rest := by
  induction parts generalizing here with
  | nil =>
    obtain rfl := Except.ok.inj h
    rfl
  | cons part parts ih =>
    have hstep := (follow_cons_eq_ok_iff.1 h).2
    have hnext := ih hstep
    cases part with
    | same => exact hnext
    | above => exact hnext
    | entry name =>
      have hlook : tree.look (here ++ [name]) = .directory := look_of_follow hstep hthere
      rw [List.cons_append, makeWay, hlook]
      exact hnext

/-- The way along names from a directory: it is there in the end if nothing stands in its way, and
everything that is not on it is as before. -/
theorem look_makeWay {names : List String} {tree : Tree} {made : Bool} {here : List String}
    {tree' : Tree} {result : Except WriteFault Unit} (hhere : tree.look here = .directory)
    (h : tree.makeWay made here (names.map .entry) = (tree', result)) :
    (result = .ok () → tree'.look (here ++ names) = .directory) ∧ KeepsDirectories tree tree' ∧
      ∀ other, ¬ other <+: here ++ names → tree'.look other = tree.look other := by
  induction names generalizing tree made here with
  | nil =>
    obtain ⟨rfl, rfl⟩ := Prod.mk.inj h
    exact ⟨fun _ => by rwa [List.append_nil], KeepsDirectories.refl tree, fun _ _ => rfl⟩
  | cons name names ih =>
    have hsplit : here ++ name :: names = here ++ [name] ++ names := by simp
    rw [List.map_cons, makeWay] at h
    rw [hsplit]
    split at h
    · next hnext => exact ih hnext h
    · next hnext =>
      obtain ⟨hmade, hkeep, hsame⟩ := look_makeDirectory hnext
      obtain ⟨hdone, hkeep', hsame'⟩ := ih hmade h
      refine ⟨hdone, hkeep.trans hkeep', fun other hother => ?_⟩
      rw [hsame' other hother, hsame other]
      exact fun hp => hother (hp.trans (List.prefix_append _ _))
    · obtain ⟨rfl, rfl⟩ := Prod.mk.inj h
      exact ⟨fun hok => by (cases hok), KeepsDirectories.refl tree, fun _ _ => rfl⟩
    · obtain ⟨rfl, rfl⟩ := Prod.mk.inj h
      exact ⟨fun hok => by (cases hok), KeepsDirectories.refl tree, fun _ _ => rfl⟩

theorem follow_entries {tree : Tree} {names : List String} {here : List String} {name : String}
    (h : tree.look (here ++ names) = .directory) :
    tree.follow here ((names ++ [name]).map .entry) = .ok (here ++ (names ++ [name])) := by
  induction names generalizing here with
  | nil =>
    rw [List.append_nil] at h
    simp [follow, h, PathPart.applyTo]
  | cons n names ih =>
    have hhere : tree.look here = .directory := look_nil_of_directory h
    have hpath : tree.look (here ++ [n] ++ names) = .directory := by simpa using h
    have hnext := ih hpath
    rw [List.cons_append, List.map_cons, follow, hhere]
    simpa [PathPart.applyTo] using hnext

/-! ### Places of files -/

/-- The parts lead to `here`: they step on from directories, and from the last of these by names
alone, whether or not something stands there. -/
def LeadsTo (tree : Tree) (parts : List PathPart) (here : List String) : Prop :=
  ∃ front base names, parts = front ++ names.map .entry ∧ tree.follow [] front = .ok base ∧
    tree.look base = .directory ∧ here = base ++ names

theorem LeadsTo.append {tree : Tree} {parts : List PathPart} {here : List String}
    (h : tree.LeadsTo parts here) (names : List String) :
    tree.LeadsTo (parts ++ names.map .entry) (here ++ names) := by
  obtain ⟨front, base, old, rfl, hfollow, hbase, rfl⟩ := h
  exact ⟨front, base, old ++ names, by simp, hfollow, hbase, by simp⟩

theorem LeadsTo.mono {tree tree' : Tree} (hkeep : KeepsDirectories tree tree')
    {parts : List PathPart} {here : List String} (h : tree.LeadsTo parts here) :
    tree'.LeadsTo parts here := by
  obtain ⟨front, base, names, rfl, hfollow, hbase, rfl⟩ := h
  exact ⟨front, base, names, rfl, follow_of_keepsDirectories hkeep hfollow, hkeep base hbase, rfl⟩

/-- A directory that is there is led to by the parts that are followed to it. -/
theorem leadsTo_of_follow {tree : Tree} {parts : List PathPart} {here : List String}
    (h : tree.follow [] parts = .ok here) (hhere : tree.look here = .directory) :
    tree.LeadsTo parts here :=
  ⟨parts, here, [], by simp, h, hhere, by simp⟩

theorem sight_of_leadsTo {tree : Tree} {parts : List PathPart} {here : List String}
    (h : tree.LeadsTo parts here) : tree.sight parts = tree.look here := by
  obtain ⟨front, base, names, rfl, hfollow, -, rfl⟩ := h
  rw [← sightFrom_entries, sight, sightFrom, sightFrom, follow_append, hfollow]
  rfl

theorem makeWay_holder {tree : Tree} {front : List PathPart} {base : List String}
    (hfollow : tree.follow [] front = .ok base) (hbase : tree.look base = .directory)
    (dirs : List String) (last : String) :
    tree.makeWay false [] (holder (front ++ dirs.map .entry ++ [.entry last])) =
      tree.makeWay false base (dirs.map .entry) := by
  rw [holder_append_entry]
  rcases List.eq_nil_or_concat dirs with rfl | ⟨dirs, dir, rfl⟩
  · have hway : tree.makeWay false [] (dropSame front ++ []) = tree.makeWay false base [] :=
      makeWay_of_follow (follow_dropSame hfollow) hbase
    simpa using hway
  · have hdrop : dropSame (front ++ (dirs.concat dir).map PathPart.entry) =
        front ++ (dirs.concat dir).map PathPart.entry := by
      rw [List.concat_eq_append, List.map_append, ← List.append_assoc]
      simp [dropSame]
    rw [hdrop]
    exact makeWay_of_follow hfollow hbase

theorem putEntry_of_follow {tree : Tree} {content : Content} {front : List PathPart}
    {base dirs : List String} {last : String} (hfollow : tree.follow [] front = .ok base)
    (hdirs : tree.look (base ++ dirs) = .directory) :
    tree.putEntry content (front ++ dirs.map .entry ++ [.entry last]) =
      tree.write content (base ++ (dirs ++ [last])) := by
  have hparts : front ++ dirs.map .entry ++ [PathPart.entry last] =
      front ++ (dirs ++ [last]).map .entry := by simp
  have hend : tree.follow [] (front ++ (dirs ++ [last]).map .entry) =
      .ok (base ++ (dirs ++ [last])) := by
    rw [follow_append, hfollow]
    exact follow_entries hdirs
  have hlast : (front ++ (dirs ++ [last]).map PathPart.entry).getLast? = some (.entry last) := by
    simp
  rw [hparts, putEntry, hend, hlast]

/-- A file that is put somewhere is written where the path is followed to. -/
theorem exists_of_putEntry {tree tree' : Tree} {content : Content} {parts : List PathPart}
    (h : tree.putEntry content parts = .ok tree') :
    ∃ path, tree.follow [] parts = .ok path ∧ tree.write content path = .ok tree' := by
  rw [putEntry] at h
  cases hfollow : tree.follow [] parts with
  | error obstacle =>
    rw [hfollow] at h
    cases obstacle <;> cases h
  | ok path =>
    rw [hfollow] at h
    split at h
    · cases h
    · cases h
    · cases h
    · cases h
    · next heq _ _ =>
      obtain rfl := Except.ok.inj heq
      exact ⟨path, rfl, h⟩

/-- A file that is put somewhere is written where the names lead, after the way there is made. -/
theorem putFile_eq {tree : Tree} (content : Content) {front : List PathPart} {base : List String}
    (hfollow : tree.follow [] front = .ok base) (hbase : tree.look base = .directory)
    (dirs : List String) (last : String) :
    tree.putFile content (front ++ dirs.map .entry ++ [.entry last]) =
      match tree.makeWay false base (dirs.map .entry) with
      | (mid, .error fault) => (mid, .error fault)
      | (mid, .ok ()) =>
        match mid.write content (base ++ (dirs ++ [last])) with
        | .error fault => (mid, .error fault)
        | .ok written => (written, .ok ()) := by
  rw [putFile, makeWay_holder hfollow hbase]
  cases hway : tree.makeWay false base (dirs.map .entry) with
  | mk mid way =>
    obtain ⟨hdone, hkeep, -⟩ := look_makeWay hbase hway
    cases way with
    | error fault => rfl
    | ok _ =>
      have hput : mid.putEntry content (front ++ dirs.map .entry ++ [.entry last]) =
          mid.write content (base ++ (dirs ++ [last])) :=
        putEntry_of_follow (follow_of_keepsDirectories hkeep hfollow) (hdone rfl)
      cases hwrite : mid.write content (base ++ (dirs ++ [last])) with
      | error fault => simp only [hput, hwrite]
      | ok written => simp only [hput, hwrite]

/-- The names below a directory end in one. -/
theorem exists_last (parts : List PathPart) (old : List String) {names : List String}
    (hne : names ≠ []) :
    ∃ dirs last, old ++ names = dirs ++ [last] ∧ parts ++ old.map .entry ++ names.map .entry =
      parts ++ dirs.map .entry ++ [PathPart.entry last] := by
  have hlast : old ++ names = (old ++ names).dropLast ++ [(old ++ names).getLast (by simp [hne])] :=
    (List.dropLast_append_getLast _).symm
  refine ⟨_, _, hlast, ?_⟩
  rw [List.append_assoc, ← List.map_append]
  conv_lhs => rw [hlast]
  rw [List.map_append, List.append_assoc]
  rfl

/-- **What a file that is put somewhere changes**: it stands there unless the write fails, and then
what stood there still does; what stands beside it is as before. -/
theorem look_putFile {tree tree' : Tree} {content : Content} {parts : List PathPart}
    {here names : List String} {result : Except WriteFault Unit} (hlead : tree.LeadsTo parts here)
    (hne : names ≠ []) (h : tree.putFile content (parts ++ names.map .entry) = (tree', result)) :
    tree'.look (here ++ names) =
        (match result with | .ok () => .file content | .error _ => tree.look (here ++ names)) ∧
      KeepsDirectories tree tree' ∧ SameBeside (here ++ names) tree tree' := by
  obtain ⟨front, base, old, rfl, hfollow, hbase, rfl⟩ := hlead
  obtain ⟨dirs, last, hlast, hparts⟩ := exists_last front old hne
  rw [List.append_assoc base, hlast]
  rw [hparts, putFile_eq content hfollow hbase] at h
  cases hway : tree.makeWay false base (dirs.map .entry) with
  | mk mid way =>
    obtain ⟨-, hkeep, hsame⟩ := look_makeWay hbase hway
    -- the path itself is longer than the way to it, so that nothing is made there
    have hlonger : ∀ other, ¬ other <+: base ++ (dirs ++ [last]) → mid.look other = tree.look other :=
      fun other hother => hsame other fun hp =>
        hother (hp.trans (by rw [← List.append_assoc]; exact List.prefix_append _ _))
    have hself : mid.look (base ++ (dirs ++ [last])) = tree.look (base ++ (dirs ++ [last])) := by
      refine hsame _ fun hp => ?_
      have := hp.length_le
      simp only [List.length_append, List.length_singleton] at this
      omega
    rw [hway] at h
    cases way with
    | error fault =>
      obtain ⟨rfl, rfl⟩ := Prod.mk.inj h
      exact ⟨hself, hkeep, fun other hother _ => hlonger other hother⟩
    | ok _ =>
      dsimp only at h
      cases hwrite : mid.write content (base ++ (dirs ++ [last])) with
      | error fault =>
        rw [hwrite] at h
        obtain ⟨rfl, rfl⟩ := Prod.mk.inj h
        exact ⟨hself, hkeep, fun other hother _ => hlonger other hother⟩
      | ok written =>
        rw [hwrite] at h
        obtain ⟨rfl, rfl⟩ := Prod.mk.inj h
        obtain ⟨hpath, hkeep', hbeside⟩ := look_write hwrite
        refine ⟨hpath, hkeep.trans hkeep', fun other hother hbelow => ?_⟩
        rw [hbeside other hother hbelow, hlonger other hother]

end Tree

end ProjectSetup
