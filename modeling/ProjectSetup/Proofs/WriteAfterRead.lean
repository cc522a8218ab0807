import ProjectSetup.Proofs.Tree

/-!
# Files that are read and then written

What stands in the way of a write has stood in the way of the read before it: where a file was
read, or was found missing, it can be written, and nothing but the directories that lead there
comes with it.  The path may step to the same directory anywhere but at its end, and to the
directory above from directories that are there (`Inside`).  The bounds are sharp: a file cannot be
renamed to a path that does not end in a name (`fails_of_last_same`), and where a path steps back from
a directory that is not there, the write makes that one and may then be stopped by what the read never
came to (`changes_of_step_back`).

* `putFile_of_inside`: the write that follows a read succeeds.
* `WithFile`: what it changes.
-/

namespace ProjectSetup

namespace Tree

/-! ### What stands on the way to a file -/

/-- A step on from a directory, or from what is not there. -/
theorem look_of_append {tree : Tree} {dir : List String} {name : String} {names : List String}
    (h : tree.look (dir ++ name :: names) ≠ .belowFile) :
    tree.look dir = .directory ∨
      (tree.look dir = .missing ∧ tree.look (dir ++ name :: names) = .missing) := by
  cases hdir : tree.look dir with
  | directory => exact .inl rfl
  | missing => exact .inr ⟨rfl, look_append_of_missing _ hdir⟩
  | file content => exact absurd (look_append_of_file _ _ hdir) h
  | belowFile => exact absurd (look_append_of_belowFile _ hdir) h

theorem exists_of_proper_prefix {dir path : List String} (h : dir <+: path) (hne : dir ≠ path) :
    ∃ name names, path = dir ++ name :: names := by
  obtain ⟨rest, rfl⟩ := h
  cases rest with
  | nil => exact absurd (List.append_nil dir).symm hne
  | cons name names => exact ⟨name, names, rfl⟩

/-- Directories are made up to a path that no file is in the way of. -/
theorem makeWay_ok {names : List String} {tree : Tree} (made : Bool) {here : List String}
    (h : tree.look (here ++ names) = .directory ∨ tree.look (here ++ names) = .missing) :
    (tree.makeWay made here (names.map .entry)).2 = .ok () := by
  induction names generalizing tree made here with
  | nil => rfl
  | cons name names ih =>
    have hsplit : here ++ name :: names = here ++ [name] ++ names := by simp
    rw [hsplit] at h
    rw [List.map_cons, makeWay]
    split
    · exact ih made h
    · next hnext =>
      obtain ⟨hmade, -, hsame⟩ := look_makeDirectory hnext
      refine ih true ?_
      cases names with
      | nil => exact .inl (by rwa [List.append_nil])
      | cons n names =>
        refine .inr ?_
        rw [hsame, look_append_of_missing _ hnext]
        intro hp
        have := hp.length_le
        simp only [List.length_append, List.length_cons] at this
        omega
    · next content hnext =>
      cases names with
      | nil =>
        rw [List.append_nil, hnext] at h
        simp at h
      | cons n names =>
        rw [look_append_of_file _ _ hnext] at h
        simp at h
    · next hnext =>
      rw [look_append_of_belowFile _ hnext] at h
      simp at h

theorem write_ok {path : List String} {tree : Tree} (content : Content)
    (h : tree.look path = .missing ∨ ∃ old, tree.look path = .file old) :
    ∃ tree', tree.write content path = .ok tree' := by
  induction path generalizing tree with
  | nil =>
    cases tree with
    | file old => exact ⟨_, rfl⟩
    | directory entries => simp [look] at h
  | cons name path ih =>
    cases tree with
    | file old => simp [look] at h
    | directory entries =>
      rw [look] at h
      cases he : entry? name entries with
      | none => exact ⟨_, by rw [write, he]⟩
      | some sub =>
        rw [he] at h
        obtain ⟨sub', hsub⟩ := ih h
        refine ⟨.directory (setEntry name sub' entries), ?_⟩
        rw [write, he]
        dsimp only
        rw [hsub]
        rfl

/-- Where a file stands or nothing does, below a directory that is there, one can be put. -/
theorem putFile_ok {tree : Tree} (content : Content) {parts : List PathPart}
    {here names : List String} (hlead : tree.LeadsTo parts here) (hne : names ≠ [])
    (h : tree.look (here ++ names) = .missing ∨ ∃ old, tree.look (here ++ names) = .file old) :
    (tree.putFile content (parts ++ names.map .entry)).2 = .ok () := by
  obtain ⟨front, base, old, rfl, hfollow, hbase, rfl⟩ := hlead
  obtain ⟨dirs, last, hlast, hparts⟩ := exists_last front old hne
  rw [List.append_assoc base, hlast] at h
  rw [hparts, putFile_eq content hfollow hbase]
  have hfree : tree.look (base ++ dirs) = .directory ∨ tree.look (base ++ dirs) = .missing := by
    have hpath : tree.look (base ++ dirs ++ [last]) ≠ .belowFile := by
      rw [List.append_assoc]
      rcases h with h | ⟨old, h⟩ <;> simp [h]
    rcases look_of_append hpath with hdirs | ⟨hdirs, -⟩
    · exact .inl hdirs
    · exact .inr hdirs
  have hok := makeWay_ok false hfree
  cases hway : tree.makeWay false base (dirs.map .entry) with
  | mk mid way =>
    obtain ⟨-, -, hsame⟩ := look_makeWay hbase hway
    rw [hway] at hok
    have hself : mid.look (base ++ (dirs ++ [last])) = tree.look (base ++ (dirs ++ [last])) := by
      refine hsame _ fun hp => ?_
      have := hp.length_le
      simp only [List.length_append, List.length_singleton] at this
      omega
    rw [← hself] at h
    obtain ⟨written, hwrite⟩ := write_ok content h
    obtain rfl : way = .ok () := hok
    dsimp only
    rw [hwrite]

/-! ### Steps to the same directory -/

theorem follow_same {tree : Tree} {here : List String} {parts : List PathPart} (h : parts ≠ []) :
    tree.follow here (.same :: parts) = tree.follow here parts := by
  cases parts with
  | nil => exact absurd rfl h
  | cons part parts =>
    rw [follow]
    split
    · rfl
    · next hhere => rw [follow, hhere]
    · next hhere => rw [follow, hhere]
    · next hhere => rw [follow, hhere]

/-- Steps to the same directory in front of a name lead nowhere else. -/
theorem follow_filter_entry (tree : Tree) (here : List String) (parts : List PathPart)
    (name : String) :
    tree.follow here (parts.filter (· != .same) ++ [.entry name]) =
      tree.follow here (parts ++ [.entry name]) := by
  induction parts generalizing here with
  | nil => rfl
  | cons part parts ih =>
    by_cases hpart : part = .same
    · subst hpart
      rw [List.filter_cons_of_neg (by decide), ih, List.cons_append, follow_same (by simp)]
    · rw [List.filter_cons_of_pos (by simp [hpart]), List.cons_append, List.cons_append, follow,
        follow]
      split
      · exact ih _
      · rfl
      · rfl
      · rfl

theorem follow_filter {tree : Tree} {here there : List String} {parts : List PathPart}
    (h : tree.follow here parts = .ok there) :
    tree.follow here (parts.filter (· != .same)) = .ok there := by
  induction parts generalizing here with
  | nil => exact h
  | cons part parts ih =>
    obtain ⟨hhere, hnext⟩ := follow_cons_eq_ok_iff.1 h
    by_cases hpart : part = .same
    · subst hpart
      rw [List.filter_cons_of_neg (by decide)]
      exact ih hnext
    · rw [List.filter_cons_of_pos (by simp [hpart])]
      exact follow_cons_eq_ok_iff.2 ⟨hhere, ih hnext⟩

theorem makeWay_of_filter {tree : Tree} {made : Bool} {here : List String} {parts : List PathPart}
    (h : (tree.makeWay made here (parts.filter (· != .same))).2 = .ok ()) :
    tree.makeWay made here parts = tree.makeWay made here (parts.filter (· != .same)) := by
  induction parts generalizing tree made here with
  | nil => rfl
  | cons part parts ih =>
    cases part with
    | same => exact ih h
    | above => exact ih h
    | entry name =>
      rw [List.filter_cons_of_pos (by simp), makeWay] at h
      rw [List.filter_cons_of_pos (by simp), makeWay, makeWay]
      split at h
      · exact ih h
      · exact ih h
      · cases h
      · cases h

theorem filter_dropSame (parts : List PathPart) :
    (dropSame parts).filter (· != .same) = parts.filter (· != .same) := by
  induction parts using List.reverseRecOn with
  | nil => rfl
  | append_singleton parts part ih =>
    by_cases hpart : part = .same
    · have hdrop : dropSame (parts ++ [part]) = dropSame parts := by simp [dropSame, hpart]
      rw [hdrop, ih, List.filter_append, hpart]
      simp
    · have hdrop : dropSame (parts ++ [part]) = parts ++ [part] := by simp [dropSame, hpart]
      rw [hdrop]

theorem dropSame_filter (parts : List PathPart) :
    dropSame (parts.filter (· != .same)) = parts.filter (· != .same) := by
  induction parts using List.reverseRecOn with
  | nil => rfl
  | append_singleton parts part ih =>
    rw [List.filter_append]
    by_cases hpart : part = .same
    · simpa [hpart] using ih
    · simp [dropSame, hpart]

theorem putFile_of_filter {tree : Tree} {content : Content} {parts : List PathPart} {name : String}
    (h : (tree.putFile content (parts.filter (· != .same) ++ [.entry name])).2 = .ok ()) :
    tree.putFile content (parts ++ [.entry name]) =
      tree.putFile content (parts.filter (· != .same) ++ [.entry name]) := by
  have hentry : ∀ mid : Tree, mid.putEntry content (parts ++ [.entry name]) =
      mid.putEntry content (parts.filter (· != .same) ++ [.entry name]) := by
    intro mid
    rw [putEntry, putEntry, follow_filter_entry]
    simp
  rw [putFile, holder_append_entry, dropSame_filter] at h
  rw [putFile, putFile, holder_append_entry, holder_append_entry, dropSame_filter]
  have hway : (tree.makeWay false [] (parts.filter (· != .same))).2 = .ok () := by
    cases hmake : tree.makeWay false [] (parts.filter (· != .same)) with
    | mk mid way =>
      cases way with
      | error fault =>
        rw [hmake] at h
        cases h
      | ok _ => rfl
  rw [← filter_dropSame] at hway
  rw [makeWay_of_filter hway, filter_dropSame]
  simp only [hentry]

/-! ### Paths that a file can be written at -/

/-- The path ends in a name, and from some directory on it goes to the directory above no more.  The
paths of names below a directory are such (`inside_resolve`). -/
inductive Inside (tree : Tree) : List PathPart → Prop where
  | intro (front back : List PathPart) (name : String) : tree.sight front = .directory →
    .above ∉ back → Inside tree (front ++ back ++ [.entry name])

theorem sight_of_follow {tree : Tree} {parts : List PathPart} {here : List String}
    (h : tree.follow [] parts = .ok here) : tree.sight parts = tree.look here := by
  rw [sight, sightFrom, h]

/-- A path at whose end something stands is followed to there. -/
theorem follow_of_has {tree : Tree} {parts : List PathPart} (h : tree.has parts = true) :
    ∃ here, tree.follow [] parts = .ok here := by
  cases hfollow : tree.follow [] parts with
  | ok here => exact ⟨here, rfl⟩
  | error obstacle =>
    rw [has, sight, sightFrom, hfollow] at h
    cases obstacle <;> cases h

theorem follow_of_sight {tree : Tree} {parts : List PathPart} (h : tree.sight parts = .directory) :
    ∃ here, tree.follow [] parts = .ok here ∧ tree.look here = .directory := by
  obtain ⟨here, hfollow⟩ := follow_of_has (by rw [has, h])
  exact ⟨here, hfollow, by rw [← sight_of_follow hfollow, h]⟩

theorem Inside.mono {tree tree' : Tree} (hkeep : KeepsDirectories tree tree')
    {parts : List PathPart} (h : tree.Inside parts) : tree'.Inside parts := by
  obtain ⟨front, back, name, hfront, hback⟩ := h
  obtain ⟨here, hfollow, hhere⟩ := follow_of_sight hfront
  refine .intro front back name ?_ hback
  rw [sight_of_follow (follow_of_keepsDirectories hkeep hfollow)]
  exact hkeep here hhere

theorem filter_eq_entries {parts : List PathPart} (h : PathPart.above ∉ parts) :
    ∃ names : List String, parts.filter (· != .same) = names.map .entry := by
  induction parts with
  | nil => exact ⟨[], rfl⟩
  | cons part parts ih =>
    obtain ⟨names, hnames⟩ := ih fun hin => h (List.mem_cons_of_mem _ hin)
    cases part with
    | same => exact ⟨names, by rw [← hnames]; rfl⟩
    | above => exact absurd List.mem_cons_self h
    | entry name => exact ⟨name :: names, by rw [List.map_cons, ← hnames]; rfl⟩

/-- But for steps to the same directory, names alone lead on from some directory. -/
theorem Inside.leadsTo {tree : Tree} {parts : List PathPart} (h : tree.Inside parts) :
    ∃ front base names, names ≠ [] ∧ tree.follow [] front = .ok base ∧
      tree.look base = .directory ∧
      (∀ mid : Tree, mid.follow [] parts = mid.follow [] (front ++ names.map .entry)) ∧
      ∀ content, (tree.putFile content (front ++ names.map .entry)).2 = .ok () →
        tree.putFile content parts = tree.putFile content (front ++ names.map .entry) := by
  obtain ⟨front, back, name, hfront, hback⟩ := h
  obtain ⟨base, hfollow, hbase⟩ := follow_of_sight hfront
  obtain ⟨names, hnames⟩ := filter_eq_entries hback
  have hparts : (front ++ back).filter (· != .same) ++ [.entry name] =
      front.filter (· != .same) ++ (names ++ [name]).map .entry := by
    rw [List.filter_append, hnames, List.map_append, List.append_assoc]
    rfl
  refine ⟨front.filter (· != .same), base, names ++ [name], by simp, follow_filter hfollow, hbase,
    fun mid => ?_, fun content hok => ?_⟩
  · rw [← hparts, follow_filter_entry]
  · rw [← hparts] at hok ⊢
    exact putFile_of_filter hok

/-- The path is one of names below a directory that is there. -/
theorem inside_resolve {tree : Tree} {root : Place} (hroot : tree.sight root.parts = .directory)
    {file : String} (dirs : List (List Char)) (name : List Char)
    (hnames : Path.names (Path.dropDotSlash file.toList) = dirs ++ [name])
    (habove : ['.', '.'] ∉ dirs ++ [name]) (hname : name ≠ ['.']) :
    tree.Inside (root.resolve file).parts := by
  have hlast : PathPart.ofName name = .entry (String.ofList name) := by
    unfold PathPart.ofName
    split <;> simp_all
  rw [Place.parts_resolve, hnames, List.map_append, List.map_singleton, hlast, ← List.append_assoc]
  refine .intro root.parts (dirs.map .ofName) _ hroot fun hin => ?_
  obtain ⟨dir, hdir, habove'⟩ := List.mem_map.1 hin
  rw [PathPart.ofName_eq_above_iff.1 habove'] at hdir
  exact habove (by simp [hdir])

/-! ### What a written file changes -/

/-- One tree is the other with a file at the path and the directories that lead there. -/
structure WithFile (path : List String) (content : Content) (tree tree' : Tree) : Prop where
  there : tree'.look path = .file content
  before : tree.look path = .missing ∨ ∃ old, tree.look path = .file old
  way : ∀ dir, dir <+: path → dir ≠ path → tree'.look dir = .directory ∧
    (tree.look dir = .directory ∨ (tree.look dir = .missing ∧ tree.look path = .missing))
  beside : SameBeside path tree tree'

theorem withFile_of_beside {path : List String} {content : Content} {tree tree' : Tree}
    (hthere : tree'.look path = .file content)
    (hbefore : tree.look path = .missing ∨ ∃ old, tree.look path = .file old)
    (hbeside : SameBeside path tree tree') : WithFile path content tree tree' := by
  refine ⟨hthere, hbefore, fun dir hdir hne => ?_, hbeside⟩
  obtain ⟨name, names, rfl⟩ := exists_of_proper_prefix hdir hne
  refine ⟨?_, look_of_append ?_⟩
  · have hfile : tree'.look (dir ++ name :: names) ≠ .belowFile := by simp [hthere]
    rcases look_of_append hfile with hdir' | ⟨-, hmissing⟩
    · exact hdir'
    · rw [hthere] at hmissing
      cases hmissing
  · rcases hbefore with h | ⟨old, h⟩ <;> simp [h]

theorem WithFile.keepsDirectories {path : List String} {content : Content} {tree tree' : Tree}
    (h : WithFile path content tree tree') : KeepsDirectories tree tree' := by
  intro dir hdir
  by_cases hway : dir <+: path
  · by_cases hne : dir = path
    · subst hne
      rcases h.before with hold | ⟨old, hold⟩ <;> (rw [hold] at hdir; cases hdir)
    · exact (h.way dir hway hne).1
  · by_cases hbelow : path <+: dir
    · -- below a file, or below nothing, there is no directory
      have hpath : path ≠ dir := fun heq => hway (heq ▸ List.prefix_refl path)
      obtain ⟨name, names, rfl⟩ := exists_of_proper_prefix hbelow hpath
      rcases h.before with hold | ⟨old, hold⟩
      · rw [look_append_of_missing _ hold] at hdir
        cases hdir
      · rw [look_append_of_file _ _ hold] at hdir
        cases hdir
    · rw [h.beside dir hway hbelow, hdir]

/-- **The write that follows a read succeeds**, and changes nothing but the file and the way to
it. -/
theorem putFile_of_inside {tree : Tree} (content : Content) {parts : List PathPart}
    (hinside : tree.Inside parts)
    (hread : tree.sight parts = .missing ∨ ∃ old, tree.sight parts = .file old) :
    ∃ path tree', tree.putFile content parts = (tree', .ok ()) ∧
      tree'.follow [] parts = .ok path ∧ tree.sight parts = tree.look path ∧
      WithFile path content tree tree' := by
  obtain ⟨front, base, names, hne, hfollow, hbase, hparts, hput⟩ := hinside.leadsTo
  have hlead := leadsTo_of_follow hfollow hbase
  have hsight : tree.sight parts = tree.look (base ++ names) := by
    rw [sight, sightFrom, hparts]
    exact sight_of_leadsTo (hlead.append names)
  rw [hsight] at hread
  have hok := putFile_ok content hlead hne hread
  cases hrun : tree.putFile content (front ++ names.map .entry) with
  | mk tree' result =>
    obtain ⟨hself, hkeep, hbeside⟩ := look_putFile hlead hne hrun
    rw [hrun] at hok
    obtain rfl : result = .ok () := hok
    have hwith : WithFile (base ++ names) content tree tree' :=
      withFile_of_beside hself hread hbeside
    refine ⟨base ++ names, tree', ?_, ?_, hsight, hwith⟩
    · rw [← hrun]
      exact hput content (by rw [hrun])
    · obtain ⟨dirs, last, rfl⟩ : ∃ dirs last, names = dirs ++ [last] :=
        ⟨names.dropLast, names.getLast hne, (List.dropLast_append_getLast hne).symm⟩
      have hdirs : tree'.look (base ++ dirs) = .directory := by
        refine (hwith.way _ ?_ ?_).1
        · rw [← List.append_assoc]
          exact List.prefix_append _ _
        · simp
      rw [hparts, follow_append, follow_of_keepsDirectories hkeep hfollow]
      exact follow_entries hdirs

end Tree

end ProjectSetup
