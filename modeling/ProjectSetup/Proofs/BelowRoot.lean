import ProjectSetup.Proofs.Text.Line
import ProjectSetup.Proofs.Tree
import ProjectSetup.Storage

/-!
# Paths below a root

A path below a root is the root followed by the names of the path: by what stands between its
slashes, behind the steps to the same directory that it starts with (`LeadsThrough`).  So a path
that looks like an absolute one does not leave the root, and unless it has a step to the directory
above, neither does what is read or written at its end (`StaysBelow`).

* `Place.resolve_follows`: a path below a root.
* `Tree.sameOutside_putFile`: a file that is put below a directory changes nothing outside.
-/

namespace ProjectSetup

/-! ### The names of a path -/

namespace Path

/-- A text that can stand between two slashes. -/
def IsName (name : List Char) : Prop :=
  name ≠ [] ∧ '/' ∉ name

/-- The names stand in the text in order, with slashes around them and nothing else. -/
inductive Spells : List Char → List (List Char) → Prop
  | nil : Spells [] []
  | slash {text : List Char} {names : List (List Char)} : Spells text names →
    Spells ('/' :: text) names
  | last {name : List Char} : IsName name → Spells name [name]
  | name {name text : List Char} {names : List (List Char)} : IsName name → Spells text names →
    Spells (name ++ '/' :: text) (name :: names)

/-- The names are those that the path spells behind the steps to the same directory that it starts
with. -/
inductive LeadsThrough : List Char → List (List Char) → Prop
  | step {path : List Char} {names : List (List Char)} : LeadsThrough path names →
    LeadsThrough ('.' :: '/' :: path) names
  | names {path : List Char} {names : List (List Char)} : ¬ ['.', '/'] <+: path →
    Spells path names → LeadsThrough path names

variable {name text path : List Char} {names : List (List Char)}

theorem IsName.not_cut (h : IsName name) : ∀ c ∈ name, (c == '/') = false := by
  intro c hc
  rw [beq_eq_false_iff_ne]
  rintro rfl
  exact h.2 hc

theorem IsName.getLast?_ne (h : IsName name) : name.getLast? ≠ some '/' :=
  fun hlast => h.2 (List.mem_of_getLast? hlast)

theorem exists_spells (text : List Char) : ∃ names, Spells text names := by
  by_cases hslash : '/' ∈ text
  · obtain ⟨name, rest, htext, hname⟩ := List.eq_append_cons_of_mem hslash
    have : rest.length < text.length := by simp [htext]; omega
    obtain ⟨names, hrest⟩ := exists_spells rest
    subst htext
    by_cases hnil : name = []
    · subst hnil
      exact ⟨names, .slash hrest⟩
    · exact ⟨name :: names, .name ⟨hnil, hname⟩ hrest⟩
  · by_cases hnil : text = []
    · subst hnil
      exact ⟨[], .nil⟩
    · exact ⟨[text], .last ⟨hnil, hslash⟩⟩
termination_by text.length

theorem Spells.names_eq (h : Spells text names) : Path.names text = names := by
  unfold Path.names
  induction h with
  | nil => rfl
  | slash _ ih => simpa [Text.pieces] using ih
  | last hname =>
    rw [Text.pieces_of_no_cut hname.not_cut]
    simp [hname.1]
  | name hname _ ih =>
    rw [Text.pieces_append hname.not_cut (by decide), List.filter_cons_of_pos (by simp [hname.1]),
      ih]

theorem spells_iff : Spells text names ↔ Path.names text = names := by
  refine ⟨Spells.names_eq, ?_⟩
  rintro rfl
  obtain ⟨names, h⟩ := exists_spells text
  rwa [h.names_eq]

theorem Spells.isName (h : Spells text names) : ∀ name ∈ names, IsName name := by
  induction h with
  | nil => simp
  | slash _ ih => exact ih
  | last hname => simpa using hname
  | name hname _ ih => exact List.forall_mem_cons.2 ⟨hname, ih⟩

/-- A path leads through some names, and through no others. -/
theorem leadsThrough_iff : LeadsThrough path names ↔ Path.names (dropDotSlash path) = names := by
  constructor
  · intro h
    induction h with
    | step _ ih => exact ih
    | @names path names hnot hspells =>
      have hdrop : dropDotSlash path = path := by
        unfold dropDotSlash
        split
        · exact absurd (by simp) hnot
        · rfl
      rw [hdrop, hspells.names_eq]
  · rintro rfl
    fun_induction dropDotSlash path with
    | case1 path ih => exact .step ih
    | case2 path hnot =>
      refine .names ?_ (spells_iff.2 rfl)
      rintro ⟨rest, rfl⟩
      exact hnot rest rfl

theorem LeadsThrough.isName (h : LeadsThrough path names) : ∀ name ∈ names, IsName name := by
  induction h with
  | step _ ih => exact ih
  | names _ hspells => exact hspells.isName

end Path

/-! ### What stands outside a directory -/

namespace Tree

variable {tree tree' : Tree} {base here there path other : List String}
  {parts front back : List PathPart} {made : Bool} {content : Content}

/-- The directories that lead to the path are there. -/
def HasWay (tree : Tree) (path : List String) : Prop :=
  ∀ dir, dir <+: path → dir ≠ path → tree.look dir = .directory

/-- What does not stand at or below the path. -/
def SameOutside (base : List String) (tree tree' : Tree) : Prop :=
  ∀ other, ¬ base <+: other → tree'.look other = tree.look other

theorem SameOutside.trans {a b c : Tree} (hab : SameOutside base a b) (hbc : SameOutside base b c) :
    SameOutside base a c :=
  fun other hout => (hbc other hout).trans (hab other hout)

theorem look_of_isPrefix (h : tree.look path = .directory) (hother : other <+: path) :
    tree.look other = .directory := by
  obtain ⟨names, rfl⟩ := hother
  exact look_nil_of_directory h

theorem hasWay_nil (tree : Tree) : tree.HasWay [] :=
  fun _ hdir hne => absurd (List.prefix_nil.1 hdir) hne

theorem hasWay_of_look (h : tree.look path = .directory) : tree.HasWay path :=
  fun _ hdir _ => look_of_isPrefix h hdir

theorem HasWay.mono (h : tree.HasWay path) (hkeep : KeepsDirectories tree tree') :
    tree'.HasWay path :=
  fun dir hdir hne => hkeep dir (h dir hdir hne)

/-- On a way through the base, what is outside of the base leads to it. -/
theorem HasWay.look_of_isPrefix (h : tree.HasWay base) (hbase : base <+: path)
    (hother : other <+: path) (hout : ¬ base <+: other) : tree.look other = .directory := by
  rcases List.prefix_or_prefix_of_prefix hother hbase with hp | hp
  · refine h other hp ?_
    rintro rfl
    exact hout (List.prefix_refl other)
  · exact absurd hp hout

theorem hasWay_applyTo (h : tree.look here = .directory) (part : PathPart) :
    tree.HasWay (part.applyTo here) := by
  cases part with
  | same => exact hasWay_of_look h
  | above => exact hasWay_of_look (look_of_isPrefix h (List.dropLast_prefix here))
  | entry name =>
    intro dir hdir hne
    refine look_of_isPrefix h ?_
    rcases List.prefix_concat_iff.1 hdir with heq | hp
    · exact absurd heq hne
    · exact hp

theorem HasWay.follow (hway : tree.HasWay here) (h : tree.follow here parts = .ok there) :
    tree.HasWay there := by
  induction parts generalizing here with
  | nil =>
    obtain rfl := Except.ok.inj h
    exact hway
  | cons part parts ih =>
    obtain ⟨hhere, hnext⟩ := follow_cons_eq_ok_iff.1 h
    exact ih (hasWay_applyTo hhere part) hnext

/-- Where no step leads to the directory above, the path leads below where it starts. -/
theorem isPrefix_of_follow (habove : .above ∉ parts) (h : tree.follow here parts = .ok there) :
    here <+: there := by
  induction parts generalizing here with
  | nil =>
    obtain rfl := Except.ok.inj h
    exact List.prefix_refl _
  | cons part parts ih =>
    obtain ⟨hpart, hparts⟩ := List.ne_and_not_mem_of_not_mem_cons habove
    have hnext : here <+: part.applyTo here := by
      cases part with
      | same => exact List.prefix_refl _
      | above => exact absurd rfl hpart
      | entry name => exact List.prefix_append _ _
    exact hnext.trans (ih hparts (follow_cons_eq_ok_iff.1 h).2)

/-! ### What a write below a directory changes -/

theorem keepsDirectories_makeWay (tree : Tree) (made : Bool) (here : List String)
    (parts : List PathPart) : KeepsDirectories tree (tree.makeWay made here parts).1 := by
  induction parts generalizing tree made here with
  | nil => exact KeepsDirectories.refl tree
  | cons part parts ih =>
    cases part with
    | same => exact ih tree made here
    | above => exact ih tree made here.dropLast
    | entry name =>
      rw [makeWay]
      split
      · exact ih tree made _
      · next hnext => exact (look_makeDirectory hnext).2.1.trans (ih _ true _)
      · exact KeepsDirectories.refl tree
      · exact KeepsDirectories.refl tree

theorem sameOutside_makeDirectory (hway : tree.HasWay base) (hbase : base <+: path)
    (h : tree.look path = .missing) : SameOutside base tree (tree.makeDirectory path) := by
  intro other hout
  obtain ⟨-, hkeep, hsame⟩ := look_makeDirectory h
  by_cases hother : other <+: path
  · have hdir := hway.look_of_isPrefix hbase hother hout
    rw [hdir, hkeep other hdir]
  · exact hsame other hother

theorem sameOutside_write (hway : tree.HasWay base) (hbase : base <+: path)
    (h : tree.write content path = .ok tree') : SameOutside base tree tree' := by
  intro other hout
  obtain ⟨-, hkeep, hbeside⟩ := look_write h
  by_cases hother : other <+: path
  · have hdir := hway.look_of_isPrefix hbase hother hout
    rw [hdir, hkeep other hdir]
  · exact hbeside other hother fun hp => hout (hbase.trans hp)

/-- The way from somewhere below the base. -/
theorem sameOutside_makeWay_of_isPrefix (hway : tree.HasWay base) (hbase : base <+: here)
    (habove : .above ∉ parts) : SameOutside base tree (tree.makeWay made here parts).1 := by
  induction parts generalizing tree made here with
  | nil => exact fun _ _ => rfl
  | cons part parts ih =>
    obtain ⟨hpart, hparts⟩ := List.ne_and_not_mem_of_not_mem_cons habove
    cases part with
    | same => exact ih hway hbase hparts
    | above => exact absurd rfl hpart
    | entry name =>
      have hnext : base <+: here ++ [name] := hbase.trans (List.prefix_append _ _)
      rw [makeWay]
      split
      · exact ih hway hnext hparts
      · next hmissing =>
        have hmade := hway.mono (look_makeDirectory hmissing).2.1
        exact (sameOutside_makeDirectory hway hnext hmissing).trans (ih hmade hnext hparts)
      · exact fun _ _ => rfl
      · exact fun _ _ => rfl

/-- The way that leads through the base, and from there to no directory above. -/
theorem sameOutside_makeWay (hway : tree.HasWay here) (hfollow : tree.follow here front = .ok base)
    (habove : .above ∉ back) : SameOutside base tree (tree.makeWay made here (front ++ back)).1 := by
  induction front generalizing here with
  | nil =>
    obtain rfl := Except.ok.inj hfollow
    exact sameOutside_makeWay_of_isPrefix hway (List.prefix_refl _) habove
  | cons part front ih =>
    obtain ⟨hhere, hfollow⟩ := follow_cons_eq_ok_iff.1 hfollow
    have hnext := hasWay_applyTo hhere part
    cases part with
    | same => exact ih hnext hfollow
    | above => exact ih hnext hfollow
    | entry name =>
      rw [List.cons_append, makeWay]
      split
      · exact ih hnext hfollow
      · next hmissing =>
        -- nothing is below what is not there, so that the way to the base ends here
        cases front with
        | nil =>
          obtain rfl := Except.ok.inj hfollow
          have hmade := hnext.mono (look_makeDirectory hmissing).2.1
          exact (sameOutside_makeDirectory hnext (List.prefix_refl _) hmissing).trans
            (sameOutside_makeWay_of_isPrefix hmade (List.prefix_refl _) habove)
        | cons part front =>
          have hdir := (follow_cons_eq_ok_iff.1 hfollow).1
          rw [PathPart.applyTo, hmissing] at hdir
          cases hdir
      · exact fun _ _ => rfl
      · exact fun _ _ => rfl

theorem dropSame_isPrefix (parts : List PathPart) : dropSame parts <+: parts := by
  rw [← List.reverse_suffix, dropSame, List.reverse_reverse]
  exact List.dropWhile_suffix _

theorem holder_isPrefix (parts : List PathPart) : holder parts <+: parts :=
  (dropSame_isPrefix _).trans ((List.dropLast_prefix _).trans (dropSame_isPrefix parts))

/-- The directories that are made for a file below the base. -/
theorem sameOutside_makeWay_holder (hfollow : tree.follow [] front = .ok base)
    (habove : .above ∉ back) :
    SameOutside base tree (tree.makeWay false [] (holder (front ++ back))).1 := by
  have hholder := holder_isPrefix (front ++ back)
  rcases List.prefix_or_prefix_of_prefix hholder (List.prefix_append front back) with
    ⟨rest, hrest⟩ | ⟨rest, hrest⟩
  · cases rest with
    | nil =>
      have hmake : SameOutside base tree (tree.makeWay false [] (front ++ [])).1 :=
        sameOutside_makeWay (hasWay_nil tree) hfollow (by simp)
      rwa [← hrest, List.append_nil, List.append_nil] at hmake
    | cons part rest =>
      -- the directory of the file stands on the way to the base
      rw [← hrest] at hfollow
      obtain ⟨mid, hmid, hnext⟩ := exists_of_follow_append hfollow
      have hmake : tree.makeWay false [] (holder (front ++ back) ++ []) =
          tree.makeWay false mid [] :=
        makeWay_of_follow hmid (follow_cons_eq_ok_iff.1 hnext).1
      rw [List.append_nil] at hmake
      rw [hmake]
      exact fun _ _ => rfl
  · rw [← hrest] at hholder ⊢
    refine sameOutside_makeWay (hasWay_nil tree) hfollow fun hin => habove ?_
    exact ((List.prefix_append_right_inj front).1 hholder).mem hin

/-- **What a file that is put below a directory changes**: nothing outside of the directory, even if
the write fails. -/
theorem sameOutside_putFile (hfollow : tree.follow [] front = .ok base) (habove : .above ∉ back) :
    SameOutside base tree (tree.putFile content (front ++ back)).1 := by
  have hway : tree.HasWay base := (hasWay_nil tree).follow hfollow
  have hmade := sameOutside_makeWay_holder hfollow habove
  have hkeep := keepsDirectories_makeWay tree false [] (holder (front ++ back))
  rw [putFile]
  generalize tree.makeWay false [] (holder (front ++ back)) = way at hmade hkeep
  obtain ⟨mid, result⟩ := way
  cases result with
  | error fault => exact hmade
  | ok _ =>
    dsimp only
    cases hput : mid.putEntry content (front ++ back) with
    | error fault => exact hmade
    | ok written =>
      refine hmade.trans ?_
      obtain ⟨path, hpath, hwrite⟩ := exists_of_putEntry hput
      obtain ⟨here, hhere, hbelow⟩ := exists_of_follow_append hpath
      rw [follow_of_keepsDirectories hkeep hfollow] at hhere
      obtain rfl := Except.ok.inj hhere
      exact sameOutside_write (hway.mono hkeep) (isPrefix_of_follow habove hbelow) hwrite

end Tree

/-! ### Places below a root -/

namespace Place

open ProjectSetup.Path (IsName LeadsThrough)

variable {root place : Place} {path : String} {names : List (List Char)}

/-- The place is the root followed by the names, in its parts and in the path that messages show.
There a slash stands in front of every name; a root that ends with a slash brings the first one. -/
structure FollowedBy (root : Place) (names : List (List Char)) (place : Place) : Prop where
  parts : place.parts = root.parts ++ names.map .ofName
  shown : place.shown.toList = root.shown.toList ++
    if root.shown.toList.getLast? = some '/' then ['/'].intercalate names
    else names.flatMap ('/' :: ·)

/-- In every tree, the place is where the root is or below, and a file that is written there, or
cannot be written, changes nothing outside of the root. -/
structure StaysBelow (root place : Place) : Prop where
  leads (tree : Tree) (there : List String) : tree.follow [] place.parts = .ok there →
    ∃ here, tree.follow [] root.parts = .ok here ∧ here <+: there
  writes (tree : Tree) (here : List String) (text : String) :
    tree.follow [] root.parts = .ok here →
      Tree.SameOutside here tree (tree.writeText place text).1

theorem intercalate_slash (name : List Char) (names : List (List Char)) :
    ['/'].intercalate (name :: names) = name ++ names.flatMap ('/' :: ·) := by
  induction names generalizing name with
  | nil => simp [List.intercalate]
  | cons next names ih => simp [List.intercalate_cons_cons, ih]

theorem toList_shown_join (hroot : root.shown ≠ "") (name : List Char) :
    (root.join name).shown.toList = root.shown.toList ++
      if root.shown.toList.getLast? = some '/' then name else '/' :: name := by
  have hne : root.shown.toList ≠ [] := by simpa using hroot
  rw [join, String.toList_ofList, Path.join, if_neg hne]
  split_ifs <;> rfl

/-- Behind a name that was put to it, a path is not empty and ends with no slash. -/
theorem shown_join_ends {name : List Char} (hroot : root.shown ≠ "") (hname : IsName name) :
    (root.join name).shown ≠ "" ∧ (root.join name).shown.toList.getLast? ≠ some '/' := by
  rw [Ne, ← String.toList_eq_nil_iff, toList_shown_join hroot]
  split_ifs
  · rw [List.getLast?_append_of_ne_nil _ hname.1]
    exact ⟨by simp [hname.1], hname.getLast?_ne⟩
  · rw [List.append_cons, List.getLast?_append_of_ne_nil _ hname.1]
    exact ⟨by simp, hname.getLast?_ne⟩

/-- Names are put one behind the other with a slash in front of each. -/
theorem toList_shown_foldl_join (hnames : ∀ name ∈ names, IsName name) (hroot : root.shown ≠ "")
    (hlast : root.shown.toList.getLast? ≠ some '/') :
    (names.foldl join root).shown.toList = root.shown.toList ++ names.flatMap ('/' :: ·) := by
  induction names generalizing root with
  | nil => simp
  | cons name names ih =>
    obtain ⟨hname, hnames⟩ := List.forall_mem_cons.1 hnames
    obtain ⟨hne, hends⟩ := shown_join_ends hroot hname
    rw [List.foldl_cons, ih hnames hne hends, toList_shown_join hroot, if_neg hlast,
      List.flatMap_cons, List.append_assoc]

theorem followedBy_foldl_join (hnames : ∀ name ∈ names, IsName name) (hroot : root.shown ≠ "") :
    root.FollowedBy names (names.foldl join root) := by
  refine ⟨parts_foldl_join names root, ?_⟩
  split_ifs with hlast
  · cases names with
    | nil => simp [List.intercalate]
    | cons name names =>
      obtain ⟨hname, hnames⟩ := List.forall_mem_cons.1 hnames
      obtain ⟨hne, hends⟩ := shown_join_ends hroot hname
      rw [List.foldl_cons, toList_shown_foldl_join hnames hne hends, toList_shown_join hroot,
        if_pos hlast, intercalate_slash, List.append_assoc]
  · exact toList_shown_foldl_join hnames hroot hlast

theorem followedBy_resolve (hroot : root.shown ≠ "") (h : LeadsThrough path.toList names) :
    root.FollowedBy names (root.resolve path) := by
  rw [resolve, Path.leadsThrough_iff.1 h]
  exact followedBy_foldl_join h.isName hroot

theorem FollowedBy.isPrefix (h : root.FollowedBy names place) :
    root.shown.toList <+: place.shown.toList ∧ root.parts <+: place.parts := by
  rw [h.shown, h.parts]
  exact ⟨List.prefix_append _ _, List.prefix_append _ _⟩

theorem FollowedBy.staysBelow (h : root.FollowedBy names place) (habove : ['.', '.'] ∉ names) :
    StaysBelow root place := by
  have hparts : .above ∉ names.map PathPart.ofName := by
    intro hin
    obtain ⟨name, hname, heq⟩ := List.mem_map.1 hin
    rw [PathPart.ofName_eq_above_iff.1 heq] at hname
    exact habove hname
  constructor
  · intro tree there hthere
    rw [h.parts] at hthere
    obtain ⟨here, hhere, hbelow⟩ := Tree.exists_of_follow_append hthere
    exact ⟨here, hhere, Tree.isPrefix_of_follow hparts hbelow⟩
  · intro tree here text hhere
    rw [Tree.writeText, h.parts]
    exact Tree.sameOutside_putFile hhere hparts

theorem resolve_step (root : Place) (path : String) :
    root.resolve ("./" ++ path) = root.resolve path := by
  rw [resolve, String.toList_append]
  rfl

theorem resolve_steps (root : Place) (n : Nat) (path : String) :
    root.resolve (Nat.iterate ("./" ++ ·) n path) = root.resolve path := by
  induction n generalizing path with
  | zero => rfl
  | succ n ih => exact (ih ("./" ++ path)).trans (resolve_step root path)

/-- **A path below a root** is the root followed by the names of the path, in order, and by nothing
else.  So no path takes the place of the root, steps to the same directory in front of the path lead
nowhere else, and without a step to the directory above, nothing outside of the root is come to. -/
theorem resolve_follows (root : Place) (hroot : root.shown ≠ "") (path : String) :
    ∃ names, LeadsThrough path.toList names ∧
      (∀ others, LeadsThrough path.toList others → others = names) ∧
      root.FollowedBy names (root.resolve path) ∧
      (root.shown.toList <+: (root.resolve path).shown.toList ∧
        root.parts <+: (root.resolve path).parts) ∧
      (∀ n, root.resolve (Nat.iterate ("./" ++ ·) n path) = root.resolve path) ∧
      (['.', '.'] ∉ names → root.StaysBelow (root.resolve path)) := by
  have hnames : LeadsThrough path.toList (Path.names (Path.dropDotSlash path.toList)) :=
    Path.leadsThrough_iff.2 rfl
  have hfollowed := followedBy_resolve hroot hnames
  exact ⟨_, hnames, fun others hothers => (Path.leadsThrough_iff.1 hothers).symm, hfollowed,
    hfollowed.isPrefix, fun n => resolve_steps root n path, hfollowed.staysBelow⟩

/-- A path that looks like the one of a file outside of the root is that of another file. -/
theorem resolve_follows_absolute :
    let root : Place := .ofPath [] "/srv/app/"
    let tree : Tree := .directory
      [("etc", .directory [("hosts", .file (.text "old"))]), ("srv", .directory [("app", .empty)])]
    root.shown ≠ "" ∧
      (root.resolve ".//etc//./hosts/").shown = "/srv/app/etc/./hosts" ∧
      (tree.writeText (root.resolve ".//etc//./hosts/") "new").1.look ["etc", "hosts"] =
        .file (.text "old") := by
  intro root tree
  have hroot : root.shown ≠ "" := by decide
  obtain ⟨names, hnames, -, hfollowed, -, -, hbelow⟩ :=
    resolve_follows root hroot ".//etc//./hosts/"
  obtain rfl : names = ["etc".toList, ['.'], "hosts".toList] := by
    rw [← Path.leadsThrough_iff.1 hnames]
    decide +kernel
  have hlead : tree.follow [] root.parts = .ok ["srv", "app"] := rfl
  have hhosts := (hbelow (by decide)).writes tree _ "new" hlead ["etc", "hosts"] (by decide)
  refine ⟨hroot, ?_, hhosts⟩
  rw [← String.toList_inj, hfollowed.shown]
  decide +kernel

/-- A step to the directory above leaves the root. -/
example :
    (Tree.directory [("srv", .directory [("app", .empty)])]).follow []
      ((ofPath [] "/srv/app").resolve "../etc").parts = .ok ["srv", "etc"] := by
  rfl

end Place

end ProjectSetup
