import ProjectSetup.Proofs.LineEdit

/-!
# Putting a key into the object of a call

The edit looks at the first line with the call, and either changes that line behind the call or
adds a line below it.  Afterwards the key is found: it stands in front of a comma, or the object on
the line names it.  What stands in front of the call stays, and so does a text elsewhere on the
line that shares nothing with the call and does not start with what is taken away.

* `applyKey_cases`: what the edit can come to.
* `hasKey_of_rewritten`: afterwards the key is there.
* `hasKey_of_inserted`, `hasKey_reload`: and it stays.
* `foundIn_of_applyKey`: another text stays.
-/

namespace ProjectSetup

open Text

/-! ### Words -/

/-- A word between characters that belong to no word stands there as a whole. -/
theorem hasWord_between {key front back : List Char} (hkey : ∀ c ∈ key, isWordChar c = true)
    (hfront : ∀ c ∈ front.getLast?, isWordChar c = false)
    (hback : ∀ c ∈ back.head?, isWordChar c = false) : hasWord key (front ++ key ++ back) = true := by
  have hword : ∀ c ∈ key, (fun c => !isWordChar c) c = false := fun c hc => by simp [hkey c hc]
  have hrest : key ∈ pieces (fun c => !isWordChar c) (key ++ back) := by
    cases back with
    | nil =>
      rw [List.append_nil, pieces_of_no_cut hword]
      exact List.mem_singleton_self key
    | cons c back =>
      rw [pieces_append hword (by simp [hback c rfl])]
      exact List.mem_cons_self
  rw [hasWord, List.contains_iff_mem, List.append_assoc]
  rcases List.eq_nil_or_concat front with rfl | ⟨init, c, rfl⟩
  · exact hrest
  · rw [List.concat_eq_append] at hfront ⊢
    rw [List.append_assoc, List.singleton_append,
      pieces_append_cut (by simp [hfront c (by simp)])]
    exact List.mem_append_right _ hrest

theorem hasWord_padded {key : List Char} (hkey : ∀ c ∈ key, isWordChar c = true) :
    hasWord key (' ' :: key ++ [' ']) = true := by
  have hblank : isWordChar ' ' = false := by decide
  have hpadded : hasWord key ([' '] ++ key ++ [' ']) = true :=
    hasWord_between hkey (by simpa using hblank) (by simpa using hblank)
  simpa using hpadded

/-! ### Calls on a line -/

/-- The argument of the call on the line is an object that ends there and names the key. -/
def NamesKey (call key line : List Char) : Prop :=
  ∃ before inner after, CallShape.classify? line call = some (.inlineObject before inner after) ∧
    hasWord key inner = true

/-- The characters of an argument that a key can be put in the place of. -/
def IsFill (c : Char) : Prop :=
  isBlank c = true ∨ c ∈ ['\x7b', '\x7d', ')']

/-- What the edit puts behind the parenthesis of the call. -/
inductive IsPut (key : List Char) : List Char → Prop where
  | only : IsPut key ("\x7b ".toList ++ key ++ " \x7d)".toList)
  | first : IsPut key ("\x7b ".toList ++ key ++ ", ".toList)

/-- A line and the line with the key put into it. -/
inductive Changed (call key : List Char) : List Char → List Char → Prop where
  | intro (before fill put rest : List Char) : ¬ call <:+: before ++ call.dropLast →
    (∀ c ∈ fill, IsFill c) → IsPut key put →
    Changed call key (before ++ call ++ (fill ++ rest)) (before ++ call ++ (put ++ rest))

/-- The call has a parenthesis at its end and nowhere else. -/
structure IsCall (call name : List Char) : Prop where
  eq : call = name ++ ['(']
  notMem : '(' ∉ name

variable {call name key line : List Char}

theorem IsCall.ne_nil (h : IsCall call name) : call ≠ [] := by
  rw [h.eq]
  simp

theorem classify?_of_splitFirst? (h : IsCall call name) {before after : List Char}
    (hsplit : splitFirst? call line = some (before, after)) :
    CallShape.classify? line call = CallShape.ofArgument? (before ++ name) after := by
  have hparen : splitFirst? ['('] (call ++ after) = some (name, after) := by
    rw [splitFirst?_eq_some_iff (by simp), h.eq]
    refine ⟨rfl, fun hin => h.notMem ?_⟩
    simpa using hin.mem (List.mem_singleton_self '(')
  rw [CallShape.classify?, hsplit]
  simp only [Option.bind_eq_bind, Option.bind_some, hparen]

theorem classify?_eq_some_iff (h : IsCall call name) {shape : CallShape} :
    CallShape.classify? line call = some shape ↔
      ∃ before after, splitFirst? call line = some (before, after) ∧
        CallShape.ofArgument? (before ++ name) after = some shape := by
  cases hsplit : splitFirst? call line with
  | none => simp [CallShape.classify?, hsplit]
  | some parts =>
    obtain ⟨before, after⟩ := parts
    rw [classify?_of_splitFirst? h hsplit]
    simp

/-- The parts of a line with an object that ends on it. -/
theorem classify?_inlineObject_iff (h : IsCall call name) {front inner after : List Char} :
    CallShape.classify? line call = some (.inlineObject front inner after) ↔
      ∃ before, front = before ++ name ∧ ¬ call <:+: before ++ call.dropLast ∧
        ¬ ['\x7d', ')'] <:+: inner ++ ['\x7d'] ∧
        line = before ++ call ++ '\x7b' :: (inner ++ ['\x7d', ')'] ++ after) := by
  rw [classify?_eq_some_iff h]
  constructor
  · rintro ⟨before, argument, hsplit, hshape⟩
    obtain ⟨hline, hfirst⟩ := (splitFirst?_eq_some_iff h.ne_nil).1 hsplit
    unfold CallShape.ofArgument? at hshape
    split at hshape
    · cases hshape
    · next c rest =>
      split_ifs at hshape with hc hparen
      · obtain rfl := beq_iff_eq.1 hc
        split at hshape
        · next inner' after' hs =>
          obtain ⟨rfl, rfl, rfl⟩ := CallShape.inlineObject.inj (Option.some.inj hshape)
          obtain ⟨hrest, hinner⟩ := (splitFirst?_eq_some_iff (by simp)).1 hs
          exact ⟨before, rfl, hfirst, hinner, by rw [hline, hrest]⟩
        · cases hshape
      · cases hshape
  · rintro ⟨before, rfl, hfirst, hinner, rfl⟩
    refine ⟨before, _, (splitFirst?_eq_some_iff h.ne_nil).2 ⟨rfl, hfirst⟩, ?_⟩
    have hclose : splitFirst? ['\x7d', ')'] (inner ++ ['\x7d', ')'] ++ after) = some (inner, after) :=
      (splitFirst?_eq_some_iff (by simp)).2 ⟨rfl, hinner⟩
    rw [CallShape.ofArgument?, if_pos (show ('\x7b' == '\x7b') = true from rfl), hclose]

theorem namesKey_dropReturn (h : IsCall call name) (hnames : NamesKey call key line) :
    NamesKey call key (dropReturn line) := by
  obtain ⟨front, inner, after, hshape, hword⟩ := hnames
  obtain ⟨before, rfl, hfirst, hinner, hline⟩ := (classify?_inlineObject_iff h).1 hshape
  have hfront : (before ++ call ++ '\x7b' :: (inner ++ ['\x7d', ')'])).getLast? ≠ some '\r' := by
    rw [List.getLast?_append_of_ne_nil _ (by simp), ← List.cons_append,
      List.getLast?_append_of_ne_nil _ (by simp)]
    decide
  refine ⟨before ++ name, inner, dropReturn after, ?_, hword⟩
  refine (classify?_inlineObject_iff h).2 ⟨before, rfl, hfirst, hinner, ?_⟩
  rw [hline, ← List.cons_append, ← List.append_assoc, dropReturn_append hfront]
  simp

/-! ### The first line with the call -/

/-- The key is found: in front of a comma or a colon, or in the object on the first line with the
call. -/
def HasKey (call key : String) (lines : List String) : Prop :=
  containsAny lines [key ++ ",", key ++ ":"] = true ∨
    ∃ line, lines.find? (Matcher.substring call).accepts = some line ∧
      NamesKey call.toList key.toList line.toList

/-- What putting in a key can come to. -/
inductive KeyOutcome (call key : String) (lines : List String) : Edited (List String) → Prop where
  | inPlace : HasKey call key lines → KeyOutcome call key lines .alreadyApplied
  | skipped {reason : SkipReason} : ¬ HasKey call key lines →
    KeyOutcome call key lines (.skipped reason)
  /-- The first line with the call is changed. -/
  | changed {front back : List String} {line line' : String} : ¬ HasKey call key lines →
    lines = front ++ line :: back → (∀ l ∈ front, (Matcher.substring call).accepts l = false) →
    Changed call.toList key.toList line.toList line'.toList →
    KeyOutcome call key lines (.rewritten (front ++ line' :: back))
  /-- A line is added below the first one with the call. -/
  | added {indent : List Char} {new : List String} {line : String} : ¬ HasKey call key lines →
    line ∈ lines → indent <+: line.toList → (∀ c ∈ indent, isBlank c = true) →
    Inserted (String.ofList (indent ++ "  ".toList ++ key.toList ++ [','])) lines new →
    KeyOutcome call key lines (.rewritten new)

theorem findIdx?_cases {p : String → Bool} (lines : List String) :
    (lines.findIdx? p = none ∧ lines.find? p = none) ∨
      ∃ front line back, lines = front ++ line :: back ∧ p line = true ∧
        (∀ l ∈ front, p l = false) ∧ lines.findIdx? p = some front.length ∧
        lines.find? p = some line := by
  induction lines with
  | nil => exact .inl ⟨rfl, rfl⟩
  | cons first lines ih =>
    by_cases hp : p first = true
    · exact .inr ⟨[], first, lines, rfl, hp, by simp, by simp [List.findIdx?_cons, hp], by simp [hp]⟩
    · rw [Bool.not_eq_true] at hp
      rcases ih with ⟨hidx, hfind⟩ | ⟨front, line, back, rfl, hline, hfront, hidx, hfind⟩
      · exact .inl ⟨by simp [List.findIdx?_cons, hp, hidx], by simp [hp, hfind]⟩
      · refine .inr ⟨first :: front, line, back, rfl, hline, ?_, ?_, ?_⟩
        · exact List.forall_mem_cons.2 ⟨hp, hfront⟩
        · simp only [List.findIdx?_cons, hp, hidx, List.length_cons]
          rfl
        · rw [List.find?_cons_of_neg (by simp [hp]), hfind]

theorem findIdx?_there {p : String → Bool} {front back : List String} {line : String}
    (hfront : ∀ l ∈ front, p l = false) (hline : p line = true) :
    (front ++ line :: back).findIdx? p = some front.length := by
  rw [List.findIdx?_append, List.findIdx?_eq_none_iff.2 hfront, Option.none_or, List.findIdx?_cons,
    hline]
  simp

/-- The first line that is accepted is at one place. -/
theorem eq_of_first {p : String → Bool} {front back front' back' : List String}
    {line line' : String} (hfront : ∀ l ∈ front, p l = false) (hline : p line = true)
    (hfront' : ∀ l ∈ front', p l = false) (hline' : p line' = true)
    (h : front ++ line :: back = front' ++ line' :: back') :
    front = front' ∧ line = line' ∧ back = back' := by
  have hindex : (front ++ line :: back).findIdx? p = some front.length :=
    findIdx?_there hfront hline
  rw [h, findIdx?_there hfront' hline'] at hindex
  obtain ⟨rfl, hrest⟩ := List.append_inj h (Option.some.inj hindex).symm
  exact ⟨rfl, List.cons.inj hrest⟩

theorem insertIdx_above {front back : List String} {added : String} :
    (front ++ back).insertIdx front.length added = front ++ added :: back := by
  induction front with
  | nil => rfl
  | cons first front ih =>
    rw [List.cons_append, List.length_cons, List.insertIdx_succ_cons, ih, List.cons_append]

theorem insertIdx_below {front back : List String} {line added : String} :
    (front ++ line :: back).insertIdx (front.length + 1) added =
      front ++ line :: added :: back := by
  have habove : (front ++ [line] ++ back).insertIdx (front ++ [line]).length added =
      front ++ [line] ++ added :: back := insertIdx_above
  simpa using habove

theorem ofArgument?_emptyCall {before front argument after : List Char}
    (h : CallShape.ofArgument? before argument = some (.emptyCall front after)) :
    front = before ∧ argument = ')' :: after := by
  unfold CallShape.ofArgument? at h
  split at h
  · cases h
  · next c rest =>
    split_ifs at h with hc hparen
    · split at h <;> cases h
    · obtain ⟨rfl, rfl⟩ := CallShape.emptyCall.inj (Option.some.inj h)
      exact ⟨rfl, by rw [beq_iff_eq.1 hparen]⟩

/-- The line with the call, by the form of the argument on it: the object names the key, or the line
is changed, or a line is added below it. -/
inductive Placed (call key : List Char) (line : String) (front back : List String) :
    Option (List String) → Prop where
  | named : NamesKey call key line.toList → Placed call key line front back none
  | changed {line' : String} : ¬ NamesKey call key line.toList →
    Changed call key line.toList line'.toList →
    Placed call key line front back (some (front ++ line' :: back))
  | added {indent : List Char} : ¬ NamesKey call key line.toList → indent <+: line.toList →
    (∀ c ∈ indent, isBlank c = true) →
    Placed call key line front back
      (some (front ++ line :: String.ofList (indent ++ "  ".toList ++ key ++ [',']) :: back))

theorem set_there {front back : List String} {line line' : String} :
    (front ++ line :: back).set front.length line' = front ++ line' :: back := by
  induction front with
  | nil => rfl
  | cons first front ih => rw [List.cons_append, List.length_cons, List.set_cons_succ, ih]; rfl

/-- The argument is taken away, and the key alone is put in its place. -/
theorem changed_onlyKey (h : IsCall call name) {key before gone after : List Char}
    (hfirst : ¬ call <:+: before ++ call.dropLast) (hfill : ∀ c ∈ gone, IsFill c) :
    Changed call key (before ++ call ++ (gone ++ after))
      (String.ofList (before ++ name ++ LineEdit.onlyKey key ++ after)).toList := by
  have hput : Changed call key (before ++ call ++ (gone ++ after))
      (before ++ call ++ ("\x7b ".toList ++ key ++ " \x7d)".toList ++ after)) :=
    .intro before _ _ after hfirst hfill .only
  have hline : before ++ call ++ ("\x7b ".toList ++ key ++ " \x7d)".toList ++ after) =
      (String.ofList (before ++ name ++ LineEdit.onlyKey key ++ after)).toList := by
    rw [String.toList_ofList, h.eq, LineEdit.onlyKey]
    simp
  rwa [← hline]

/-- The key is put in front of the members. -/
theorem changed_firstKey (h : IsCall call name) {key before inner after : List Char}
    (hfirst : ¬ call <:+: before ++ call.dropLast) :
    Changed call key (before ++ call ++ '\x7b' :: (inner ++ ['\x7d', ')'] ++ after))
      (String.ofList (before ++ name ++ "(\x7b ".toList ++ key ++ ", ".toList ++
        (trimStart inner ++ "\x7d)".toList ++ after))).toList := by
  have hfill : ∀ c ∈ '\x7b' :: indent inner, IsFill c := by
    intro c hc
    rcases List.mem_cons.1 hc with rfl | hc
    · exact .inr (by simp)
    · exact .inl (List.mem_takeWhile_imp hc)
  have hput : Changed call key
      (before ++ call ++ ('\x7b' :: indent inner ++ (trimStart inner ++ ['\x7d', ')'] ++ after)))
      (before ++ call ++ ("\x7b ".toList ++ key ++ ", ".toList ++
        (trimStart inner ++ ['\x7d', ')'] ++ after))) :=
    .intro before _ _ _ hfirst hfill .first
  have hold : '\x7b' :: indent inner ++ (trimStart inner ++ ['\x7d', ')'] ++ after) =
      '\x7b' :: (inner ++ ['\x7d', ')'] ++ after) := by
    conv_rhs => rw [← indent_append_trimStart inner]
    simp
  have hline : before ++ call ++ ("\x7b ".toList ++ key ++ ", ".toList ++
        (trimStart inner ++ ['\x7d', ')'] ++ after)) =
      (String.ofList (before ++ name ++ "(\x7b ".toList ++ key ++ ", ".toList ++
        (trimStart inner ++ "\x7d)".toList ++ after))).toList := by
    rw [String.toList_ofList, h.eq]
    simp
  rwa [hold, hline] at hput

theorem placed_placeKey? (h : IsCall call name) (key : List Char) (front back : List String)
    {line : String} {shape : CallShape} (hshape : CallShape.classify? line.toList call = some shape) :
    Placed call key line front back
      (LineEdit.placeKey? (front ++ line :: back) front.length key shape) := by
  have hother : ∀ {shape' : CallShape}, shape = shape' →
      (∀ b i a, shape' ≠ .inlineObject b i a) → ¬ NamesKey call key line.toList := by
    rintro shape' rfl hne ⟨b, i, a, hnames, -⟩
    rw [hshape] at hnames
    exact hne b i a (Option.some.inj hnames)
  have hwhole := CallShape.line_of_classify? hshape
  obtain ⟨before, argument, hsplit, hargument⟩ := (classify?_eq_some_iff h).1 hshape
  obtain ⟨hline, hfirst⟩ := (splitFirst?_eq_some_iff h.ne_nil).1 hsplit
  cases shape with
  | emptyCall front' after =>
    obtain ⟨rfl, rfl⟩ := ofArgument?_emptyCall hargument
    have hfill : ∀ c ∈ [')'], IsFill c := by simp [IsFill]
    rw [LineEdit.placeKey?, set_there]
    refine .changed (hother rfl (by simp)) ?_
    rw [hline]
    exact changed_onlyKey h hfirst hfill
  | inlineObject front' inner after =>
    obtain ⟨before, rfl, hfirst, -, hline⟩ := (classify?_inlineObject_iff h).1 hshape
    have hnames : NamesKey call key line.toList ↔ hasWord key inner = true := by
      constructor
      · rintro ⟨b, i, a, hnames, hword⟩
        rw [hshape] at hnames
        obtain ⟨-, rfl, -⟩ := CallShape.inlineObject.inj (Option.some.inj hnames)
        exact hword
      · intro hword
        exact ⟨_, inner, after, hshape, hword⟩
    rw [LineEdit.placeKey?]
    split_ifs with hword hblank
    · exact .named (hnames.2 hword)
    · -- an object without members is written anew
      have hfill : ∀ c ∈ '\x7b' :: (inner ++ ['\x7d', ')']), IsFill c := by
        intro c hc
        rw [List.mem_cons, List.mem_append] at hc
        rcases hc with rfl | hc | hc
        · exact .inr (by simp)
        · exact .inl (List.all_eq_true.1 hblank c hc)
        · exact .inr (List.mem_cons_of_mem _ hc)
      rw [set_there]
      refine .changed (fun h => hword (hnames.1 h)) ?_
      rw [hline]
      exact changed_onlyKey h hfirst hfill
    · dsimp only
      rw [set_there]
      refine .changed (fun h => hword (hnames.1 h)) ?_
      rw [hline]
      exact changed_firstKey h hfirst
  | multilineObject front' after =>
    have hindent : indent (front' ++ "(\x7b".toList ++ after) <+: line.toList := by
      rw [← hwhole]
      exact List.takeWhile_prefix _
    rw [LineEdit.placeKey?, insertIdx_below]
    exact .added (hother rfl (by simp)) hindent fun c hc => List.mem_takeWhile_imp hc

/-- Putting in a key looks at the first line with the call. -/
theorem applyKey_eq {call key : String} {above below : List String} {line : String}
    (habove : ∀ l ∈ above, (Matcher.substring call).accepts l = false)
    (hline : (Matcher.substring call).accepts line = true) :
    LineEdit.applyKey call key (above ++ line :: below) =
      if containsAny (above ++ line :: below) [key ++ ",", key ++ ":"] then .alreadyApplied
      else
        match CallShape.classify? line.toList call.toList with
        | none => .skipped (.shapeUnrecognized (String.ofList (trim line.toList)))
        | some shape =>
          match LineEdit.placeKey? (above ++ line :: below) above.length key.toList shape with
          | none => .alreadyApplied
          | some new => .rewritten new := by
  have hget : (above ++ line :: below).getD above.length "" = line := by simp
  have happly := LineEdit.applyKey.eq_1 call key (above ++ line :: below)
  rw [findIdx?_there habove hline] at happly
  dsimp only at happly
  rw [hget] at happly
  exact happly

/-- Lines that a key is put into: the first line with the call, and the form of what is passed. -/
theorem exists_of_applyKey {call key : String} {lines new : List String}
    (h : LineEdit.applyKey call key lines = .rewritten new) :
    ∃ above line below shape, lines = above ++ line :: below ∧
      (∀ l ∈ above, (Matcher.substring call).accepts l = false) ∧
      (Matcher.substring call).accepts line = true ∧
      CallShape.classify? line.toList call.toList = some shape ∧
      LineEdit.placeKey? (above ++ line :: below) above.length key.toList shape = some new := by
  rcases findIdx?_cases (p := (Matcher.substring call).accepts) lines with
    ⟨hidx, -⟩ | ⟨above, line, below, rfl, hline, habove, -, -⟩
  · rw [LineEdit.applyKey, hidx] at h
    split_ifs at h
  · rw [applyKey_eq habove hline] at h
    split_ifs at h
    cases hshape : CallShape.classify? line.toList call.toList with
    | none =>
      rw [hshape] at h
      cases h
    | some shape =>
      rw [hshape] at h
      dsimp only at h
      cases hplace : LineEdit.placeKey? (above ++ line :: below) above.length key.toList shape with
      | none =>
        rw [hplace] at h
        cases h
      | some placed =>
        rw [hplace] at h
        obtain rfl := Edited.rewritten.inj h
        exact ⟨above, line, below, shape, rfl, habove, hline, hshape, hplace⟩

/-- **What putting in a key can come to.** -/
theorem applyKey_cases {call : String} {name : List Char} (h : IsCall call.toList name)
    (key : String) (lines : List String) :
    KeyOutcome call key lines (LineEdit.applyKey call key lines) := by
  rw [LineEdit.applyKey]
  split_ifs with hmarker
  · exact .inPlace (.inl hmarker)
  · rcases findIdx?_cases (p := (Matcher.substring call).accepts) lines with
      ⟨hidx, hfind⟩ | ⟨front, line, back, rfl, hline, hfront, hidx, hfind⟩
    · rw [hidx]
      refine .skipped ?_
      rintro (h | ⟨line, h, -⟩)
      · exact hmarker h
      · rw [hfind] at h
        cases h
    · have hthere : HasKey call key (front ++ line :: back) ↔
          NamesKey call.toList key.toList line.toList := by
        constructor
        · rintro (h | ⟨l, h, hnames⟩)
          · exact absurd h hmarker
          · rw [hfind] at h
            obtain rfl := Option.some.inj h
            exact hnames
        · intro hnames
          exact .inr ⟨line, hfind, hnames⟩
      have hget : (front ++ line :: back).getD front.length "" = line := by simp
      rw [hidx]
      dsimp only
      rw [hget]
      cases hshape : CallShape.classify? line.toList call.toList with
      | none =>
        refine .skipped fun h => ?_
        obtain ⟨b, i, a, hnames, -⟩ := hthere.1 h
        rw [hshape] at hnames
        cases hnames
      | some shape =>
        have hplaced := placed_placeKey? h key.toList front back hshape
        dsimp only
        generalize LineEdit.placeKey? (front ++ line :: back) front.length key.toList shape = placed
          at hplaced
        cases hplaced with
        | named hnames => exact .inPlace (hthere.2 hnames)
        | changed hnot hchanged =>
          exact .changed (fun h => hnot (hthere.1 h)) rfl hfront hchanged
        | @added indent hnot hpre hblank =>
          refine .added (fun h => hnot (hthere.1 h)) (by simp) hpre hblank ?_
          have hput : ∀ added, Inserted added (front ++ [line] ++ back)
              (front ++ [line] ++ added :: back) := fun _ => .intro _ _
          simpa using hput (String.ofList (indent ++ "  ".toList ++ key.toList ++ [',']))

/-! ### The key stays -/

variable {call key : String} {name : List Char} {lines new : List String}

theorem containsAny_iff {needles : List String} :
    containsAny lines needles = true ↔
      ∃ line ∈ lines, ∃ needle ∈ needles, needle.toList <:+: line.toList := by
  simp only [containsAny, List.any_eq_true, occursIn_iff]

theorem containsAny_cons_iff {needles : List String} {line : String} :
    containsAny (line :: lines) needles = true ↔
      (∃ needle ∈ needles, needle.toList <:+: line.toList) ∨ containsAny lines needles = true := by
  rw [containsAny_iff, containsAny_iff, List.exists_mem_cons_iff]

theorem containsAny_middle {needles above below : List String} (line : String) :
    containsAny (above ++ line :: below) needles = containsAny (line :: (above ++ below)) needles := by
  simp only [containsAny, List.any_append, List.any_cons, Bool.or_left_comm]

theorem hasKey_of_inserted {line : String} (hins : Inserted line lines new)
    (hline : (Matcher.substring call).accepts line = false) (h : HasKey call key lines) :
    HasKey call key new := by
  rcases h with h | ⟨l, hfind, hnames⟩
  · rw [containsAny_iff] at h
    obtain ⟨l, hl, hneedle⟩ := h
    exact .inl (containsAny_iff.2 ⟨l, hins.mem_iff.2 (.inr hl), hneedle⟩)
  · refine .inr ⟨l, ?_, hnames⟩
    obtain ⟨front, back⟩ := hins
    rw [List.find?_append] at hfind ⊢
    rw [List.find?_cons_of_neg (by simp [hline]), hfind]

theorem containsAny_reload {needles : List String}
    (h : ∀ needle ∈ needles, needle.toList.getLast? ≠ some '\r') :
    containsAny (lines.map reload) needles = containsAny lines needles := by
  rw [containsAny, containsAny, List.any_map, Bool.eq_iff_iff, List.any_eq_true, List.any_eq_true]
  refine exists_congr fun line => and_congr_right fun _ => ?_
  rw [Function.comp_apply, List.any_eq_true, List.any_eq_true]
  refine exists_congr fun needle => and_congr_right fun hneedle => ?_
  rw [toList_reload, occursIn_dropReturn (h needle hneedle)]

theorem hasKey_reload (hcall : IsCall call.toList name) (h : HasKey call key lines) :
    HasKey call key (lines.map reload) := by
  rcases h with h | ⟨line, hfind, hnames⟩
  · refine .inl ((containsAny_reload fun needle hneedle => ?_).trans h)
    simp only [List.mem_cons, List.not_mem_nil, or_false] at hneedle
    rcases hneedle with rfl | rfl <;>
      (rw [String.toList_append, List.getLast?_append_of_ne_nil _ (by simp)]; decide)
  · have hsteady : (Matcher.substring call).accepts ∘ reload = (Matcher.substring call).accepts := by
      have hlast : call.toList.getLast? ≠ some '\r' := by
        rw [hcall.eq, List.getLast?_append_of_ne_nil _ (by simp)]
        decide
      funext line
      exact Matcher.steady_substring hlast line
    refine .inr ⟨reload line, ?_, ?_⟩
    · rw [List.find?_map, hsteady, hfind]
      rfl
    · rw [toList_reload]
      exact namesKey_dropReturn hcall hnames

/-! ### The key is there afterwards -/

theorem Changed.occurs {call key line line' : List Char} (h : Changed call key line line') :
    call <:+: line' := by
  obtain ⟨before, fill, put, rest, -, -, -⟩ := h
  exact List.infix_append _ _ _

/-- The key is found where it is put in behind the first call on a line. -/
theorem found_of_isPut {call key before put rest : List Char} (hcall : IsCall call name)
    (hkey : ∀ c ∈ key, isWordChar c = true) (hfirst : ¬ call <:+: before ++ call.dropLast)
    (hput : IsPut key put) :
    NamesKey call key (before ++ call ++ (put ++ rest)) ∨
      key ++ [','] <:+: before ++ call ++ (put ++ rest) := by
  cases hput with
  | only =>
    refine .inl ⟨before ++ name, ' ' :: key ++ [' '], rest, ?_, hasWord_padded hkey⟩
    refine (classify?_inlineObject_iff hcall).2 ⟨before, rfl, hfirst, fun hin => ?_, by simp⟩
    -- the closing parenthesis is no character of a word
    have hmem : ')' ∈ ' ' :: key ++ [' '] ++ ['\x7d'] := hin.mem (by simp)
    have hparen : ')' ∈ key := by simpa using hmem
    exact absurd (hkey ')' hparen) (by decide)
  | first =>
    refine .inr ⟨before ++ call ++ "\x7b ".toList, [' '] ++ rest, ?_⟩
    simp

theorem Changed.found {call key line line' : List Char} (hcall : IsCall call name)
    (hkey : ∀ c ∈ key, isWordChar c = true) (h : Changed call key line line') :
    NamesKey call key line' ∨ key ++ [','] <:+: line' := by
  obtain ⟨before, fill, put, rest, hfirst, -, hput⟩ := h
  exact found_of_isPut hcall hkey hfirst hput

/-- The edit is done once it was applied. -/
theorem hasKey_of_rewritten (hcall : IsCall call.toList name)
    (hkey : ∀ c ∈ key.toList, isWordChar c = true)
    (h : LineEdit.applyKey call key lines = .rewritten new) : HasKey call key new := by
  have hout := applyKey_cases hcall key lines
  rw [h] at hout
  cases hout with
  | @changed front back line line' hnot hlines hfront hchanged =>
    rcases hchanged.found hcall hkey with hnames | hcomma
    · refine .inr ⟨line', ?_, hnames⟩
      have hline' : (Matcher.substring call).accepts line' = true :=
        occursIn_iff.2 hchanged.occurs
      have hnone : front.find? (Matcher.substring call).accepts = none := by
        rw [List.find?_eq_none]
        intro l hl
        rw [hfront l hl]
        decide
      rw [List.find?_append, hnone, List.find?_cons_of_pos hline']
      rfl
    · refine .inl (containsAny_iff.2 ⟨line', by simp, key ++ ",", by simp, ?_⟩)
      rw [String.toList_append]
      exact hcomma
  | @added indent _ line hnot hline hpre hblank hins =>
    refine .inl (containsAny_iff.2 ⟨_, hins.mem_iff.2 (.inl rfl), key ++ ",", by simp, ?_⟩)
    rw [String.toList_ofList, String.toList_append, List.append_assoc _ key.toList]
    exact List.infix_append_right

/-! ### Other texts stay -/

/-- A text stays that shares nothing with the call and does not start with what may be taken away. -/
theorem Changed.keeps {call key line line' text : List Char} (hcall : ¬ call <:+: text)
    (hclear : ∀ tail, tail <:+ call → tail ≠ [] → ¬ tail <+: text ∧ ¬ text <+: tail)
    {c : Char} {more : List Char} (htext : text = c :: more) (hc : ¬ IsFill c)
    (h : Changed call key line line')
    (hin : text <:+: line) : text <:+: line' := by
  obtain ⟨before, fill, put, rest, -, hfill, -⟩ := h
  rcases infix_around hcall hin with hfront | hback
  · have hshort : before ++ call.dropLast <+: before ++ call :=
      (List.prefix_append_right_inj _).2 (List.dropLast_prefix call)
    exact (hfront.trans hshort.isInfix).trans (List.infix_append_left)
  · have hargument : text <:+: fill ++ rest :=
      infix_of_append (fun tail htail => hclear tail (htail.trans (List.tail_suffix call))) hback
    have hrest : text <:+: rest := by
      refine infix_of_append (fun tail htail hne => ?_) hargument
      obtain ⟨d, tail, rfl⟩ := List.exists_cons_of_ne_nil hne
      have hd : d ≠ c := by
        rintro rfl
        exact hc (hfill d (htail.mem (by simp)))
      rw [htext, List.cons_prefix_cons, List.cons_prefix_cons]
      exact ⟨fun h => hd h.1, fun h => hd h.1.symm⟩
    exact List.infix_append_of_infix_right (List.infix_append_of_infix_right hrest)

/-- **A text stays** in the lines that shares nothing with the call. -/
theorem foundIn_of_applyKey {text : String} (hcall : IsCall call.toList name)
    (htext : ¬ call.toList <:+: text.toList)
    (hclear : ∀ tail, tail <:+ call.toList → tail ≠ [] →
      ¬ tail <+: text.toList ∧ ¬ text.toList <+: tail)
    {c : Char} {more : List Char} (hhead : text.toList = c :: more) (hc : ¬ IsFill c)
    (h : LineEdit.applyKey call key lines = .rewritten new)
    (hfound : (Matcher.substring text).foundIn lines = true) :
    (Matcher.substring text).foundIn new = true := by
  have hout := applyKey_cases hcall key lines
  rw [h] at hout
  rw [Matcher.foundIn_iff] at hfound
  obtain ⟨l, hl, hin⟩ := hfound
  cases hout with
  | @changed front back line line' hnot hlines hfront hchanged =>
    rw [Matcher.foundIn_iff]
    rw [hlines, List.mem_append, List.mem_cons] at hl
    rcases hl with hl | rfl | hl
    · exact ⟨l, by simp [hl], hin⟩
    · exact ⟨line', by simp, occursIn_iff.2
        (hchanged.keeps htext hclear hhead hc (occursIn_iff.1 hin))⟩
    · exact ⟨l, by simp [hl], hin⟩
  | added hnot hline hpre hblank hins =>
    exact Matcher.foundIn_of_inserted hins (Matcher.foundIn_iff.2 ⟨l, hl, hin⟩)

/-- A line of the edited file was there, or starts as one that was up to the end of the call, or
starts with a blank character. -/
theorem mem_of_applyKey (hcall : IsCall call.toList name)
    (h : LineEdit.applyKey call key lines = .rewritten new) {l : String} (hl : l ∈ new) :
    (∃ line ∈ lines, ∃ front, call.toList.length ≤ front.length ∧ front <+: line.toList ∧
        front <+: l.toList) ∨
      l ∈ lines ∨ ∃ c rest, l.toList = c :: rest ∧ isBlank c = true := by
  have hout := applyKey_cases hcall key lines
  rw [h] at hout
  cases hout with
  | @changed front back line line' hnot hlines hfront hchanged =>
    rw [List.mem_append, List.mem_cons] at hl
    rcases hl with hl | rfl | hl
    · exact .inr (.inl (by simp [hlines, hl]))
    · generalize hold : line.toList = old at hchanged
      generalize hput : l.toList = put at hchanged
      obtain ⟨before, fill, put, rest, -, -, -⟩ := hchanged
      refine .inl ⟨line, by simp [hlines], before ++ call.toList, ?_, ?_, ?_⟩
      · rw [List.length_append]
        omega
      · rw [hold]
        exact List.prefix_append _ _
      · exact List.prefix_append _ _
    · exact .inr (.inl (by simp [hlines, hl]))
  | @added indent _ line hnot hline hpre hblank hins =>
    rcases hins.mem_iff.1 hl with rfl | hl
    · refine .inr (.inr ?_)
      rw [String.toList_ofList]
      cases indent with
      | nil => exact ⟨' ', _, rfl, by decide⟩
      | cons c indent => exact ⟨c, _, rfl, hblank c (by simp)⟩
    · exact .inr (.inl hl)

theorem areLines_of_applyKey (hcall : IsCall call.toList name) (hkey : '\n' ∉ key.toList)
    (hlines : AreLines lines) (h : LineEdit.applyKey call key lines = .rewritten new) :
    AreLines new ∧ new ≠ [] := by
  have hout := applyKey_cases hcall key lines
  rw [h] at hout
  cases hout with
  | @changed front back line line' hnot heq hfront hchanged =>
    refine ⟨fun l hl => ?_, by simp⟩
    rw [List.mem_append, List.mem_cons] at hl
    rcases hl with hl | rfl | hl
    · exact hlines l (by simp [heq, hl])
    · have hold := hlines line (by simp [heq])
      generalize line.toList = old at hchanged hold
      generalize l.toList = put at hchanged
      obtain ⟨before, fill, put, rest, -, -, hput⟩ := hchanged
      simp only [List.mem_append, not_or] at hold ⊢
      refine ⟨hold.1, ?_, hold.2.2⟩
      cases hput <;> simp [hkey]
    · exact hlines l (by simp [heq, hl])
  | @added indent _ line hnot hline hpre hblank hins =>
    refine ⟨fun l hl => ?_, hins.ne_nil⟩
    rcases hins.mem_iff.1 hl with rfl | hl
    · have hindent : '\n' ∉ indent := fun hc => hlines line hline (hpre.mem hc)
      rw [String.toList_ofList]
      simp [hindent, hkey]
    · exact hlines l hl

end ProjectSetup
