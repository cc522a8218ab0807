import ProjectSetup.Proofs.AppliedTwice
import ProjectSetup.Proofs.ObjectText

/-!
# Keys that an object has, and keys that it gets

The edit that puts a key into an object looks for the key with a comma or a colon behind it, and for
the key as a word up to the first closing brace with a parenthesis behind it on the line with the
call.  Where the object goes on below that line, the key is put on the next line.  So a key that
stands last in the object, or behind an object within it, can be overlooked, and a line that ends
within a property or an object gets the key there.

* `rewritten_iff_of_ownKey`: when a key is put in that the object has.
* `ready_iff_of_rewritten`: when the key that was put in is a property of its own.
-/

namespace ProjectSetup

open Text

namespace LineEdit

variable {call key : String} {name rest front back : List Char} {lines below new : List String}

/-! ### Keys that an object has -/

/-- What the edit reads of the object on the line with the call does not name the key. -/
def Unnamed (key rest : List Char) : Prop :=
  ∀ inner after, splitFirst? ['\x7d', ')'] rest = some (inner, after) → hasWord key inner = false

/-- What putting in a key comes to where the call is given an object. -/
theorem applyKey_of_openObject? (hcall : IsCall call.toList name)
    (hopen : openObject? call.toList lines = some (rest, below)) :
    (containsAny lines [key ++ ",", key ++ ":"] = false ∧ Unnamed key.toList rest ∧
        ∃ new, applyKey call key lines = .rewritten new) ∨
      (¬ (containsAny lines [key ++ ",", key ++ ":"] = false ∧ Unnamed key.toList rest) ∧
        applyKey call key lines = .alreadyApplied) := by
  obtain ⟨above, line, before, rfl, habove, hsplit⟩ := exists_of_openObject? hopen
  have haccepts : (Matcher.substring call).accepts line = true := by
    rw [Matcher.accepts, occursIn, hsplit]
    rfl
  rw [applyKey_eq habove haccepts, classify?_of_splitFirst? hcall hsplit, CallShape.ofArgument?,
    if_pos (show ('\x7b' == '\x7b') = true from rfl)]
  split_ifs with hmarker
  · refine .inr ⟨fun h => ?_, rfl⟩
    rw [h.1] at hmarker
    cases hmarker
  · rw [Bool.not_eq_true] at hmarker
    cases hclose : splitFirst? ['\x7d', ')'] rest with
    | none =>
      refine .inl ⟨hmarker, fun inner after h => ?_, _, rfl⟩
      rw [hclose] at h
      cases h
    | some parts =>
      obtain ⟨inner, after⟩ := parts
      have hunnamed : Unnamed key.toList rest ↔ hasWord key.toList inner = false := by
        rw [Unnamed, hclose]
        simp
      rw [hunnamed]
      dsimp only [placeKey?]
      cases hword : hasWord key.toList inner with
      | true => exact .inr ⟨by simp, rfl⟩
      | false =>
        refine .inl ⟨hmarker, rfl, ?_⟩
        rw [if_neg Bool.false_ne_true]
        split_ifs
        · exact ⟨_, rfl⟩
        · exact ⟨_, rfl⟩

/-- What the edit reads of the object ends in front of the key: the object goes on below the line,
or an object within it ends on the line before the key. -/
inductive Overlooked (key rest front : List Char) : Prop where
  | open : ¬ ['\x7d', ')'] <:+: rest → Overlooked key rest front
  | nested {inner after : List Char} : splitFirst? ['\x7d', ')'] rest = some (inner, after) →
    inner ++ ['\x7d', ')'] <+: front → hasWord key inner = false → Overlooked key rest front

theorem Overlooked.unnamed {key : List Char} (h : Overlooked key rest front) : Unnamed key rest := by
  intro inner after hclose
  cases h with
  | «open» hnone =>
    rw [← splitFirst?_eq_none_iff, hclose] at hnone
    cases hnone
  | nested hclose' _ hword =>
    rw [hclose] at hclose'
    obtain ⟨rfl, rfl⟩ := Prod.mk.inj (Option.some.inj hclose')
    exact hword

/-- A key of its own stands behind the first closing brace on the line, or is found in front of
it. -/
theorem closed_or_hasWord {inner after : List Char} (hkey : ∀ c ∈ key.toList, isWordChar c = true)
    (htext : textFrom rest below = front ++ key.toList ++ back) (hown : OwnKey front back)
    (hclose : splitFirst? ['\x7d', ')'] rest = some (inner, after)) :
    inner ++ ['\x7d', ')'] <+: front ∨ hasWord key.toList inner = true := by
  have hbrace : '\x7d' ∉ key.toList := fun hmem => absurd (hkey _ hmem) (by decide)
  have hfirst : ∀ c ∈ front.getLast?, isWordChar c = false := by
    intro c hc
    rcases hown.ready.getLast? hc with hblank | rfl
    · exact ConfigModule.isWordChar_of_isBlank hblank
    · decide
  have hlast : ∀ c ∈ back.head?, isWordChar c = false := by
    intro c hc
    rcases hown.ends.head? hc with hblank | rfl | rfl
    · exact ConfigModule.isWordChar_of_isBlank hblank
    · decide
    · decide
  obtain ⟨more, hmore⟩ : ∃ more, front ++ (key.toList ++ back) = inner ++ '\x7d' :: ')' :: more := by
    refine ⟨after ++ below.flatMap fun line => '\n' :: line.toList, ?_⟩
    rw [← List.append_assoc, ← htext, textFrom, eq_of_splitFirst? hclose]
    simp
  rcases List.append_eq_append_iff.1 hmore with ⟨mid, rfl, hmid⟩ | ⟨mid, rfl, hmid⟩
  · -- the front ends in front of the brace, and then so does the key, which has no brace
    right
    rcases List.append_eq_append_iff.1 hmid with ⟨word, rfl, rfl⟩ | ⟨word, hword, hrest⟩
    · rw [← List.append_assoc]
      refine hasWord_between hkey hfirst fun c hc => hlast c ?_
      rw [List.head?_append, hc]
      rfl
    · cases word with
      | nil =>
        have hends : hasWord key.toList (front ++ key.toList ++ []) = true :=
          hasWord_between hkey hfirst (by simp)
        rw [List.append_nil] at hword hends
        rwa [← hword]
      | cons c word =>
        obtain ⟨rfl, -⟩ := List.cons.inj hrest
        exact absurd (by rw [hword]; simp) hbrace
  · cases mid with
    | nil =>
      rw [List.append_nil] at hfirst
      cases hchars : key.toList with
      | nil =>
        right
        have hempty : hasWord [] (inner ++ [] ++ []) = true :=
          hasWord_between (by simp) hfirst (by simp)
        rwa [List.append_nil, List.append_nil] at hempty
      | cons c word =>
        rw [hchars] at hmid hbrace
        obtain ⟨rfl, -⟩ := List.cons.inj hmid
        exact absurd List.mem_cons_self hbrace
    | cons c mid =>
      -- the front goes on with the brace, but does not end with it
      obtain ⟨rfl, hmid'⟩ := List.cons.inj hmid
      cases mid with
      | nil =>
        rcases hown.ready.getLast? (c := '\x7d') (by simp) with hblank | hcomma
        · exact absurd hblank (by decide)
        · exact absurd hcomma (by decide)
      | cons d mid =>
        obtain ⟨rfl, -⟩ := List.cons.inj hmid'
        exact .inl ⟨mid, by simp⟩

/-- **When a key is put in that the object has**: if it stands with a comma or a colon behind it in no
line, and what the edit reads of the object ends in front of it. -/
theorem rewritten_iff_of_ownKey (hcall : IsCall call.toList name)
    (hkey : ∀ c ∈ key.toList, isWordChar c = true)
    (hopen : openObject? call.toList lines = some (rest, below))
    (htext : textFrom rest below = front ++ key.toList ++ back) (hown : OwnKey front back) :
    ((∃ new, applyKey call key lines = .rewritten new) ↔
        containsAny lines [key ++ ",", key ++ ":"] = false ∧ Overlooked key.toList rest front) ∧
      ((¬ ∃ new, applyKey call key lines = .rewritten new) →
        applyKey call key lines = .alreadyApplied) := by
  have hoverlooked : Unnamed key.toList rest → Overlooked key.toList rest front := by
    intro hunnamed
    cases hclose : splitFirst? ['\x7d', ')'] rest with
    | none => exact .open (splitFirst?_eq_none_iff.1 hclose)
    | some parts =>
      obtain ⟨inner, after⟩ := parts
      have hword := hunnamed inner after hclose
      rcases closed_or_hasWord hkey htext hown hclose with hpre | hfound
      · exact .nested hclose hpre hword
      · rw [hword] at hfound
        cases hfound
  rcases applyKey_of_openObject? hcall hopen with ⟨hmarker, hunnamed, hrew⟩ | ⟨hfound, hdone⟩
  · exact ⟨iff_of_true hrew ⟨hmarker, hoverlooked hunnamed⟩, fun h => absurd hrew h⟩
  · refine ⟨iff_of_false ?_ fun h => hfound ⟨h.1, h.2.unnamed⟩, fun _ => hdone⟩
    rintro ⟨new, hnew⟩
    rw [hdone] at hnew
    cases hnew

/-- A key that stands last, below the line with the call, is overlooked. -/
theorem rewritten_iff_of_ownKey_last :
    OwnKey "\n  ".toList "\n\x7d)".toList ∧
      ∃ new, applyKey "new Vuetify(" "preset" ["new Vuetify(\x7b", "  preset", "\x7d)"] =
        .rewritten new := by
  have hcall : IsCall "new Vuetify(".toList "new Vuetify".toList := ⟨by decide, by decide⟩
  have hkey : ∀ c ∈ "preset".toList, isWordChar c = true := List.all_eq_true.1 (by decide)
  have hown : OwnKey "\n  ".toList "\n\x7d)".toList := by decide
  have hopen : openObject? "new Vuetify(".toList ["new Vuetify(\x7b", "  preset", "\x7d)"] =
      some ([], ["  preset", "\x7d)"]) := by decide
  have hoverlooked : Overlooked "preset".toList [] "\n  ".toList := .open (by decide)
  refine ⟨hown, ?_⟩
  rw [(rewritten_iff_of_ownKey hcall hkey hopen (by decide) hown).1]
  exact ⟨by decide, hoverlooked⟩

/-- A key is put in a second time: where it stands last on a line of its own, and where it stands
behind an object that ends with a parenthesis. -/
theorem ownKey_doubled :
    (HasOwn "preset".toList (textFrom [] ["  preset", "\x7d)"]) ∧
      openObject? "new Vuetify(".toList ["new Vuetify(\x7b", "  preset", "\x7d)"] =
        some ([], ["  preset", "\x7d)"]) ∧
      applyKey "new Vuetify(" "preset" ["new Vuetify(\x7b", "  preset", "\x7d)"] =
        .rewritten ["new Vuetify(\x7b", "  preset,", "  preset", "\x7d)"]) ∧
    HasOwn "preset".toList (textFrom " a: f(\x7b b \x7d), preset \x7d)".toList []) ∧
      openObject? "new Vuetify(".toList ["new Vuetify(\x7b a: f(\x7b b \x7d), preset \x7d)"] =
        some (" a: f(\x7b b \x7d), preset \x7d)".toList, []) ∧
      applyKey "new Vuetify(" "preset" ["new Vuetify(\x7b a: f(\x7b b \x7d), preset \x7d)"] =
        .rewritten ["new Vuetify(\x7b preset, a: f(\x7b b \x7d), preset \x7d)"] := by
  decide

/-! ### Keys that an object gets -/

/-- The object goes on below the line with the call, and that line ends within a property or an
object. -/
def Unfinished (call : List Char) (lines : List String) : Prop :=
  ∃ rest below, openObject? call lines = some (rest, below) ∧ ¬ ['\x7d', ')'] <:+: rest ∧ ¬ Ready rest

/-- What stands in the object in front of a key that was put in: a blank, or what stood on the line
with the call. -/
inductive PutBehind (call : List Char) (lines : List String) : List Char → Prop where
  | brace : PutBehind call lines [' ']
  | line {rest blanks : List Char} {below : List String} :
    openObject? call lines = some (rest, below) → (∀ c ∈ blanks, isBlank c = true) →
    PutBehind call lines (rest ++ '\n' :: blanks)

/-- The object of the new lines has the key that was put in between the texts. -/
structure PutBetween (call key : List Char) (lines new : List String) (front back : List Char) :
    Prop where
  text : ∃ rest below, openObject? call new = some (rest, below) ∧
    textFrom rest below = front ++ key ++ back
  behind : PutBehind call lines front
  ends : EndsProperty back

/-- The line that is looked at, and the form of the argument on it, where a key is put in. -/
theorem exists_split_of_applyKey (hcall : IsCall call.toList name)
    (hrew : applyKey call key lines = .rewritten new) :
    ∃ above line below before argument shape, lines = above ++ line :: below ∧
      (∀ l ∈ above, occursIn call.toList l.toList = false) ∧
      splitFirst? call.toList line.toList = some (before, argument) ∧
      CallShape.ofArgument? (before ++ name) argument = some shape ∧
      placeKey? (above ++ line :: below) above.length key.toList shape = some new := by
  obtain ⟨above, line, below, shape, rfl, habove, -, hshape, hplace⟩ := exists_of_applyKey hrew
  obtain ⟨before, argument, hsplit, hargument⟩ := (classify?_eq_some_iff hcall).1 hshape
  exact ⟨above, line, below, before, argument, shape, rfl, habove, hsplit, hargument, hplace⟩

section

variable {above : List String} {line : String} {before argument : List Char} {c : Char}
  (habove : ∀ l ∈ above, occursIn call.toList l.toList = false)
  (hsplit : splitFirst? call.toList line.toList = some (before, c :: argument))

include habove hsplit

theorem unfinished_iff : Unfinished call.toList (above ++ line :: below) ↔
    c = '\x7b' ∧ ¬ ['\x7d', ')'] <:+: argument ∧ ¬ Ready argument := by
  rw [Unfinished, openObject?_there habove hsplit]
  split_ifs with hc <;> simp [hc]

/-- The key stands behind the brace of an object that was put in, or that ends on the line. -/
theorem putBetween_brace {other : List Char} (hends : ∀ more, EndsProperty (other ++ more)) :
    ∃ back, PutBetween call.toList key.toList (above ++ line :: below)
      (above ++ String.ofList (before ++ call.toList ++ '\x7b' :: ' ' :: (key.toList ++ other)) ::
        below) [' '] back := by
  refine ⟨other ++ below.flatMap fun line => '\n' :: line.toList,
    ⟨' ' :: (key.toList ++ other), below, ?_, ?_⟩, .brace, hends _⟩
  · have hnext := splitFirst?_append hsplit ('\x7b' :: ' ' :: (key.toList ++ other))
    rw [← String.toList_ofList (l := before ++ call.toList ++ _)] at hnext
    exact (openObject?_there habove hnext).trans (if_pos rfl)
  · rw [textFrom]
    simp

/-- An object that holds the key alone is put in. -/
theorem putBetween_onlyKey (hcall : IsCall call.toList name) (after : List Char) :
    ∃ back, PutBetween call.toList key.toList (above ++ line :: below)
      (above ++ String.ofList (before ++ name ++ onlyKey key.toList ++ after) :: below) [' '] back := by
  have hline : before ++ name ++ onlyKey key.toList ++ after = before ++ call.toList ++
      '\x7b' :: ' ' :: (key.toList ++ (" \x7d)".toList ++ after)) := by
    rw [hcall.eq, onlyKey]
    simp
  rw [hline]
  exact putBetween_brace habove hsplit fun more =>
    endsProperty_blank (by decide) (endsProperty_mark (.inr rfl))

/-- The key is put in front of the members of an object that ends on the line. -/
theorem putBetween_members (hcall : IsCall call.toList name) (members : List Char) :
    ∃ back, PutBetween call.toList key.toList (above ++ line :: below)
      (above ++ String.ofList (before ++ name ++ "(\x7b ".toList ++ key.toList ++ ", ".toList ++
        members) :: below) [' '] back := by
  have hline : before ++ name ++ "(\x7b ".toList ++ key.toList ++ ", ".toList ++ members =
      before ++ call.toList ++ '\x7b' :: ' ' :: (key.toList ++ (", ".toList ++ members)) := by
    rw [hcall.eq]
    simp
  rw [hline]
  exact putBetween_brace habove hsplit fun more => endsProperty_mark (.inl rfl)

/-- The key stands on a line below the one with the call. -/
theorem putBetween_line (hc : c = '\x7b') {blanks : List Char}
    (hblanks : ∀ c ∈ blanks, isBlank c = true) :
    ∃ back, PutBetween call.toList key.toList (above ++ line :: below)
      (above ++ line :: String.ofList (blanks ++ key.toList ++ ",".toList) :: below)
      (argument ++ '\n' :: blanks) back := by
  have hopen : ∀ below, openObject? call.toList (above ++ line :: below) = some (argument, below) :=
    fun below => (openObject?_there habove hsplit).trans (if_pos hc)
  refine ⟨',' :: below.flatMap fun line => '\n' :: line.toList, ⟨_, _, hopen _, ?_⟩,
    .line (hopen _) hblanks, endsProperty_mark (.inl rfl)⟩
  rw [textFrom, List.flatMap_cons, String.toList_ofList]
  simp

end

/-- **When the key that was put in is a property of its own**: if the line with the call does not end
within a property or an object. -/
theorem ready_iff_of_rewritten (hcall : IsCall call.toList name)
    (hrew : applyKey call key lines = .rewritten new) :
    ∃ front back, PutBetween call.toList key.toList lines new front back ∧
      (Ready front ↔ ¬ Unfinished call.toList lines) := by
  obtain ⟨above, line, below, before, argument, shape, rfl, habove, hsplit, hshape, hplace⟩ :=
    exists_split_of_applyKey hcall hrew
  have hready : Ready [' '] := by decide
  cases shape with
  | emptyCall front after =>
    obtain ⟨rfl, rfl⟩ := ofArgument?_emptyCall hshape
    have hfinished : ¬ Unfinished call.toList (above ++ line :: below) := by
      rw [unfinished_iff habove hsplit]
      exact fun h => absurd h.1 (by decide)
    rw [placeKey?, set_there] at hplace
    obtain rfl := Option.some.inj hplace
    obtain ⟨back, hput⟩ := putBetween_onlyKey habove hsplit hcall after
    exact ⟨_, back, hput, iff_of_true hready hfinished⟩
  | inlineObject front inner after =>
    obtain ⟨rfl, rfl⟩ := ofArgument?_inlineObject hshape
    have hfinished : ¬ Unfinished call.toList (above ++ line :: below) := by
      rw [unfinished_iff habove hsplit]
      exact fun h => h.2.1 (List.infix_append _ _ _)
    rw [placeKey?] at hplace
    split_ifs at hplace with hword hblank
    · rw [set_there] at hplace
      obtain rfl := Option.some.inj hplace
      obtain ⟨back, hput⟩ := putBetween_onlyKey habove hsplit hcall after
      exact ⟨_, back, hput, iff_of_true hready hfinished⟩
    · dsimp only at hplace
      rw [set_there] at hplace
      obtain rfl := Option.some.inj hplace
      obtain ⟨back, hput⟩ := putBetween_members habove hsplit hcall
        (trimStart inner ++ "\x7d)".toList ++ after)
      exact ⟨_, back, hput, iff_of_true hready hfinished⟩
  | multilineObject front after =>
    obtain ⟨rfl, rfl, hclose⟩ := ofArgument?_multilineObject hshape
    have hblanks : ∀ c ∈ indent (before ++ name ++ "(\x7b".toList ++ after) ++ "  ".toList,
        isBlank c = true := by
      intro c hc
      rcases List.mem_append.1 hc with hc | hc
      · exact List.mem_takeWhile_imp hc
      · have hspaces : "  ".toList.all isBlank = true := by decide
        exact List.all_eq_true.1 hspaces c hc
    rw [placeKey?, insertIdx_below] at hplace
    obtain rfl := Option.some.inj hplace
    obtain ⟨back, hput⟩ := putBetween_line habove hsplit rfl hblanks
    refine ⟨_, back, hput, ?_⟩
    rw [unfinished_iff habove hsplit,
      ready_append_blanks (List.forall_mem_cons.2 ⟨by decide, hblanks⟩)]
    have hopen : ¬ ['\x7d', ')'] <:+: after := hclose
    simp [hopen]

/-- The object on the line gets the key in front of its members. -/
theorem ready_iff_of_rewritten_members :
    applyKey "new Vuetify(" "preset" ["new Vuetify(\x7b a: 1 \x7d)"] =
        .rewritten ["new Vuetify(\x7b preset, a: 1 \x7d)"] ∧
      ∃ front back, PutBetween "new Vuetify(".toList "preset".toList
        ["new Vuetify(\x7b a: 1 \x7d)"] ["new Vuetify(\x7b preset, a: 1 \x7d)"] front back ∧
        (Ready front ↔ ¬ Unfinished "new Vuetify(".toList ["new Vuetify(\x7b a: 1 \x7d)"]) := by
  have hcall : IsCall "new Vuetify(".toList "new Vuetify".toList := ⟨by decide, by decide⟩
  have hrew : applyKey "new Vuetify(" "preset" ["new Vuetify(\x7b a: 1 \x7d)"] =
      .rewritten ["new Vuetify(\x7b preset, a: 1 \x7d)"] := by decide
  exact ⟨hrew, ready_iff_of_rewritten hcall hrew⟩

/-- A key is put behind a property that goes on, and into an object within the object. -/
theorem not_ownKey_put :
    (containsAny ["new Vuetify(\x7b a: 1", "\x7d)"] ["'", "\"", "\x60", "//", "/*"] = false ∧
      applyKey "new Vuetify(" "preset" ["new Vuetify(\x7b a: 1", "\x7d)"] =
        .rewritten ["new Vuetify(\x7b a: 1", "  preset,", "\x7d)"] ∧
      openObject? "new Vuetify(".toList ["new Vuetify(\x7b a: 1", "  preset,", "\x7d)"] =
        some (" a: 1".toList, ["  preset,", "\x7d)"]) ∧
      ¬ HasOwn "preset".toList (textFrom " a: 1".toList ["  preset,", "\x7d)"])) ∧
    containsAny ["new Vuetify(\x7b theme: \x7b", "  dark: true", "\x7d \x7d)"]
        ["'", "\"", "\x60", "//", "/*"] = false ∧
      applyKey "new Vuetify(" "preset" ["new Vuetify(\x7b theme: \x7b", "  dark: true", "\x7d \x7d)"] =
        .rewritten ["new Vuetify(\x7b theme: \x7b", "  preset,", "  dark: true", "\x7d \x7d)"] ∧
      openObject? "new Vuetify(".toList
          ["new Vuetify(\x7b theme: \x7b", "  preset,", "  dark: true", "\x7d \x7d)"] =
        some (" theme: \x7b".toList, ["  preset,", "  dark: true", "\x7d \x7d)"]) ∧
      ¬ HasOwn "preset".toList
        (textFrom " theme: \x7b".toList ["  preset,", "  dark: true", "\x7d \x7d)"]) := by
  decide

end LineEdit

end ProjectSetup
