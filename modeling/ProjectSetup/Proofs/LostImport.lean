import ProjectSetup.Proofs.Landing
import ProjectSetup.Proofs.Plan

/-!
# How the import of a preset is lost

The line that imports a preset has the name of the preset in it.  Where the call of the framework
stands in that name, the line can be taken for the one that the preset is passed on: then the key is
put into the middle of the import, which is not found again.

* `CallTakesKey`: the first call in a text takes a key on its line.
* `PutLost`, `FoundLost`: the import that is put in is lost, or the one that the text has.
* `exists_of_lost`, `exists_of_foundLost`: what becomes of the lines.
* `putLost_iff`: the import that is put in, as if the text had it.
* `not_idle_of_put_iff`, `not_idle_of_found_iff`: the import is put in by another pass if it is lost.
-/

namespace ProjectSetup

open Text

/-! ### Calls that take a key on their line -/

/-- What follows the parenthesis of a call: the end of it, or an object that ends on the line and
does not name the key. -/
inductive TakesKey (key : List Char) : List Char → Prop where
  | noArgument {back : List Char} : TakesKey key (')' :: back)
  | object {inner back : List Char} : ¬ ['\x7d', ')'] <:+: inner ++ ['\x7d'] →
    hasWord key inner = false → TakesKey key ('\x7b' :: (inner ++ ['\x7d', ')'] ++ back))

/-- The first call in the text takes a key on its line. -/
def CallTakesKey (call key text : List Char) : Prop :=
  ∃ front argument, splitFirst? call text = some (front, argument) ∧ TakesKey key argument

section

variable {call key : String} {name : List Char} {line : String} {above below : List String}

/-- A key is put in on the line of a call that takes it, or else on a line of its own. -/
theorem takesKey_of_placeKey? (hcall : IsCall call.toList name) {shape : CallShape}
    {new : List String} (hshape : CallShape.classify? line.toList call.toList = some shape)
    (h : LineEdit.placeKey? (above ++ line :: below) above.length key.toList shape = some new) :
    CallTakesKey call.toList key.toList line.toList ∨
      ∃ added, new = above ++ line :: added :: below := by
  obtain ⟨front, argument, hsplit, hargument⟩ := (classify?_eq_some_iff hcall).1 hshape
  cases shape with
  | emptyCall =>
    obtain ⟨rfl, rfl⟩ := ofArgument?_emptyCall hargument
    exact .inl ⟨front, _, hsplit, .noArgument⟩
  | inlineObject before inner after =>
    obtain ⟨-, -, -, hclose, -⟩ := (classify?_inlineObject_iff hcall).1 hshape
    obtain ⟨-, rfl⟩ := ofArgument?_inlineObject hargument
    rw [LineEdit.placeKey?] at h
    by_cases hword : hasWord key.toList inner = true
    · rw [if_pos hword] at h
      cases h
    · exact .inl ⟨front, _, hsplit, .object hclose (Bool.not_eq_true _ ▸ hword)⟩
  | multilineObject =>
    rw [LineEdit.placeKey?, insertIdx_below] at h
    exact .inr ⟨_, (Option.some.inj h).symm⟩

theorem changed_of_placed {line' : String}
    (h : Placed call.toList key.toList line above below (some (above ++ line' :: below))) :
    ¬ NamesKey call.toList key.toList line.toList ∧
      Changed call.toList key.toList line.toList line'.toList := by
  generalize hplaced : some (above ++ line' :: below) = placed at h
  cases h with
  | named => cases hplaced
  | changed hnot hchanged =>
    have hlines := List.append_cancel_left (Option.some.inj hplaced)
    obtain ⟨rfl, -⟩ := List.cons.inj hlines
    exact ⟨hnot, hchanged⟩
  | added =>
    have hlength := congrArg List.length (Option.some.inj hplaced)
    simp at hlength

/-- A call that takes a key has it put in on its line. -/
theorem exists_placeKey? (hcall : IsCall call.toList name)
    (h : CallTakesKey call.toList key.toList line.toList) :
    ∃ shape line', CallShape.classify? line.toList call.toList = some shape ∧
      ∀ above below, LineEdit.placeKey? (above ++ line :: below) above.length key.toList shape =
        some (above ++ line' :: below) := by
  obtain ⟨front, argument, hsplit, htakes⟩ := h
  cases htakes with
  | @noArgument back =>
    refine ⟨_, String.ofList (front ++ name ++ LineEdit.onlyKey key.toList ++ back),
      classify?_of_splitFirst? hcall hsplit, fun above below => ?_⟩
    rw [LineEdit.placeKey?, set_there]
  | @object inner back hclose hword =>
    obtain ⟨hline, hfirst⟩ := (splitFirst?_eq_some_iff hcall.ne_nil).1 hsplit
    have hshape := (classify?_inlineObject_iff hcall).2 ⟨front, rfl, hfirst, hclose, hline⟩
    by_cases hblank : inner.all isBlank = true
    · refine ⟨_, String.ofList (front ++ name ++ LineEdit.onlyKey key.toList ++ back), hshape,
        fun above below => ?_⟩
      rw [LineEdit.placeKey?, hword, if_neg Bool.false_ne_true, if_pos hblank, set_there]
    · refine ⟨_, String.ofList (front ++ name ++ "(\x7b ".toList ++ key.toList ++ ", ".toList ++
        (trimStart inner ++ "\x7d)".toList ++ back)), hshape, fun above below => ?_⟩
      rw [LineEdit.placeKey?, hword, if_neg Bool.false_ne_true, if_neg hblank]
      dsimp only
      rw [set_there]

/-- **A key that is put in on the line of the call**, the first one with the call. -/
theorem applyKey_of_callTakesKey (hcall : IsCall call.toList name)
    (habove : ∀ l ∈ above, (Matcher.substring call).accepts l = false)
    (hline : (Matcher.substring call).accepts line = true)
    (hmarker : containsAny (above ++ line :: below) [key ++ ",", key ++ ":"] = false)
    (h : CallTakesKey call.toList key.toList line.toList) :
    ∃ line', LineEdit.applyKey call key (above ++ line :: below) =
        .rewritten (above ++ line' :: below) ∧
      ¬ NamesKey call.toList key.toList line.toList ∧
      Changed call.toList key.toList line.toList line'.toList := by
  obtain ⟨shape, line', hshape, hput⟩ := exists_placeKey? hcall h
  have hplaced := placed_placeKey? hcall key.toList above below hshape
  rw [hput] at hplaced
  refine ⟨line', ?_, changed_of_placed hplaced⟩
  rw [applyKey_eq habove hline, hmarker, if_neg Bool.false_ne_true, hshape]
  dsimp only
  rw [hput]

end

/-! ### The import on the line with the call -/

variable {preset : String}

theorem getLast?_presetImport (preset : String) :
    (Plan.presetImport preset).toList.getLast? = some '\x27' := by
  rw [toList_presetImport, ← List.append_assoc, List.getLast?_append_of_ne_nil _ (by decide)]
  decide

theorem reload_presetImport (preset : String) :
    reload (Plan.presetImport preset) = Plan.presetImport preset := by
  rw [reload_eq_self_iff, getLast?_presetImport]
  decide

theorem anyImport_presetImport (preset : String) :
    Plan.anyImport.occursIn (Plan.presetImport preset) = true := by
  rw [anyImport_iff, toList_presetImport]
  exact ⟨' ', _, rfl, by decide⟩

/-- A text in the name of a preset is in the import of the preset. -/
theorem infix_presetImport {needle : List Char} (h : needle <:+: preset.toList) :
    needle <:+: (Plan.presetImport preset).toList := by
  rw [toList_presetImport]
  exact List.infix_append_of_infix_right (List.infix_append_of_infix_left h)

theorem vuetifyCall_ne_nil : Plan.vuetifyCall.toList ≠ [] :=
  isCall_vuetifyCall.ne_nil

/-- The first call of a text that has the import of a preset behind no other call is the first one
of the import. -/
theorem splitFirst?_presetImport {front before after : List Char} (back : List Char)
    (hfront : ¬ Plan.vuetifyCall.toList <:+: front)
    (h : splitFirst? Plan.vuetifyCall.toList (Plan.presetImport preset).toList =
      some (before, after)) :
    splitFirst? Plan.vuetifyCall.toList (front ++ (Plan.presetImport preset).toList ++ back) =
      some (front ++ before, after ++ back) := by
  obtain ⟨himport, hfirst⟩ := (splitFirst?_eq_some_iff vuetifyCall_ne_nil).1 h
  refine (splitFirst?_eq_some_iff vuetifyCall_ne_nil).2 ⟨by rw [himport]; simp, ?_⟩
  rw [List.append_assoc]
  refine not_infix_append hfront hfirst fun tail htail hne hpre => ?_
  have hstart : before ++ Plan.vuetifyCall.toList.dropLast <+: (Plan.presetImport preset).toList := by
    rw [himport, List.append_assoc]
    exact (List.prefix_append_right_inj before).2
      ((List.dropLast_prefix _).trans (List.prefix_append _ after))
  exact (clear_presetImport preset htail hne).1 (hpre.trans hstart)

/-- What is put in behind the call is no part of an import that goes on as before. -/
theorem isPut_isPrefix {before after put back rest : List Char}
    (h : splitFirst? Plan.vuetifyCall.toList (Plan.presetImport preset).toList =
      some (before, after)) (hput : IsPut "preset".toList put)
    (htext : after ++ back = put ++ rest) : put <+: after := by
  have himport := eq_of_splitFirst? h
  have hquote : '\x27' ∉ put := by
    cases hput <;> decide
  rcases List.prefix_or_prefix_of_prefix (⟨back, htext⟩ : after <+: put ++ rest)
    (List.prefix_append put rest) with hp | hp
  · have hlast := getLast?_presetImport preset
    rw [himport] at hlast
    by_cases hne : after = []
    · subst hne
      rw [List.append_nil, isCall_vuetifyCall.eq] at hlast
      simp at hlast
    · rw [List.getLast?_append_of_ne_nil _ hne] at hlast
      exact absurd (hp.mem (List.mem_of_getLast? hlast)) hquote
  · exact hp

/-- An import behind the first call stands behind what is taken away there, or put in. -/
theorem presetImport_behind {before gone rest front back : List Char}
    (hfirst : ¬ Plan.vuetifyCall.toList <:+: before ++ Plan.vuetifyCall.toList.dropLast)
    (hgone : 'i' ∉ gone)
    (htext : before ++ Plan.vuetifyCall.toList ++ (gone ++ rest) =
      front ++ (Plan.presetImport preset).toList ++ back)
    (hfront : Plan.vuetifyCall.toList <:+: front) :
    (Plan.presetImport preset).toList <:+: rest := by
  have hsplit := (splitFirst?_eq_some_iff vuetifyCall_ne_nil).2 ⟨htext.symm, hfirst⟩
  obtain ⟨behind, rfl⟩ := isPrefix_of_splitFirst? hsplit hfront (List.append_assoc ..)
  simp only [List.append_assoc, List.append_cancel_left_eq] at htext
  obtain ⟨more, hmore⟩ := exists_presetImport_cons preset
  have hin : (Plan.presetImport preset).toList <:+: gone ++ rest := by
    rw [htext, ← List.append_assoc]
    exact List.infix_append _ _ _
  rw [hmore] at hin ⊢
  exact infix_of_infix_append_left hin hgone

/-- **The import of a preset is lost** on a line that a key is put in on, if it stands behind no call
but its own. -/
theorem Changed.loses_iff {line line' : List Char}
    (hcall : Plan.vuetifyCall.toList <:+: preset.toList)
    (h : Changed Plan.vuetifyCall.toList "preset".toList line line')
    (hnot : ¬ NamesKey Plan.vuetifyCall.toList "preset".toList line)
    (hcomma : ¬ "preset".toList ++ [','] <:+: line)
    (hin : (Plan.presetImport preset).toList <:+: line) :
    ¬ (Plan.presetImport preset).toList <:+: line' ↔
      ∀ front back, line = front ++ (Plan.presetImport preset).toList ++ back →
        ¬ Plan.vuetifyCall.toList <:+: front := by
  obtain ⟨before, fill, put, rest, hfirst, hfill, hput⟩ := h
  have hsplit : ∀ after, splitFirst? Plan.vuetifyCall.toList
      (before ++ Plan.vuetifyCall.toList ++ after) = some (before, after) :=
    fun after => (splitFirst?_eq_some_iff vuetifyCall_ne_nil).2 ⟨rfl, hfirst⟩
  constructor
  · intro hlost front back hline hfront
    have hi : 'i' ∉ fill := by
      intro hmem
      have := hfill 'i' hmem
      unfold IsFill at this
      revert this
      decide
    exact hlost (List.infix_append_of_infix_right
      (List.infix_append_of_infix_right (presetImport_behind hfirst hi hline hfront)))
  · rintro hahead ⟨front', back', hline'⟩
    obtain ⟨front, back, hline⟩ := hin
    have hi : 'i' ∉ put := by
      cases hput <;> decide
    by_cases hfront' : Plan.vuetifyCall.toList <:+: front'
    · -- the import behind the call was there before
      obtain ⟨head, tail, rfl⟩ := presetImport_behind hfirst hi hline'.symm hfront'
      exact hahead (before ++ Plan.vuetifyCall.toList ++ (fill ++ head)) tail (by simp)
        (List.infix_append_of_infix_left List.infix_append_right)
    · -- the import around the call would have the key in it already
      obtain ⟨head, tail, himport⟩ := exists_splitFirst?_iff.2 (infix_presetImport hcall)
      have hfront := hahead front back hline.symm
      have hold := splitFirst?_presetImport back hfront himport
      have hnew := splitFirst?_presetImport back' hfront' himport
      rw [hline, hsplit] at hold
      rw [hline', hsplit] at hnew
      obtain ⟨-, hold⟩ := Prod.mk.inj (Option.some.inj hold)
      obtain ⟨-, hnew⟩ := Prod.mk.inj (Option.some.inj hnew)
      obtain ⟨tail, rfl⟩ := isPut_isPrefix himport hput hnew.symm
      have hword : ∀ c ∈ "preset".toList, isWordChar c = true :=
        List.all_eq_true.1 (by decide)
      rw [hold, List.append_assoc put] at hnot hcomma
      rcases found_of_isPut isCall_vuetifyCall hword hfirst hput with hnames | hkey
      · exact hnot hnames
      · exact hcomma hkey

/-! ### Lines that lose the import -/

/-- The lines `above ++ line :: below` have the import of the preset on the first line with the call
of the framework, around that call, and nowhere else; and the preset is passed on there. -/
structure FoundLost (preset : String) (above : List String) (line : String)
    (below : List String) : Prop where
  call : Plan.vuetifyCall.toList <:+: preset.toList
  first : (Anchor.mk (.substring Plan.vuetifyCall) .forward).At above line below
  imports : (Matcher.substring (Plan.presetImport preset)).accepts line = true
  around : ∀ front back, line.toList = front ++ (Plan.presetImport preset).toList ++ back →
    ¬ Plan.vuetifyCall.toList <:+: front
  alone : (Matcher.substring (Plan.presetImport preset)).foundIn (above ++ below) = false
  noKey : containsAny (above ++ line :: below) ["preset,", "preset:"] = false
  takesKey : CallTakesKey Plan.vuetifyCall.toList "preset".toList line.toList

/-- The lines `above ++ last :: below` have no import of the preset.  It is put in below the last
import, as the first line with the call of the framework, which stands in the name of the preset;
and the preset is passed on there. -/
structure PutLost (preset : String) (above : List String) (last : String)
    (below : List String) : Prop where
  anchor : (Anchor.mk (.pattern Plan.anyImport) .backward).At above last below
  notFound : (Matcher.substring (Plan.presetImport preset)).foundIn (above ++ last :: below) = false
  noCall : (Matcher.substring Plan.vuetifyCall).foundIn (above ++ [last]) = false
  noKey : containsAny (preset :: (above ++ last :: below)) ["preset,", "preset:"] = false
  takesKey : CallTakesKey Plan.vuetifyCall.toList "preset".toList preset.toList

variable {lines new above below : List String} {line : String}

theorem FoundLost.foundIn (h : FoundLost preset above line below) :
    (Matcher.substring (Plan.presetImport preset)).foundIn (above ++ line :: below) = true :=
  Matcher.foundIn_iff.2 ⟨line, by simp, h.imports⟩

theorem keyMarks_eq : ["preset,", "preset:"] = ["preset" ++ ",", "preset" ++ ":"] := by
  decide

theorem not_comma_of_noKey (h : containsAny lines ["preset,", "preset:"] = false)
    (hline : line ∈ lines) : ¬ "preset".toList ++ [','] <:+: line.toList := by
  have hcomma : "preset".toList ++ [','] = "preset,".toList := by decide
  rw [hcomma]
  intro hin
  have hany : containsAny lines ["preset,", "preset:"] = true :=
    containsAny_iff.2 ⟨line, hline, "preset,", List.mem_cons_self, hin⟩
  rw [h] at hany
  cases hany

/-- Lines that have the import and lose it when the preset is passed on. -/
theorem exists_of_lost (h : LineEdit.applyKey Plan.vuetifyCall "preset" lines = .rewritten new)
    (hfound : (Matcher.substring (Plan.presetImport preset)).foundIn lines = true)
    (hlost : (Matcher.substring (Plan.presetImport preset)).foundIn new = false) :
    ∃ above line below, lines = above ++ line :: below ∧ FoundLost preset above line below := by
  have hcall : Plan.vuetifyCall.toList <:+: preset.toList := by
    by_contra hcall
    rw [presetImport_of_applyKey hcall h hfound] at hlost
    cases hlost
  obtain ⟨above, line, below, shape, rfl, habove, hline, hshape, hplace⟩ := exists_of_applyKey h
  obtain ⟨l, hl, haccepts⟩ := Matcher.foundIn_iff.1 hfound
  have hgone : l ∉ new := fun hmem => by
    rw [Matcher.foundIn_eq_false_iff.1 hlost l hmem] at haccepts
    cases haccepts
  have hmarker : containsAny (above ++ line :: below) ["preset,", "preset:"] = false := by
    rw [applyKey_eq habove hline, ← keyMarks_eq] at h
    by_contra hmarker
    rw [Bool.not_eq_false] at hmarker
    rw [if_pos hmarker] at h
    cases h
  rcases takesKey_of_placeKey? isCall_vuetifyCall hshape hplace with htakes | ⟨added, rfl⟩
  · obtain ⟨line', hnew, hnot, hchanged⟩ := applyKey_of_callTakesKey isCall_vuetifyCall habove hline
      (keyMarks_eq ▸ hmarker) htakes
    rw [h] at hnew
    obtain rfl := Edited.rewritten.inj hnew
    obtain rfl : l = line := by
      simp only [List.mem_append, List.mem_cons] at hl hgone
      tauto
    rw [Matcher.foundIn_eq_false_iff] at hlost
    refine ⟨above, l, below, rfl, hcall, Anchor.at_forward_iff.2 ⟨hline, habove⟩, haccepts, ?_, ?_,
      hmarker, htakes⟩
    · exact (hchanged.loses_iff hcall hnot (not_comma_of_noKey hmarker hl)
        (occursIn_iff.1 haccepts)).1 (occursIn_eq_false_iff.1 (hlost line' (by simp)))
    · refine Matcher.foundIn_eq_false_iff.2 fun other hother => hlost other ?_
      simp only [List.mem_append, List.mem_cons] at hother ⊢
      tauto
  · -- a line that is added leaves the import as it is
    refine absurd ?_ hgone
    simp only [List.mem_append, List.mem_cons] at hl ⊢
    tauto

/-- The import is lost when the preset is passed on. -/
theorem exists_of_foundLost (h : FoundLost preset above line below) :
    ∃ line', LineEdit.applyKey Plan.vuetifyCall "preset" (above ++ line :: below) =
        .rewritten (above ++ line' :: below) ∧
      Changed Plan.vuetifyCall.toList "preset".toList line.toList line'.toList ∧
      (Matcher.substring (Plan.presetImport preset)).foundIn (above ++ line' :: below) = false := by
  obtain ⟨line', hnew, hnot, hchanged⟩ := applyKey_of_callTakesKey isCall_vuetifyCall
    (h.first.first rfl) h.first.accepts (keyMarks_eq ▸ h.noKey) h.takesKey
  have hcomma := not_comma_of_noKey h.noKey (by simp : line ∈ above ++ line :: below)
  have hlost := (hchanged.loses_iff h.call hnot hcomma (occursIn_iff.1 h.imports)).2 h.around
  refine ⟨line', hnew, hchanged, Matcher.foundIn_eq_false_iff.2 fun other hother => ?_⟩
  have halone := Matcher.foundIn_eq_false_iff.1 h.alone
  simp only [List.mem_append, List.mem_cons] at hother halone
  rcases hother with hother | rfl | hother
  · exact halone other (.inl hother)
  · exact occursIn_eq_false_iff.2 hlost
  · exact halone other (.inr hother)

/-! ### The import that is put in -/

theorem takesKey_cons_iff {key argument : List Char} {c : Char} :
    TakesKey key (c :: argument) ↔ c = ')' ∨ c = '\x7b' ∧
      ∃ inner back, splitFirst? ['\x7d', ')'] argument = some (inner, back) ∧
        hasWord key inner = false := by
  constructor
  · rintro (_ | ⟨hclose, hword⟩)
    · exact .inl rfl
    · exact .inr ⟨rfl, _, _, (splitFirst?_eq_some_iff (by simp)).2 ⟨rfl, hclose⟩, hword⟩
  · rintro (rfl | ⟨rfl, inner, back, hsplit, hword⟩)
    · exact .noArgument
    · obtain ⟨rfl, hclose⟩ := (splitFirst?_eq_some_iff (by simp)).1 hsplit
      exact .object hclose hword

/-- Whether a key is taken does not depend on a text behind it that closes nothing. -/
theorem takesKey_append_iff {key argument other : List Char} {c : Char}
    (hc : c ∉ ['\x7b', '\x7d', ')']) (hother : ¬ ['\x7d', ')'] <:+: other) :
    TakesKey key (argument ++ c :: other) ↔ TakesKey key argument := by
  simp only [List.mem_cons, List.not_mem_nil, or_false, not_or] at hc
  obtain ⟨hopen, hbrace, hclose⟩ := hc
  cases argument with
  | nil =>
    rw [List.nil_append, takesKey_cons_iff]
    refine iff_of_false ?_ (fun h => by cases h)
    rintro (h | ⟨h, -⟩)
    · exact hclose h
    · exact hopen h
  | cons d argument =>
    rw [List.cons_append, takesKey_cons_iff, takesKey_cons_iff]
    refine or_congr_right (and_congr_right fun _ => ?_)
    -- the first end of an object is the same one in both texts
    cases hsplit : splitFirst? ['\x7d', ')'] argument with
    | none =>
      have hnone : splitFirst? ['\x7d', ')'] (argument ++ c :: other) = none := by
        rw [splitFirst?_eq_none_iff] at hsplit ⊢
        intro hin
        rcases infix_or_infix_of_notMem (by simp) hin (by simp [hbrace, hclose]) with hin | hin
        · exact hsplit hin
        · exact hother hin
      rw [hnone]
    | some parts =>
      obtain ⟨before, after⟩ := parts
      have hsome : splitFirst? ['\x7d', ')'] (argument ++ c :: other) =
          some (before, after ++ c :: other) := by
        rw [eq_of_splitFirst? hsplit, List.append_assoc _ after]
        exact splitFirst?_append hsplit _
      simp [hsome]

/-- The first call in the import of a preset is the first one in its name. -/
theorem splitFirst?_presetImport_of_preset {front argument : List Char}
    (h : splitFirst? Plan.vuetifyCall.toList preset.toList = some (front, argument)) :
    splitFirst? Plan.vuetifyCall.toList (Plan.presetImport preset).toList =
      some (Plan.presetFront.toList ++ front, argument ++ "/preset'".toList) := by
  obtain ⟨hpreset, hfirst⟩ := (splitFirst?_eq_some_iff vuetifyCall_ne_nil).1 h
  refine (splitFirst?_eq_some_iff vuetifyCall_ne_nil).2 ⟨?_, fun hin => ?_⟩
  · rw [toList_presetImport, hpreset]
    simp
  · have hfront : Plan.presetFront.toList = Plan.presetFront.toList.dropLast ++ ['-'] := by decide
    rw [hfront, List.append_assoc, List.append_assoc, List.singleton_append] at hin
    rcases infix_or_infix_of_notMem vuetifyCall_ne_nil hin (by decide) with hin | hin
    · revert hin
      rw [← occursIn_iff]
      decide
    · exact hfirst hin

theorem callTakesKey_presetImport_iff :
    CallTakesKey Plan.vuetifyCall.toList "preset".toList (Plan.presetImport preset).toList ↔
      CallTakesKey Plan.vuetifyCall.toList "preset".toList preset.toList := by
  have htakes : ∀ argument, TakesKey "preset".toList (argument ++ "/preset'".toList) ↔
      TakesKey "preset".toList argument := fun argument =>
    takesKey_append_iff (by decide) (by rw [← occursIn_iff]; decide)
  constructor
  · rintro ⟨front, argument, hsplit, htake⟩
    have hcall : Plan.vuetifyCall.toList <:+: preset.toList := by
      by_contra hnot
      exact not_infix_presetImport hnot (exists_splitFirst?_iff.1 ⟨_, _, hsplit⟩)
    obtain ⟨front', argument', hpreset⟩ := exists_splitFirst?_iff.2 hcall
    rw [splitFirst?_presetImport_of_preset hpreset] at hsplit
    obtain ⟨-, rfl⟩ := Prod.mk.inj (Option.some.inj hsplit)
    exact ⟨front', argument', hpreset, (htakes argument').1 htake⟩
  · rintro ⟨front, argument, hsplit, htake⟩
    exact ⟨_, _, splitFirst?_presetImport_of_preset hsplit, (htakes argument).2 htake⟩

theorem noKey_presetImport_iff (lines : List String) :
    containsAny (Plan.presetImport preset :: lines) ["preset,", "preset:"] = false ↔
      containsAny (preset :: lines) ["preset,", "preset:"] = false := by
  have hsame : ∀ needle ∈ ["preset,", "preset:"],
      (needle.toList <:+: (Plan.presetImport preset).toList ↔ needle.toList <:+: preset.toList) := by
    have hclosed : ∀ needle ∈ ["preset,", "preset:"], '-' ∉ needle.toList ∧ '/' ∉ needle.toList ∧
        occursIn needle.toList Plan.presetFront.toList = false ∧
        occursIn needle.toList "/preset'".toList = false := by decide
    intro needle hneedle
    obtain ⟨hhyphen, hslash, hfront, hback⟩ := hclosed needle hneedle
    refine ⟨fun hin => ?_, infix_presetImport⟩
    by_contra hnot
    exact not_infix_presetImport_of hhyphen hslash (occursIn_eq_false_iff.1 hfront)
      (occursIn_eq_false_iff.1 hback) hnot hin
  rw [← Bool.not_eq_true, ← Bool.not_eq_true, not_iff_not, containsAny_cons_iff,
    containsAny_cons_iff]
  exact or_congr_left (exists_congr fun needle => and_congr_right (hsame needle))

/-- **The import that is put in** is lost as one that the text has, by the name of the preset. -/
theorem putLost_iff {last : String} :
    PutLost preset above last below ↔
      (Anchor.mk (.pattern Plan.anyImport) .backward).At above last below ∧
        FoundLost preset (above ++ [last]) (Plan.presetImport preset) below := by
  have hlines : above ++ [last] ++ below = above ++ last :: below := by simp
  have hkey : containsAny (above ++ [last] ++ Plan.presetImport preset :: below)
        ["preset,", "preset:"] = false ↔
      containsAny (preset :: (above ++ last :: below)) ["preset,", "preset:"] = false := by
    rw [containsAny_middle, hlines, noKey_presetImport_iff]
  constructor
  · rintro ⟨hanchor, hnot, hnocall, hnokey, htakes⟩
    have hcall : Plan.vuetifyCall.toList <:+: preset.toList := by
      obtain ⟨front, argument, hsplit, -⟩ := htakes
      exact exists_splitFirst?_iff.1 ⟨front, argument, hsplit⟩
    refine ⟨hanchor, hcall, Anchor.at_forward_iff.2 ⟨?_, Matcher.foundIn_eq_false_iff.1 hnocall⟩,
      occursIn_iff.2 (List.infix_refl _), ?_, ?_, hkey.2 hnokey, callTakesKey_presetImport_iff.2 htakes⟩
    · rw [Matcher.accepts, occursIn_iff]
      exact infix_presetImport hcall
    · -- nothing stands around the import
      intro front back htext
      have hlength := congrArg List.length htext
      simp only [List.length_append] at hlength
      obtain rfl : front = [] := List.eq_nil_of_length_eq_zero (by omega)
      exact fun hin => vuetifyCall_ne_nil (List.infix_nil.1 hin)
    · rw [hlines]
      exact hnot
  · rintro ⟨hanchor, hlost⟩
    refine ⟨hanchor, hlines ▸ hlost.alone, Matcher.foundIn_eq_false_iff.2 (hlost.first.first rfl),
      hkey.1 hlost.noKey, callTakesKey_presetImport_iff.1 hlost.takesKey⟩

example : PutLost "new Vuetify()" [] "import Vue from 'vue'" ["new Vuetify(\x7b\x7d)"] where
  anchor := ⟨by decide, by decide, by decide⟩
  notFound := by decide +kernel
  noCall := by decide +kernel
  noKey := by decide +kernel
  takesKey := ⟨[], [')'], by decide +kernel, .noArgument⟩

/-! ### The plugin module after the two steps -/

variable {text? : Option String}

/-- A line that a key is put in on starts with an import if it did before, also when it is read
again. -/
theorem anyImport_changed {line line' : String}
    (h : Changed Plan.vuetifyCall.toList "preset".toList line.toList line'.toList) :
    (Matcher.pattern Plan.anyImport).accepts (reload line') =
      (Matcher.pattern Plan.anyImport).accepts (reload line) := by
  have hstart : ∃ front, 7 ≤ front.length ∧ front <+: (reload line).toList ∧
      front <+: (reload line').toList := by
    rw [toList_reload, toList_reload]
    generalize line.toList = old at h
    generalize line'.toList = new at h
    obtain ⟨before, fill, put, rest, -, -, -⟩ := h
    have hlast : (before ++ Plan.vuetifyCall.toList).getLast? ≠ some '\r' := by
      rw [List.getLast?_append_of_ne_nil _ vuetifyCall_ne_nil]
      decide
    refine ⟨before ++ Plan.vuetifyCall.toList, ?_, ?_, ?_⟩
    · have hlength : Plan.vuetifyCall.toList.length = 12 := by decide
      rw [List.length_append]
      omega
    · rw [dropReturn_append hlast]
      exact List.prefix_append _ _
    · rw [dropReturn_append hlast]
      exact List.prefix_append _ _
  obtain ⟨front, hlong, hfront, hfront'⟩ := hstart
  exact Bool.eq_iff_iff.2 ⟨anyImport_of_isPrefix hlong hfront hfront',
    anyImport_of_isPrefix hlong hfront' hfront⟩

/-- The lines of a module that loses the import. -/
theorem linesOf_of_foundLost (hlines : linesOf text? = above ++ line :: below)
    (h : FoundLost preset above line below) :
    ∃ line', Changed Plan.vuetifyCall.toList "preset".toList line.toList line'.toList ∧
      linesOf (Plan.usePreset.edit.textAfter text?) = (above ++ line' :: below).map reload ∧
      (Matcher.substring (Plan.presetImport preset)).foundIn (above ++ line' :: below) = false := by
  obtain ⟨line', hnew, hchanged, hgone⟩ := exists_of_foundLost h
  rw [← hlines] at hnew
  have hrew : Plan.usePreset.edit.onText text? = .rewritten (joinLines (above ++ line' :: below)) :=
    onText_lines_eq_rewritten_iff.2 ⟨_, hnew, rfl⟩
  obtain ⟨new, hnew', hafter⟩ := linesOf_keyEdit hrew
  rw [hnew] at hnew'
  obtain rfl := Edited.rewritten.inj hnew'
  exact ⟨line', hchanged, by rw [FileEdit.textAfter_of_rewritten hrew, hafter], hgone⟩

/-- The import is lost only by lines that have it around the call. -/
theorem exists_of_not_foundIn (hfeed : '\n' ∉ preset.toList)
    (hfound : (Matcher.substring (Plan.presetImport preset)).foundIn (linesOf text?) = true)
    (hlost : (Matcher.substring (Plan.presetImport preset)).foundIn
      (linesOf (Plan.usePreset.edit.textAfter text?)) = false) :
    ∃ above line below, linesOf text? = above ++ line :: below ∧
      FoundLost preset above line below := by
  by_cases hidle : Plan.usePreset.edit.Idle text?
  · rw [hidle.textAfter, hfound] at hlost
    cases hlost
  · rw [FileEdit.Idle, not_forall] at hidle
    obtain ⟨text, hrew⟩ := hidle
    rw [not_not] at hrew
    obtain ⟨new, hnew, hlines⟩ := linesOf_keyEdit hrew
    rw [FileEdit.textAfter_of_rewritten hrew, hlines,
      Matcher.foundIn_reload (lasting_importPreset hfeed).steady] at hlost
    exact exists_of_lost hnew hfound hlost

/-- **A module that imports the preset** has it imported again after it was passed on, if the import
is lost and another one is left. -/
theorem not_idle_of_found_iff (hfeed : '\n' ∉ preset.toList)
    (hfound : (Matcher.substring (Plan.presetImport preset)).foundIn (linesOf text?) = true) :
    ¬ (Plan.importPreset preset).edit.Idle (Plan.usePreset.edit.textAfter text?) ↔
      (∃ above line below, linesOf text? = above ++ line :: below ∧
        FoundLost preset above line below) ∧
      (Matcher.pattern Plan.anyImport).foundIn ((linesOf text?).map reload) = true := by
  have himport := lasting_importPreset hfeed
  have hidle : (Plan.importPreset preset).edit.Idle (Plan.usePreset.edit.textAfter text?) ↔ _ :=
    idle_lines_iff himport.marker? rfl
  have hleft : ∀ {above line below}, linesOf text? = above ++ line :: below →
      FoundLost preset above line below →
      (Matcher.pattern Plan.anyImport).foundIn (linesOf (Plan.usePreset.edit.textAfter text?)) =
        (Matcher.pattern Plan.anyImport).foundIn ((linesOf text?).map reload) := by
    intro above line below hlines hlost
    obtain ⟨line', hchanged, hafter, -⟩ := linesOf_of_foundLost hlines hlost
    rw [hafter, hlines]
    simp only [Matcher.foundIn, List.map_append, List.map_cons, List.any_append, List.any_cons,
      anyImport_changed hchanged]
  rw [hidle, not_or, Bool.not_eq_true, Bool.not_eq_false]
  constructor
  · rintro ⟨hgone, himports⟩
    obtain ⟨above, line, below, hlines, hlost⟩ := exists_of_not_foundIn hfeed hfound hgone
    exact ⟨⟨above, line, below, hlines, hlost⟩, hleft hlines hlost ▸ himports⟩
  · rintro ⟨⟨above, line, below, hlines, hlost⟩, himports⟩
    obtain ⟨line', -, hafter, hgone⟩ := linesOf_of_foundLost hlines hlost
    refine ⟨?_, (hleft hlines hlost).trans himports⟩
    rw [hafter, Matcher.foundIn_reload himport.steady, hgone]

theorem steady_vuetifyCall : (Matcher.substring Plan.vuetifyCall).Steady :=
  Matcher.steady_substring (by decide)

/-- It makes no difference whether the lines around the one with the call were read again. -/
theorem foundLost_reload_iff (hfeed : '\n' ∉ preset.toList) :
    FoundLost preset (above.map reload) line (below.map reload) ↔
      FoundLost preset above line below := by
  have hfirst : (Anchor.mk (.substring Plan.vuetifyCall) .forward).At (above.map reload) line
        (below.map reload) ↔
      (Anchor.mk (.substring Plan.vuetifyCall) .forward).At above line below := by
    rw [Anchor.at_forward_iff, Anchor.at_forward_iff, List.forall_mem_map]
    simp only [steady_vuetifyCall _]
  have halone : (Matcher.substring (Plan.presetImport preset)).foundIn
        (above.map reload ++ below.map reload) =
      (Matcher.substring (Plan.presetImport preset)).foundIn (above ++ below) := by
    rw [← List.map_append, Matcher.foundIn_reload (lasting_importPreset hfeed).steady]
  have hkey : containsAny (above.map reload ++ line :: below.map reload) ["preset,", "preset:"] =
      containsAny (above ++ line :: below) ["preset,", "preset:"] := by
    rw [containsAny_middle, containsAny_middle, ← List.map_append, Bool.eq_iff_iff,
      containsAny_cons_iff, containsAny_cons_iff, containsAny_reload (by decide)]
  constructor
  · rintro ⟨hcall, hat, himports, haround, hno, hmarks, htakes⟩
    exact ⟨hcall, hfirst.1 hat, himports, haround, halone ▸ hno, hkey ▸ hmarks, htakes⟩
  · rintro ⟨hcall, hat, himports, haround, hno, hmarks, htakes⟩
    exact ⟨hcall, hfirst.2 hat, himports, haround, halone.trans hno, hkey.trans hmarks, htakes⟩

/-- The lines of the module with the import that is put in. -/
theorem linesOf_importPreset (hfeed : '\n' ∉ preset.toList) {last : String}
    (hlines : linesOf text? = above ++ last :: below)
    (hanchor : (Anchor.mk (.pattern Plan.anyImport) .backward).At above last below)
    (hnot : (Matcher.substring (Plan.presetImport preset)).foundIn (linesOf text?) = false) :
    linesOf ((Plan.importPreset preset).edit.textAfter text?) =
      (above ++ [last]).map reload ++ Plan.presetImport preset :: below.map reload := by
  have hedit : (Plan.importPreset preset).edit = .lines (.insertImport
      ⟨.pattern Plan.anyImport, .backward⟩ (Plan.presetImport preset)) := rfl
  have hfind : Anchor.find? ⟨.pattern Plan.anyImport, .backward⟩ (above ++ last :: below) =
      some above.length := lastIdx?_there hanchor.accepts (hanchor.last rfl)
  have happly : (LineEdit.insertImport ⟨.pattern Plan.anyImport, .backward⟩
      (Plan.presetImport preset)).apply (linesOf text?) =
        .rewritten (above ++ last :: Plan.presetImport preset :: below) := by
    rw [LineEdit.apply, LineEdit.applyLine, hnot, if_neg Bool.false_ne_true, hlines, hfind]
    dsimp only
    rw [LineEdit.place, insertIdx_below]
  have hrew : (Plan.importPreset preset).edit.onText text? =
      .rewritten (joinLines (above ++ last :: Plan.presetImport preset :: below)) := by
    rw [hedit]
    exact onText_lines_eq_rewritten_iff.2 ⟨_, happly, rfl⟩
  have hold := areLines_linesOf text?
  rw [hlines] at hold
  have hnew : AreLines (above ++ last :: Plan.presetImport preset :: below) := by
    intro l hl
    simp only [List.mem_append, List.mem_cons] at hl
    rcases hl with hl | rfl | rfl | hl
    · exact hold l (by simp [hl])
    · exact hold l (by simp)
    · exact (lasting_importPreset hfeed).noFeed
    · exact hold l (by simp [hl])
  rw [FileEdit.textAfter_of_rewritten hrew, linesOf_joinLines hnew (by simp)]
  simp [reload_presetImport]

/-- **A module that does not import the preset** has it imported again after it was imported and
passed on, if the import that is put in is lost. -/
theorem not_idle_of_put_iff (hfeed : '\n' ∉ preset.toList) {last : String}
    (hlines : linesOf text? = above ++ last :: below)
    (hanchor : (Anchor.mk (.pattern Plan.anyImport) .backward).At above last below)
    (hnot : (Matcher.substring (Plan.presetImport preset)).foundIn (linesOf text?) = false) :
    ¬ (Plan.importPreset preset).edit.Idle
        (Plan.usePreset.edit.textAfter ((Plan.importPreset preset).edit.textAfter text?)) ↔
      PutLost preset above last below := by
  have hafter := linesOf_importPreset hfeed hlines hanchor hnot
  have himport : (Matcher.substring (Plan.presetImport preset)).accepts (Plan.presetImport preset) =
      true := occursIn_iff.2 (List.infix_refl _)
  have hfound : (Matcher.substring (Plan.presetImport preset)).foundIn
      (linesOf ((Plan.importPreset preset).edit.textAfter text?)) = true := by
    rw [hafter]
    exact Matcher.foundIn_iff.2 ⟨_, by simp, himport⟩
  have hleft : (Matcher.pattern Plan.anyImport).foundIn
      ((linesOf ((Plan.importPreset preset).edit.textAfter text?)).map reload) = true := by
    rw [hafter]
    refine Matcher.foundIn_iff.2 ⟨reload (Plan.presetImport preset), by simp, ?_⟩
    rw [reload_presetImport]
    exact anyImport_presetImport preset
  rw [not_idle_of_found_iff hfeed hfound, and_iff_left hleft, putLost_iff, and_iff_right hanchor,
    ← foundLost_reload_iff hfeed, hafter]
  constructor
  · rintro ⟨above', line, below', heq, hlost⟩
    have hnone : ∀ l ∈ (above ++ [last]).map reload,
        (Matcher.substring (Plan.presetImport preset)).accepts l = false := by
      rw [hlines] at hnot
      rw [← Matcher.foundIn_eq_false_iff, Matcher.foundIn_reload (lasting_importPreset hfeed).steady]
      refine Matcher.foundIn_eq_false_iff.2 fun l hl => Matcher.foundIn_eq_false_iff.1 hnot l ?_
      simp only [List.mem_append, List.mem_cons, List.not_mem_nil, or_false] at hl ⊢
      tauto
    have hnone' : ∀ l ∈ above', (Matcher.substring (Plan.presetImport preset)).accepts l = false :=
      fun l hl => Matcher.foundIn_eq_false_iff.1 hlost.alone l (List.mem_append_left _ hl)
    obtain ⟨rfl, rfl, rfl⟩ := eq_of_first hnone himport hnone' hlost.imports heq
    exact hlost
  · exact fun hlost => ⟨_, _, _, rfl, hlost⟩

end ProjectSetup
