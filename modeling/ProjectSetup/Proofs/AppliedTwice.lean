import ProjectSetup.Proofs.ObjectKey

/-!
# An edit that is applied twice

An edit that rewrote the lines finds itself in what it put in, on the lines as they are.  The marker
is asked for on the line that was put in.  For a key there are two ways: it stands in front of a
comma, or the call that had no members is found again, at the same place, with an object that names
the key alone.  What stands in front of the parenthesis of the call is the same before and after,
and tells alone where the call is (`IsFront`); nothing is asked of the rest of the line, and the
call need not have a parenthesis.

* `IsFront.of_classify?`: where the call is found again.
* `alreadyApplied_of_rewritten`: the second application finds the edit done.
-/

namespace ProjectSetup

open Text

/-! ### The front of a call -/

/-- A text that can stand in front of the parenthesis of the first occurrence of `call` on a line,
whatever is passed to the call. -/
structure IsFront (call front : List Char) : Prop where
  occurs : ∀ argument, call <:+: front ++ '(' :: argument
  classify : ∀ argument,
    CallShape.classify? (front ++ '(' :: argument) call = CallShape.ofArgument? front argument

/-- A call with no parenthesis but at its end ends at the first parenthesis, or before it. -/
theorem isPrefix_of_paren {call after inCall argument : List Char} (hcall : '(' ∉ call.dropLast)
    (h : call ++ after = inCall ++ '(' :: argument) : call <+: inCall ++ ['('] := by
  have hlong : inCall ++ ['('] <+: call ++ after := ⟨argument, by rw [h]; simp⟩
  rcases List.prefix_or_prefix_of_prefix hlong (List.prefix_append call after) with
    ⟨more, hmore⟩ | hshort
  · rcases List.eq_nil_or_concat more with rfl | ⟨more, c, rfl⟩
    · rw [List.append_nil] at hmore
      rw [hmore]
    · refine absurd ?_ hcall
      rw [← hmore, List.concat_eq_append, ← List.append_assoc, List.dropLast_concat]
      simp
  · exact hshort

/-- **Where the call is found again**: a line on which its argument was classified is cut at the
parenthesis. -/
theorem IsFront.of_classify? {line call : List Char} {shape : CallShape}
    (hcall : '(' ∉ call.dropLast) (h : CallShape.classify? line call = some shape) :
    ∃ front argument, line = front ++ '(' :: argument ∧
      CallShape.ofArgument? front argument = some shape ∧ IsFront call front := by
  obtain ⟨⟨before, after⟩, hsplit, h⟩ := Option.bind_eq_some_iff.1 h
  obtain ⟨⟨inCall, argument⟩, hparen, hshape⟩ := Option.bind_eq_some_iff.1 h
  dsimp only at hparen hshape
  have hrest := eq_of_splitFirst? hparen
  rw [List.append_assoc, List.singleton_append] at hrest
  obtain ⟨more, hmore⟩ := isPrefix_of_paren hcall hrest
  have hcut : ∀ other, inCall ++ '(' :: other = call ++ (more ++ other) := by
    intro other
    rw [← List.append_assoc, hmore, List.append_assoc, List.singleton_append]
  have hfront : ∀ other, before ++ inCall ++ '(' :: other = before ++ call ++ (more ++ other) := by
    intro other
    rw [List.append_assoc, hcut, List.append_assoc]
  refine ⟨before ++ inCall, argument, ?_, hshape, ⟨fun other => ?_, fun other => ?_⟩⟩
  · rw [List.append_assoc, ← hrest, ← List.append_assoc]
    exact eq_of_splitFirst? hsplit
  · rw [hfront]
    exact List.infix_append _ _ _
  · have hparen' := splitFirst?_append hparen other
    rw [List.append_assoc, List.singleton_append, hcut] at hparen'
    rw [CallShape.classify?, hfront, splitFirst?_append hsplit]
    simp only [Option.bind_eq_bind, Option.bind_some, hparen']

theorem before_of_ofArgument? {front argument : List Char} {shape : CallShape}
    (h : CallShape.ofArgument? front argument = some shape) : shape.before = front := by
  unfold CallShape.ofArgument? at h
  split at h
  · cases h
  · split_ifs at h
    · split at h <;> (obtain rfl := Option.some.inj h; rfl)
    · obtain rfl := Option.some.inj h
      rfl

/-- An object that holds only a word is read as that. -/
theorem ofArgument?_onlyKey {key : List Char} (hkey : ∀ c ∈ key, isWordChar c = true)
    (front after : List Char) :
    CallShape.ofArgument? front ("\x7b ".toList ++ key ++ " \x7d)".toList ++ after) =
      some (.inlineObject front (' ' :: key ++ [' ']) after) := by
  have hclose : splitFirst? ['\x7d', ')'] (' ' :: key ++ [' '] ++ ['\x7d', ')'] ++ after) =
      some (' ' :: key ++ [' '], after) := by
    refine (splitFirst?_eq_some_iff (by simp)).2 ⟨rfl, fun hin => ?_⟩
    -- the closing parenthesis is no character of a word
    have hmem : ')' ∈ ' ' :: key ++ [' '] ++ ['\x7d'] := hin.mem (by simp)
    have hparen : ')' ∈ key := by simpa using hmem
    exact absurd (hkey ')' hparen) (by decide)
  have htext : "\x7b ".toList ++ key ++ " \x7d)".toList ++ after =
      '\x7b' :: (' ' :: key ++ [' '] ++ ['\x7d', ')'] ++ after) := by
    simp
  rw [htext, CallShape.ofArgument?, if_pos (show ('\x7b' == '\x7b') = true from rfl), hclose]

namespace LineEdit

/-! ### The key is found again -/

theorem applyKey_of_comma {call key : String} {lines : List String} {line : String}
    (hline : line ∈ lines) (h : key.toList ++ [','] <:+: line.toList) :
    applyKey call key lines = .alreadyApplied := by
  have hcomma : containsAny lines [key ++ ",", key ++ ":"] = true := by
    refine containsAny_iff.2 ⟨line, hline, key ++ ",", by simp, ?_⟩
    rw [String.toList_append]
    exact h
  rw [applyKey, if_pos hcomma]

/-- The object on the first line with the call holds the key alone. -/
theorem applyKey_of_onlyKey {call key : String} (hkey : ∀ c ∈ key.toList, isWordChar c = true)
    {front : List Char} (hfront : IsFront call.toList front) {above below : List String}
    (habove : ∀ l ∈ above, (Matcher.substring call).accepts l = false) (after : List Char) :
    applyKey call key (above ++ String.ofList (front ++ onlyKey key.toList ++ after) :: below) =
      .alreadyApplied := by
  have htext : (String.ofList (front ++ onlyKey key.toList ++ after)).toList =
      front ++ '(' :: ("\x7b ".toList ++ key.toList ++ " \x7d)".toList ++ after) := by
    rw [String.toList_ofList, onlyKey]
    simp
  generalize String.ofList (front ++ onlyKey key.toList ++ after) = line at htext
  have haccepts : (Matcher.substring call).accepts line = true := by
    rw [Matcher.accepts, htext, occursIn_iff]
    exact hfront.occurs _
  rw [applyKey_eq habove haccepts]
  split_ifs with hmarker
  · rfl
  · rw [htext, hfront.classify, ofArgument?_onlyKey hkey]
    dsimp only
    rw [placeKey?, if_pos (hasWord_padded hkey)]

/-- By the argument of the call: the key is put in alone, or in front of a comma. -/
theorem applyKey_of_placeKey? {call key : String} (hkey : ∀ c ∈ key.toList, isWordChar c = true)
    {front argument : List Char} (hfront : IsFront call.toList front) {shape : CallShape}
    (hshape : CallShape.ofArgument? front argument = some shape)
    {above below : List String} {line : String}
    (habove : ∀ l ∈ above, (Matcher.substring call).accepts l = false) {new : List String}
    (h : placeKey? (above ++ line :: below) above.length key.toList shape = some new) :
    applyKey call key new = .alreadyApplied := by
  have hbefore := before_of_ofArgument? hshape
  cases shape with
  | emptyCall before after =>
    obtain rfl : before = front := hbefore
    rw [placeKey?, set_there] at h
    obtain rfl := Option.some.inj h
    exact applyKey_of_onlyKey hkey hfront habove after
  | inlineObject before inner after =>
    obtain rfl : before = front := hbefore
    rw [placeKey?] at h
    split_ifs at h with hword hblank
    · rw [set_there] at h
      obtain rfl := Option.some.inj h
      exact applyKey_of_onlyKey hkey hfront habove after
    · dsimp only at h
      rw [set_there] at h
      obtain rfl := Option.some.inj h
      refine applyKey_of_comma (List.mem_append_right _ List.mem_cons_self) ?_
      rw [String.toList_ofList]
      exact ⟨before ++ "(\x7b ".toList, [' '] ++ (trimStart inner ++ "\x7d)".toList ++ after),
        by simp⟩
  | multilineObject before after =>
    rw [placeKey?, insertIdx_below] at h
    obtain rfl := Option.some.inj h
    refine applyKey_of_comma
      (List.mem_append_right _ (List.mem_cons_of_mem _ List.mem_cons_self)) ?_
    rw [String.toList_ofList, List.append_assoc _ key.toList]
    exact List.infix_append_right

theorem applyKey_twice {call key : String} (hcall : '(' ∉ call.toList.dropLast)
    (hkey : ∀ c ∈ key.toList, isWordChar c = true) {lines new : List String}
    (h : applyKey call key lines = .rewritten new) : applyKey call key new = .alreadyApplied := by
  obtain ⟨above, line, below, shape, rfl, habove, -, hshape, hplace⟩ := exists_of_applyKey h
  obtain ⟨front, argument, -, hargument, hfront⟩ := IsFront.of_classify? hcall hshape
  exact applyKey_of_placeKey? hkey hfront hargument habove hplace

/-! ### The line is found again -/

theorem mem_place {anchor : Anchor} {lines : List String} {index : Nat}
    (h : anchor.find? lines = some index) (text : String) (placement : Placement) :
    text ∈ place lines index text placement := by
  have hlt := Anchor.find?_lt h
  by_cases hplace : placement = .replace
  · subst hplace
    exact List.mem_set hlt text
  · exact (inserted_place hplace h).mem_iff.2 (.inl rfl)

theorem applyLine_twice {anchor : Anchor} {placement : Placement} {text : String}
    {marker : Matcher} (hmarker : marker.accepts text = true) {lines new : List String}
    (h : applyLine anchor placement text marker lines = .rewritten new) :
    applyLine anchor placement text marker new = .alreadyApplied := by
  rw [applyLine] at h
  split_ifs at h
  cases hfind : anchor.find? lines with
  | none =>
    rw [hfind] at h
    cases h
  | some index =>
    rw [hfind] at h
    obtain rfl := Edited.rewritten.inj h
    have hfound : marker.foundIn (place lines index text placement) = true :=
      Matcher.foundIn_iff.2 ⟨text, mem_place hfind text placement, hmarker⟩
    rw [applyLine, if_pos hfound]

/-- An edit that puts a line in is done once its marker accepts that line. -/
theorem apply_twice_of_marker? {edit : LineEdit} {marker : Matcher}
    (hmarker : edit.marker? = some marker) {lines new : List String}
    (haccepts : ∀ indent, marker.accepts (String.ofList (indent ++ edit.text.toList)) = true)
    (h : edit.apply lines = .rewritten new) : edit.apply new = .alreadyApplied := by
  have hout := apply_cases hmarker lines
  rw [h] at hout
  have hfound : marker.foundIn new = true := by
    cases hout with
    | rewritten _ _ _ hins => exact Matcher.foundIn_iff.2 ⟨_, hins.mem_iff.2 (.inl rfl), haccepts _⟩
  have hagain := apply_cases hmarker new
  cases happly : edit.apply new with
  | alreadyApplied => rfl
  | skipped reason =>
    rw [happly] at hagain
    cases hagain with
    | skipped hnot _ _ => exact absurd hfound (by rw [hnot]; decide)
  | rewritten content =>
    rw [happly] at hagain
    cases hagain with
    | rewritten hnot _ _ _ => exact absurd hfound (by rw [hnot]; decide)

/-! ### Edits that know what they put in -/

/-- What the edit puts in tells that it was applied: the marker accepts the line, and the key is a
word that is put behind the parenthesis the call ends with, or the first one after the call. -/
def KnowsItself : LineEdit → Prop
  | insertImport _ _ => True
  | insertLine _ _ text marker => marker.accepts text = true
  | prependLine text marker => marker.accepts text = true
  | insertLink _ _ => True
  | objectKey call key =>
    (∀ c ∈ key.toList, isWordChar c = true) ∧ '(' ∉ call.toList.dropLast

/-- **An edit that is applied twice** changes the lines the first time, and finds itself done the
second time. -/
theorem alreadyApplied_of_rewritten {edit : LineEdit} (hknows : edit.KnowsItself)
    {lines new : List String} (h : edit.apply lines = .rewritten new) :
    new ≠ lines ∧ edit.apply new = .alreadyApplied := by
  have hagain : edit.apply new = .alreadyApplied := by
    cases edit with
    | insertImport anchor text =>
      have htext : (Matcher.substring text).accepts text = true :=
        occursIn_iff.2 (List.infix_refl _)
      exact applyLine_twice htext h
    | insertLine anchor placement text marker => exact applyLine_twice hknows h
    | prependLine text marker =>
      rw [apply, applyPrepend] at h ⊢
      split_ifs at h
      obtain rfl := Edited.rewritten.inj h
      have hfound : marker.foundIn (text :: lines) = true :=
        Matcher.foundIn_iff.2 ⟨text, List.mem_cons_self, hknows⟩
      rw [if_pos hfound]
    | insertLink link placement =>
      refine apply_twice_of_marker? rfl (fun indent => ?_) h
      rw [Matcher.accepts, String.toList_ofList, occursIn_iff]
      exact List.infix_append_right
    | objectKey call key => exact applyKey_twice hknows.2 hknows.1 h
  refine ⟨?_, hagain⟩
  rintro rfl
  rw [hagain] at h
  cases h

/-- A key in the place of no argument, behind a call without its parenthesis. -/
theorem alreadyApplied_of_rewritten_key :
    (objectKey "new Vuetify" "preset").KnowsItself ∧
      (objectKey "new Vuetify" "preset").apply ["const a = 1", "export default new Vuetify()"] =
        .rewritten ["const a = 1", "export default new Vuetify(\x7b preset \x7d)"] ∧
      (["const a = 1", "export default new Vuetify(\x7b preset \x7d)"] ≠
          ["const a = 1", "export default new Vuetify()"] ∧
        (objectKey "new Vuetify" "preset").apply
          ["const a = 1", "export default new Vuetify(\x7b preset \x7d)"] = .alreadyApplied) := by
  have hknows : (objectKey "new Vuetify" "preset").KnowsItself := by
    refine ⟨?_, by decide +kernel⟩
    exact List.all_eq_true.1 (show "preset".toList.all isWordChar = true by decide +kernel)
  have happly : (objectKey "new Vuetify" "preset").apply
      ["const a = 1", "export default new Vuetify()"] =
        .rewritten ["const a = 1", "export default new Vuetify(\x7b preset \x7d)"] := by
    decide +kernel
  exact ⟨hknows, happly, alreadyApplied_of_rewritten hknows happly⟩

end LineEdit

end ProjectSetup
