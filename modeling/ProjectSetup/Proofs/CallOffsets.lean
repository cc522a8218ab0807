import Mathlib.Data.List.GetD
import ProjectSetup.LineEdit
import ProjectSetup.Proofs.Text.Blank
import ProjectSetup.Proofs.Text.Offset

/-!
# The argument of a call by byte offsets

A line is cut into parts at the argument of a call.  Here the parts are told by byte offsets: where
the parenthesis of the call stands, and where an object is closed.  The offsets are found by searching
in slices of the line, and the key is put in between slices of it.  A slice that is out of range, or
starts or ends inside a character, would stop the edit; `locate?` and `applyKey?` fail there, and they
never do.

* `Classified`, `ArgumentAt`: what the argument of a call is, told by where words stand on the line.
* `classified_iff`: that is what `classify?` finds out.
* `locate?_eq`, `applyKey?_eq`: no slice is out of range.
-/

namespace ProjectSetup

open Text

/-- The argument of a call on a line by byte offsets: of the parenthesis, and of the brace that closes
an object on the line. -/
inductive CallOffsets where
  | emptyCall (paren : Nat)
  | inlineObject (paren closing : Nat)
  | multilineObject (paren : Nat)
deriving Repr, DecidableEq

/-- The offsets of the parts of a line. -/
def CallShape.offsets (shape : CallShape) : CallOffsets :=
  match shape, shape.closeOffset? with
  | emptyCall _ _, _ => .emptyCall shape.openOffset
  | _, some closing => .inlineObject shape.openOffset closing
  | _, none => .multilineObject shape.openOffset

namespace CallOffsets

variable {line call before argument inner after : List Char} {start paren closing : Nat}
  {offsets? offsets?' : Option CallOffsets} {shape : CallShape}

/-! ### What the argument is -/

/-- What stands at a parenthesis on a line, if it is the start of an argument that is told apart. -/
inductive ArgumentAt (line : List Char) (paren : Nat) : Option CallOffsets → Prop where
  | other : ¬ StandsAt ['(', '\x7b'] line paren → ¬ StandsAt ['(', ')'] line paren →
    ArgumentAt line paren none
  | emptyCall : StandsAt ['(', ')'] line paren → ArgumentAt line paren (some (.emptyCall paren))
  | inlineObject {closing : Nat} : StandsAt ['(', '\x7b'] line paren →
    FirstAt ['\x7d', ')'] line paren closing → paren + 2 ≤ closing →
    ArgumentAt line paren (some (.inlineObject paren closing))
  | multilineObject : StandsAt ['(', '\x7b'] line paren →
    (∀ offset, paren ≤ offset → ¬ StandsAt ['\x7d', ')'] line offset) →
    ArgumentAt line paren (some (.multilineObject paren))

/-- What the argument of the first occurrence of a call is: that at the first parenthesis from there
on. -/
inductive Classified (line call : List Char) : Option CallOffsets → Prop where
  | noCall : (∀ offset, ¬ StandsAt call line offset) → Classified line call none
  | noParen {start : Nat} : FirstAt call line 0 start →
    (∀ offset, start ≤ offset → ¬ StandsAt ['('] line offset) → Classified line call none
  | argument {start paren : Nat} {offsets? : Option CallOffsets} : FirstAt call line 0 start →
    FirstAt ['('] line start paren → ArgumentAt line paren offsets? →
    Classified line call offsets?

theorem standsAt_pair_unique {c d d' : Char} {offset : Nat} (h : StandsAt [c, d] line offset)
    (h' : StandsAt [c, d'] line offset) : d = d' := by
  obtain ⟨front, back, htext, hsize⟩ := h
  obtain ⟨front', back', htext', hsize'⟩ := h'
  rw [htext, List.append_assoc, List.append_assoc] at htext'
  obtain ⟨-, hrest⟩ := cut_unique htext' (hsize.trans hsize'.symm)
  simp only [List.cons_append, List.nil_append, List.cons.injEq] at hrest
  exact hrest.2.1

theorem ArgumentAt.unique (h : ArgumentAt line paren offsets?)
    (h' : ArgumentAt line paren offsets?') : offsets? = offsets?' := by
  have hapart : ¬ (StandsAt ['(', '\x7b'] line paren ∧ StandsAt ['(', ')'] line paren) :=
    fun ⟨hbrace, hparen⟩ => absurd (standsAt_pair_unique hbrace hparen) (by decide)
  cases h with
  | other hbrace hparen =>
    cases h' with
    | other => rfl
    | emptyCall hthere => exact absurd hthere hparen
    | inlineObject hthere => exact absurd hthere hbrace
    | multilineObject hthere => exact absurd hthere hbrace
  | emptyCall hparen =>
    cases h' with
    | other _ hnot => exact absurd hparen hnot
    | emptyCall => rfl
    | inlineObject hbrace => exact absurd ⟨hbrace, hparen⟩ hapart
    | multilineObject hbrace => exact absurd ⟨hbrace, hparen⟩ hapart
  | inlineObject hbrace hclosing =>
    cases h' with
    | other hnot => exact absurd hbrace hnot
    | emptyCall hparen => exact absurd ⟨hbrace, hparen⟩ hapart
    | inlineObject _ hclosing' => rw [hclosing.unique hclosing']
    | multilineObject _ hnot => exact absurd hclosing.stands (hnot _ hclosing.le)
  | multilineObject hbrace hnot =>
    cases h' with
    | other hnot' => exact absurd hbrace hnot'
    | emptyCall hparen => exact absurd ⟨hbrace, hparen⟩ hapart
    | inlineObject _ hclosing => exact absurd hclosing.stands (hnot _ hclosing.le)
    | multilineObject => rfl

theorem Classified.unique (h : Classified line call offsets?)
    (h' : Classified line call offsets?') : offsets? = offsets?' := by
  cases h with
  | noCall hnot =>
    cases h' with
    | noCall => rfl
    | noParen => rfl
    | argument hcall => exact absurd hcall.stands (hnot _)
  | noParen hcall hnot =>
    cases h' with
    | noCall => rfl
    | noParen => rfl
    | argument hcall' hparen =>
      obtain rfl := hcall.unique hcall'
      exact absurd hparen.stands (hnot _ hparen.le)
  | argument hcall hparen hargument =>
    cases h' with
    | noCall hnot => exact absurd hcall.stands (hnot _)
    | noParen hcall' hnot =>
      obtain rfl := hcall.unique hcall'
      exact absurd hparen.stands (hnot _ hparen.le)
    | argument hcall' hparen' hargument' =>
      obtain rfl := hcall.unique hcall'
      obtain rfl := hparen.unique hparen'
      exact hargument.unique hargument'

/-! ### What is found out -/

theorem classify?_of_noCall (hcall : splitFirst? call line = none) :
    CallShape.classify? line call = none := by
  simp only [CallShape.classify?, hcall, Option.bind_eq_bind, Option.bind_none]

theorem classify?_of_noParen (hcall : splitFirst? call line = some (before, after))
    (hparen : splitFirst? ['('] (call ++ after) = none) : CallShape.classify? line call = none := by
  simp only [CallShape.classify?, hcall, hparen, Option.bind_eq_bind, Option.bind_some,
    Option.bind_none]

theorem classify?_of_argument (hcall : splitFirst? call line = some (before, after))
    (hparen : splitFirst? ['('] (call ++ after) = some (inner, argument)) :
    CallShape.classify? line call = CallShape.ofArgument? (before ++ inner) argument := by
  simp only [CallShape.classify?, hcall, hparen, Option.bind_eq_bind, Option.bind_some]

/-- No object is closed within the parenthesis and the brace that open it. -/
theorem splitFirst?_closing (rest : List Char) :
    splitFirst? ['\x7d', ')'] ('(' :: '\x7b' :: rest) =
      (splitFirst? ['\x7d', ')'] rest).map fun (inner, after) => ('(' :: '\x7b' :: inner, after) := by
  simp [splitFirst?, stripPrefix?, Function.comp_def]

theorem byteSize_append_pair {c d : Char} (hc : c.utf8Size = 1) (hd : d.utf8Size = 1) :
    byteSize (before ++ [c, d]) = byteSize before + 2 := by
  rw [byteSize_append]
  simp only [byteSize]
  omega

theorem byteSize_opening (before inner : List Char) :
    byteSize before + byteSize ('(' :: '\x7b' :: inner) = byteSize before + 2 + byteSize inner := by
  have hopen : byteSize (before ++ ['(', '\x7b']) = byteSize before + 2 :=
    byteSize_append_pair (by decide) (by decide)
  rw [← hopen, ← byteSize_append, ← byteSize_append, List.append_assoc]
  rfl

theorem argumentAt_ofArgument? (before argument : List Char) :
    ArgumentAt (before ++ '(' :: argument) (byteSize before)
      ((CallShape.ofArgument? before argument).map CallShape.offsets) := by
  have hpair : ∀ c, StandsAt ['(', c] (before ++ '(' :: argument) (byteSize before) ↔
      [c] <+: argument := fun c => by
    rw [standsAt_byteSize_iff, List.prefix_cons_inj]
  cases argument with
  | nil => exact .other (by rw [hpair]; simp) (by rw [hpair]; simp)
  | cons c rest =>
    rw [CallShape.ofArgument?]
    by_cases hbrace : c = '\x7b'
    · subst hbrace
      have hopen : StandsAt ['(', '\x7b'] (before ++ '(' :: '\x7b' :: rest) (byteSize before) :=
        (hpair _).2 ⟨rest, rfl⟩
      have hsplit := splitFirst?_closing rest
      rw [if_pos (beq_self_eq_true '\x7b')]
      cases hclose : splitFirst? ['\x7d', ')'] rest with
      | none =>
        rw [hclose] at hsplit
        refine .multilineObject hopen fun offset hle => ?_
        exact not_standsAt_append (splitFirst?_eq_none_iff.1 hsplit) hle
      | some parts =>
        obtain ⟨inner, after⟩ := parts
        rw [hclose] at hsplit
        have hfirst := firstAt_append before (firstAt_of_splitFirst? hsplit)
        rw [byteSize_opening] at hfirst
        exact .inlineObject hopen hfirst (by omega)
    · rw [if_neg (by simpa using hbrace)]
      have hnot : ¬ StandsAt ['(', '\x7b'] (before ++ '(' :: c :: rest) (byteSize before) := by
        rw [hpair]
        simpa using Ne.symm hbrace
      by_cases hparen : c = ')'
      · subst hparen
        exact .emptyCall ((hpair _).2 ⟨rest, rfl⟩)
      · rw [if_neg (by simpa using hparen)]
        refine .other hnot ?_
        rw [hpair]
        simpa using Ne.symm hparen

theorem classified_classify? (line call : List Char) :
    Classified line call ((CallShape.classify? line call).map CallShape.offsets) := by
  cases hcall : splitFirst? call line with
  | none =>
    rw [classify?_of_noCall hcall]
    exact .noCall fun offset hthere =>
      splitFirst?_eq_none_iff.1 hcall (exists_standsAt_iff.1 ⟨offset, hthere⟩)
  | some parts =>
    obtain ⟨before, after⟩ := parts
    have hfirst := firstAt_of_splitFirst? hcall
    have hline : line = before ++ (call ++ after) := by
      rw [← List.append_assoc, eq_of_splitFirst? hcall]
    cases hparen : splitFirst? ['('] (call ++ after) with
    | none =>
      rw [classify?_of_noParen hcall hparen]
      refine .noParen hfirst fun offset hle => ?_
      rw [hline]
      exact not_standsAt_append (splitFirst?_eq_none_iff.1 hparen) hle
    | some parts =>
      obtain ⟨inCall, argument⟩ := parts
      rw [classify?_of_argument hcall hparen]
      have hrest : call ++ after = inCall ++ '(' :: argument := by
        rw [eq_of_splitFirst? hparen, List.append_assoc]
        rfl
      have hline' : line = (before ++ inCall) ++ '(' :: argument := by
        rw [hline, hrest, List.append_assoc]
      have hparen' := firstAt_append before (firstAt_of_splitFirst? hparen)
      have hargument := argumentAt_ofArgument? (before ++ inCall) argument
      rw [← hline, ← byteSize_append] at hparen'
      rw [← hline'] at hargument
      exact .argument hfirst hparen' hargument

/-- **What `classify?` finds out** is what the argument of the call is. -/
theorem classified_iff :
    Classified line call offsets? ↔ (CallShape.classify? line call).map CallShape.offsets = offsets? :=
  ⟨fun h => (classified_classify? line call).unique h, fun h => h ▸ classified_classify? line call⟩

/-! ### Searching in slices -/

/-- The argument of which the parenthesis at the offset is the first character. -/
def ofSlice? (paren : Nat) (argument : List Char) : Option CallOffsets :=
  if ['(', '\x7b'].isPrefixOf argument then
    match offsetOf? ['\x7d', ')'] argument with
    | some offset => some (.inlineObject paren (paren + offset))
    | none => some (.multilineObject paren)
  else if ['(', ')'].isPrefixOf argument then some (.emptyCall paren)
  else none

/-- Looks for the argument of the first occurrence of a call in slices of the line. -/
def locate? (line call : List Char) : Option (Option CallOffsets) :=
  match offsetOf? call line with
  | none => some none
  | some start => do
    let rest ← slice? line start (byteSize line)
    match offsetOf? ['('] rest with
    | none => return none
    | some offset =>
      let argument ← slice? line (start + offset) (byteSize line)
      return ofSlice? (start + offset) argument

theorem ofSlice?_eq (before argument : List Char) :
    ofSlice? (byteSize before) ('(' :: argument) =
      (CallShape.ofArgument? before argument).map CallShape.offsets := by
  cases argument with
  | nil => rfl
  | cons c rest =>
    rw [ofSlice?, CallShape.ofArgument?]
    by_cases hbrace : c = '\x7b'
    · subst hbrace
      have hsplit := splitFirst?_closing rest
      rw [if_pos (by simp), if_pos (beq_self_eq_true '\x7b'), offsetOf?, hsplit]
      cases splitFirst? ['\x7d', ')'] rest with
      | none => rfl
      | some parts =>
        obtain ⟨inner, after⟩ := parts
        simp only [Option.map_some, byteSize_opening]
        rfl
    · have hlead : ['(', '\x7b'].isPrefixOf ('(' :: c :: rest) = false := by
        simp [List.isPrefixOf, Ne.symm hbrace]
      rw [hlead, if_neg Bool.false_ne_true, if_neg (show ¬ (c == '\x7b') = true by simpa using hbrace)]
      by_cases hparen : c = ')'
      · subst hparen
        rfl
      · have hlead' : ['(', ')'].isPrefixOf ('(' :: c :: rest) = false := by
          simp [List.isPrefixOf, Ne.symm hparen]
        rw [hlead', if_neg Bool.false_ne_true, if_neg (show ¬ (c == ')') = true by simpa using hparen)]
        rfl

/-- **No slice is out of range** where the argument of a call is looked for. -/
theorem locate?_eq (line call : List Char) :
    locate? line call = some ((CallShape.classify? line call).map CallShape.offsets) := by
  cases hcall : splitFirst? call line with
  | none =>
    rw [classify?_of_noCall hcall]
    simp only [locate?, offsetOf?, hcall, Option.map_none]
  | some parts =>
    obtain ⟨before, after⟩ := parts
    have hline : line = before ++ (call ++ after) := by
      rw [← List.append_assoc, eq_of_splitFirst? hcall]
    have hslice := slice?_from before (call ++ after)
    rw [← hline] at hslice
    cases hparen : splitFirst? ['('] (call ++ after) with
    | none =>
      rw [classify?_of_noParen hcall hparen]
      simp only [locate?, offsetOf?, hcall, hparen, hslice, Option.map_some, Option.map_none,
        Option.bind_eq_bind, Option.bind_some, Option.pure_def]
    | some parts =>
      obtain ⟨inCall, argument⟩ := parts
      have hrest : call ++ after = inCall ++ '(' :: argument := by
        rw [eq_of_splitFirst? hparen, List.append_assoc]
        rfl
      have hslice' := slice?_from (before ++ inCall) ('(' :: argument)
      rw [List.append_assoc, ← hrest, ← hline] at hslice'
      rw [classify?_of_argument hcall hparen, ← ofSlice?_eq]
      simp only [locate?, offsetOf?, hcall, hparen, hslice, Option.map_some, Option.bind_eq_bind,
        Option.bind_some, ← byteSize_append, hslice', Option.pure_def]

/-! ### Putting a key between slices -/

/-- The lines with a key put into the object that is passed on a line, which is written with slices of
the line; none if the object is on the line and names the key. -/
def placeKey? (lines : List String) (index : Nat) (line key : List Char) :
    CallOffsets → Option (Option (List String))
  | .emptyCall paren => do
    let before ← slice? line 0 paren
    let after ← slice? line (paren + 2) (byteSize line)
    return some (lines.set index (String.ofList (before ++ LineEdit.onlyKey key ++ after)))
  | .inlineObject paren closing => do
    let inner ← slice? line (paren + 2) closing
    if hasWord key inner then return none
    else if (trim inner).isEmpty then
      let before ← slice? line 0 paren
      let after ← slice? line (closing + 2) (byteSize line)
      return some (lines.set index (String.ofList (before ++ LineEdit.onlyKey key ++ after)))
    else
      let before ← slice? line 0 (paren + 2)
      let members ← slice? line (paren + 2) (byteSize line)
      return some (lines.set index
        (String.ofList (before ++ ' ' :: key ++ ", ".toList ++ trimStart members)))
  | .multilineObject _ => do
    let indent ← slice? line 0 (byteSize line - byteSize (trimStart line))
    if lines.length < index + 1 then none
    else return some (lines.insertIdx (index + 1)
      (String.ofList (indent ++ "  ".toList ++ key ++ ",".toList)))

/-- Puts a key into the object that is passed to the first call, with slices of its line. -/
def applyKey? (call key : String) (lines : List String) : Option (Edited (List String)) :=
  if containsAny lines [key ++ ",", key ++ ":"] then some .alreadyApplied
  else
    match lines.findIdx? (Matcher.substring call).accepts with
    | none => some (.skipped (.anchorNotFound call))
    | some index => do
      let line ← lines[index]?
      match ← locate? line.toList call.toList with
      | none => return .skipped (.shapeUnrecognized (String.ofList (trim line.toList)))
      | some offsets =>
        match ← placeKey? lines index line.toList key.toList offsets with
        | none => return .alreadyApplied
        | some lines => return .rewritten lines

variable {lines : List String} {index : Nat} {key : List Char}

theorem slice?_indent (line : List Char) :
    slice? line 0 (byteSize line - byteSize (trimStart line)) = some (indent line) := by
  have hslice := slice?_upTo (indent line) (trimStart line)
  have hsize : byteSize line = byteSize (indent line) + byteSize (trimStart line) := by
    rw [← byteSize_append, indent_append_trimStart]
  rwa [indent_append_trimStart, Nat.eq_sub_of_add_eq hsize.symm] at hslice

/-- What is trimmed at its start and is not blank ends as before. -/
theorem trimStart_members (h : (trim inner).isEmpty = false) (after : List Char) :
    trimStart (inner ++ ['\x7d', ')'] ++ after) =
      trimStart inner ++ "\x7d)".toList ++ after := by
  have hmembers : ¬ ∀ c ∈ inner, isBlank c = true := by
    rw [← trim_eq_nil_iff]
    simpa using h
  rw [List.append_assoc, trimStart_append hmembers, List.append_assoc]
  rfl

/-- **No slice is out of range** where the key is put in. -/
theorem placeKey?_eq (hindex : index < lines.length) (shape : CallShape) :
    placeKey? lines index shape.line key shape.offsets =
      some (LineEdit.placeKey? lines index key shape) := by
  cases shape with
  | emptyCall before after =>
    have hbefore := slice?_upTo before (['(', ')'] ++ after)
    have hafter := slice?_from (before ++ ['(', ')']) after
    rw [← List.append_assoc] at hbefore
    rw [byteSize_append_pair (by decide) (by decide)] at hafter
    have hoffsets : (CallShape.emptyCall before after).offsets = .emptyCall (byteSize before) := rfl
    simp only [hoffsets, placeKey?, CallShape.line, hbefore, hafter, Option.bind_eq_bind,
      Option.bind_some, LineEdit.placeKey?, Option.pure_def]
  | inlineObject before inner after =>
    have hopen : byteSize (before ++ ['(', '\x7b']) = byteSize before + 2 :=
      byteSize_append_pair (by decide) (by decide)
    have hclosed : byteSize (before ++ ['(', '\x7b'] ++ inner ++ ['\x7d', ')']) =
        byteSize before + 2 + byteSize inner + 2 := by
      rw [byteSize_append_pair (by decide) (by decide), byteSize_append, hopen]
    have hinner := slice?_between (before ++ ['(', '\x7b']) inner (['\x7d', ')'] ++ after)
    have hafter := slice?_from (before ++ ['(', '\x7b'] ++ inner ++ ['\x7d', ')']) after
    have hbefore := slice?_upTo before (['(', '\x7b'] ++ inner ++ ['\x7d', ')'] ++ after)
    have hfront := slice?_upTo (before ++ ['(', '\x7b']) (inner ++ ['\x7d', ')'] ++ after)
    have hmembers := slice?_from (before ++ ['(', '\x7b']) (inner ++ ['\x7d', ')'] ++ after)
    rw [hopen] at hinner hfront hmembers
    rw [hclosed] at hafter
    simp only [← List.append_assoc] at hinner hbefore hfront hmembers
    have hoffsets : (CallShape.inlineObject before inner after).offsets =
        .inlineObject (byteSize before) (byteSize before + 2 + byteSize inner) := rfl
    simp only [hoffsets, placeKey?, CallShape.line, hinner, hafter, hbefore, hfront, hmembers,
      Option.bind_eq_bind, Option.bind_some, LineEdit.placeKey?, Option.pure_def, isEmpty_trim]
    split_ifs with hword hblank
    · rfl
    · rfl
    · rw [Bool.not_eq_true, ← isEmpty_trim] at hblank
      rw [← List.append_assoc, trimStart_members hblank]
      simp
  | multilineObject before after =>
    have hlong : ¬ lines.length < index + 1 := by omega
    have hoffsets : (CallShape.multilineObject before after).offsets =
        .multilineObject (byteSize before) := rfl
    simp only [hoffsets, placeKey?, CallShape.line, slice?_indent, Option.bind_eq_bind,
      Option.bind_some, if_neg hlong, LineEdit.placeKey?, Option.pure_def]
    rfl

/-- **No slice is out of range** in the whole edit. -/
theorem applyKey?_eq (call key : String) (lines : List String) :
    applyKey? call key lines = some (LineEdit.applyKey call key lines) := by
  rw [applyKey?, LineEdit.applyKey]
  split_ifs with hkey
  · rfl
  · cases hfind : lines.findIdx? (Matcher.substring call).accepts with
    | none => rfl
    | some index =>
      have hindex : index < lines.length := (List.findIdx?_eq_some_iff_getElem.1 hfind).1
      have hline : lines[index]? = some (lines.getD index "") := by
        rw [List.getD_eq_getElem _ _ hindex, List.getElem?_eq_getElem hindex]
      simp only [hline, Option.bind_eq_bind, Option.bind_some, locate?_eq]
      cases hshape : CallShape.classify? (lines.getD index "").toList call.toList with
      | none => rfl
      | some shape =>
        have hplace : placeKey? lines index shape.line key.toList shape.offsets =
            some (LineEdit.placeKey? lines index key.toList shape) := placeKey?_eq hindex shape
        rw [CallShape.line_of_classify? hshape] at hplace
        simp only [Option.map_some, hplace, Option.bind_some]
        cases LineEdit.placeKey? lines index key.toList shape <;> rfl

/-- **Offsets are exact, and slices are in range**: what is found out about the argument of a call are
the offsets at which its words stand on the line, and putting a key into it with slices of the line
comes to an end, whatever the lines, the call and the key are. -/
theorem offsets_exact (call key : String) (lines : List String) :
    (∀ (line : List Char) (offsets? : Option CallOffsets), Classified line call.toList offsets? ↔
      (CallShape.classify? line call.toList).map CallShape.offsets = offsets?) ∧
    applyKey? call key lines = some (LineEdit.applyKey call key lines) :=
  ⟨fun _ _ => classified_iff, applyKey?_eq call key lines⟩

/-- Characters of several bytes stand in front of the call, in the object and behind it. -/
example : (CallShape.classify? "/* ü */ new Vuetify(\x7b é \x7d)é".toList "new Vuetify(".toList).map
    CallShape.offsets = some (.inlineObject 20 26) := by
  decide +kernel

end CallOffsets

end ProjectSetup
