import ProjectSetup.Proofs.ObjectKey

/-!
# Where an edit lands

An edit that rewrites the lines of a file puts one line in, or puts another line in the place of
one; all others stay as they are and where they are.  The place is told by the anchor: the line
nearest to the start of the file that its matcher accepts, or the one nearest to the end.  For a key
the anchor is the first line with the call, and what is changed on it stands at the first
parenthesis from the call on.

* `exists_of_find?`: the lines around an anchor.
* `parenCut_of_classify?`: the line around the parenthesis of a call.
* `lands_of_rewritten`: what an edit makes of the lines, and where.
-/

namespace ProjectSetup

open Text

/-! ### The lines around an anchor -/

/-- The lines `above ++ line :: below` have the anchor line between `above` and `below`. -/
structure Anchor.At (anchor : Anchor) (above : List String) (line : String)
    (below : List String) : Prop where
  accepts : anchor.matcher.accepts line = true
  first : anchor.direction = .forward → ∀ l ∈ above, anchor.matcher.accepts l = false
  last : anchor.direction = .backward → ∀ l ∈ below, anchor.matcher.accepts l = false

theorem Anchor.at_forward_iff {matcher : Matcher} {above below : List String} {line : String} :
    (Anchor.mk matcher .forward).At above line below ↔
      matcher.accepts line = true ∧ ∀ l ∈ above, matcher.accepts l = false := by
  constructor
  · exact fun h => ⟨h.accepts, h.first rfl⟩
  · rintro ⟨haccepts, hfirst⟩
    refine ⟨haccepts, fun _ => hfirst, fun hdirection => ?_⟩
    cases hdirection

theorem exists_of_lastIdx? {α : Type} {test : α → Bool} {list : List α} {index : Nat}
    (h : lastIdx? test list = some index) :
    ∃ front a back, list = front ++ a :: back ∧ index = front.length ∧ test a = true ∧
      ∀ b ∈ back, test b = false := by
  induction list generalizing index with
  | nil => cases h
  | cons a rest ih =>
    rw [lastIdx?] at h
    cases hrest : lastIdx? test rest with
    | some i =>
      rw [hrest] at h
      obtain rfl := Option.some.inj h
      obtain ⟨front, b, back, rfl, rfl, hb, hback⟩ := ih hrest
      exact ⟨a :: front, b, back, rfl, rfl, hb, hback⟩
    | none =>
      rw [hrest] at h
      dsimp only at h
      split_ifs at h with ha
      obtain rfl := Option.some.inj h
      exact ⟨[], a, rest, rfl, rfl, ha, lastIdx?_eq_none_iff.1 hrest⟩

theorem lastIdx?_there {α : Type} {test : α → Bool} {front back : List α} {a : α}
    (ha : test a = true) (hback : ∀ b ∈ back, test b = false) :
    lastIdx? test (front ++ a :: back) = some front.length := by
  induction front with
  | nil => rw [List.nil_append, lastIdx?, lastIdx?_eq_none_iff.2 hback, if_pos ha]; rfl
  | cons first front ih => rw [List.cons_append, lastIdx?, ih]; rfl

/-- **The lines around an anchor** that is found. -/
theorem exists_of_find? {anchor : Anchor} {lines : List String} {index : Nat}
    (h : anchor.find? lines = some index) :
    ∃ above line below, lines = above ++ line :: below ∧ index = above.length ∧
      anchor.At above line below := by
  unfold Anchor.find? at h
  split at h
  · next hdirection =>
    rcases findIdx?_cases (p := anchor.matcher.accepts) lines with
      ⟨hidx, -⟩ | ⟨above, line, below, rfl, hline, habove, hidx, -⟩
    · rw [hidx] at h
      cases h
    · rw [hidx] at h
      obtain rfl := Option.some.inj h
      refine ⟨above, line, below, rfl, rfl, hline, fun _ => habove, fun hback => ?_⟩
      rw [hdirection] at hback
      cases hback
  · next hdirection =>
    obtain ⟨above, line, below, rfl, rfl, hline, hbelow⟩ := exists_of_lastIdx? h
    refine ⟨above, line, below, rfl, rfl, hline, fun hforth => ?_, fun _ => hbelow⟩
    rw [hdirection] at hforth
    cases hforth

/-- An anchor is found among lines that its matcher accepts one of. -/
theorem exists_find?_of_foundIn {anchor : Anchor} {lines : List String}
    (h : anchor.matcher.foundIn lines = true) :
    ∃ above line below, lines = above ++ line :: below ∧ anchor.find? lines = some above.length ∧
      anchor.At above line below := by
  cases hfind : anchor.find? lines with
  | none =>
    obtain ⟨line, hline, haccepts⟩ := Matcher.foundIn_iff.1 h
    rw [Anchor.find?_eq_none_iff.1 hfind line hline] at haccepts
    cases haccepts
  | some index =>
    obtain ⟨above, line, below, hlines, rfl, hat⟩ := exists_of_find? hfind
    exact ⟨above, line, below, hlines, rfl, hat⟩

/-! ### The line around the parenthesis of a call -/

/-- The line `front ++ '(' :: argument` is cut at the first parenthesis from the first place on
where the call stands. -/
def ParenCut (call front argument : List Char) : Prop :=
  ∃ before inCall, front = before ++ inCall ∧ '(' ∉ inCall ∧ call <+: inCall ++ '(' :: argument ∧
    ∀ other after, front ++ '(' :: argument = other ++ call ++ after →
      before.length ≤ other.length

/-- **The line around the parenthesis of a call** whose argument is classified. -/
theorem parenCut_of_classify? {line call : List Char} {shape : CallShape}
    (h : CallShape.classify? line call = some shape) :
    ∃ front argument, line = front ++ '(' :: argument ∧ ParenCut call front argument ∧
      CallShape.ofArgument? front argument = some shape := by
  obtain ⟨⟨before, after⟩, hcall, h⟩ := Option.bind_eq_some_iff.1 h
  obtain ⟨⟨inCall, argument⟩, hparen, hshape⟩ := Option.bind_eq_some_iff.1 h
  dsimp only at hparen hshape
  obtain ⟨hrest, hfirst⟩ := (splitFirst?_eq_some_iff (by simp)).1 hparen
  rw [List.append_assoc, List.singleton_append] at hrest
  have hline : line = before ++ inCall ++ '(' :: argument := by
    rw [eq_of_splitFirst? hcall, List.append_assoc, hrest, List.append_assoc]
  refine ⟨before ++ inCall, argument, hline, ⟨before, inCall, rfl, ?_, ?_, ?_⟩, hshape⟩
  · simpa [List.singleton_infix_iff] using hfirst
  · rw [← hrest]
    exact List.prefix_append call after
  · intro other rest hother
    exact length_le_of_splitFirst? hcall (hline.trans hother)

theorem ofArgument?_inlineObject {before front argument inner after : List Char}
    (h : CallShape.ofArgument? before argument = some (.inlineObject front inner after)) :
    front = before ∧ argument = '\x7b' :: (inner ++ "\x7d)".toList ++ after) := by
  unfold CallShape.ofArgument? at h
  split at h
  · cases h
  · next c rest =>
    split_ifs at h with hc hparen
    · split at h
      · next hs =>
        obtain ⟨rfl, rfl, rfl⟩ := CallShape.inlineObject.inj (Option.some.inj h)
        exact ⟨rfl, by rw [beq_iff_eq.1 hc, eq_of_splitFirst? hs]; rfl⟩
      · cases h
    · cases h

theorem ofArgument?_multilineObject {before front argument after : List Char}
    (h : CallShape.ofArgument? before argument = some (.multilineObject front after)) :
    front = before ∧ argument = '\x7b' :: after ∧ ¬ "\x7d)".toList <:+: after := by
  unfold CallShape.ofArgument? at h
  split at h
  · cases h
  · next c rest =>
    split_ifs at h with hc hparen
    · split at h
      · cases h
      · next hs =>
        obtain ⟨rfl, rfl⟩ := CallShape.multilineObject.inj (Option.some.inj h)
        refine ⟨rfl, by rw [beq_iff_eq.1 hc], occursIn_eq_false_iff.1 ?_⟩
        exact Option.isSome_eq_false_iff.2 (Option.isNone_iff_eq_none.2 hs)
    · cases h

/-! ### Where an edit lands -/

/-- What stands at the parenthesis of a call, in front of the rest of the line, and what is put
there for a key to be in the object that is passed. -/
inductive PutKey (key rest : List Char) : List Char → List Char → Prop where
  | noArgument : PutKey key rest "()".toList ("(\x7b ".toList ++ key ++ " \x7d)".toList)
  | noMembers {blank : List Char} : (∀ c ∈ blank, isBlank c = true) →
    PutKey key rest ("(\x7b".toList ++ blank ++ "\x7d)".toList)
      ("(\x7b ".toList ++ key ++ " \x7d)".toList)
  | members {blank : List Char} : (∀ c ∈ blank, isBlank c = true) →
    (∀ c ∈ rest.head?, isBlank c = false) → "\x7d)".toList <:+: rest →
    PutKey key rest ("(\x7b".toList ++ blank) ("(\x7b ".toList ++ key ++ ", ".toList)

/-- The lines before and after an edit that rewrites them. -/
inductive Lands : LineEdit → List String → List String → Prop where
  | belowImport {anchor : Anchor} {text line : String} {above below : List String} :
    anchor.At above line below →
    Lands (.insertImport anchor text) (above ++ line :: below) (above ++ line :: text :: below)
  | above {anchor : Anchor} {text line : String} {marker : Matcher} {above below : List String} :
    anchor.At above line below →
    Lands (.insertLine anchor .before text marker) (above ++ line :: below)
      (above ++ text :: line :: below)
  | below {anchor : Anchor} {text line : String} {marker : Matcher} {above below : List String} :
    anchor.At above line below →
    Lands (.insertLine anchor .after text marker) (above ++ line :: below)
      (above ++ line :: text :: below)
  | inPlace {anchor : Anchor} {text line : String} {marker : Matcher} {above below : List String} :
    anchor.At above line below →
    Lands (.insertLine anchor .replace text marker) (above ++ line :: below)
      (above ++ text :: below)
  | top {text : String} {marker : Matcher} {lines : List String} :
    Lands (.prependLine text marker) lines (text :: lines)
  | aboveHead {link line : String} {above below : List String} :
    (Anchor.mk (.pattern LineEdit.closingHead) .backward).At above line below →
    Lands (.insertLink link .beforeClosingHead) (above ++ line :: below)
      (above ++ ("    " ++ link) :: line :: below)
  | belowLink {link line : String} {above below : List String} :
    (Anchor.mk (.pattern LineEdit.linkTag) .backward).At above line below →
    Lands (.insertLink link .afterLastLink) (above ++ line :: below)
      (above ++ line :: (String.ofList (indent line.toList) ++ link) :: below)
  | inCall {call key line line' : String} {above below : List String}
    {front old new rest argument : List Char} :
    (Anchor.mk (.substring call) .forward).At above line below →
    ParenCut call.toList front argument → line.toList = front ++ '(' :: argument →
    line.toList = front ++ old ++ rest → line'.toList = front ++ new ++ rest →
    PutKey key.toList rest old new →
    Lands (.objectKey call key) (above ++ line :: below) (above ++ line' :: below)
  | belowCall {call key line : String} {above below : List String} {front rest : List Char} :
    (Anchor.mk (.substring call) .forward).At above line below →
    ParenCut call.toList front ('\x7b' :: rest) → line.toList = front ++ "(\x7b".toList ++ rest →
    ¬ "\x7d)".toList <:+: rest →
    Lands (.objectKey call key) (above ++ line :: below)
      (above ++ line :: String.ofList (indent line.toList ++ "  ".toList ++ key.toList ++
        ",".toList) :: below)

namespace LineEdit

variable {anchor : Anchor} {lines new : List String} {text line : String} {index : Nat}

theorem exists_of_applyLine {placement : Placement} {marker : Matcher}
    (h : applyLine anchor placement text marker lines = .rewritten new) :
    ∃ above line below, lines = above ++ line :: below ∧ anchor.At above line below ∧
      new = place (above ++ line :: below) above.length text placement := by
  rw [applyLine] at h
  split_ifs at h
  cases hfind : anchor.find? lines with
  | none =>
    rw [hfind] at h
    cases h
  | some index =>
    rw [hfind] at h
    obtain ⟨above, line, below, rfl, rfl, hat⟩ := exists_of_find? hfind
    exact ⟨above, line, below, rfl, hat, (Edited.rewritten.inj h).symm⟩

/-- A link is put at the last line that closes the head, or at the last link. -/
theorem lands_applyLink {link : String} {placement : LinkPlacement}
    (h : applyLink link placement lines = .rewritten new) :
    Lands (.insertLink link placement) lines new := by
  rw [applyLink] at h
  split_ifs at h
  cases hfind : (linkAnchor placement).find? lines with
  | none =>
    rw [hfind] at h
    cases h
  | some index =>
    rw [hfind] at h
    obtain ⟨above, line, below, rfl, rfl, hat⟩ := exists_of_find? hfind
    obtain rfl := Edited.rewritten.inj h
    cases placement with
    | beforeClosingHead =>
      rw [placeLink, insertIdx_above]
      exact .aboveHead hat
    | afterLastLink =>
      have hget : (above ++ line :: below).getD above.length "" = line := by simp
      rw [placeLink, hget, insertIdx_below]
      exact .belowLink hat

/-- The rest of an object whose members are told apart from the blanks in front of them. -/
theorem putKey_members {key inner : List Char} (after : List Char)
    (hblank : ¬ inner.all isBlank = true) :
    PutKey key (trimStart inner ++ "\x7d)".toList ++ after) ("(\x7b".toList ++ indent inner)
      ("(\x7b ".toList ++ key ++ ", ".toList) := by
  refine .members (fun c hc => List.mem_takeWhile_imp hc) (fun c hc => ?_) (List.infix_append _ _ _)
  cases htrim : trimStart inner with
  | nil =>
    rw [trimStart, List.dropWhile_eq_nil_iff] at htrim
    exact absurd (List.all_eq_true.2 htrim) hblank
  | cons d rest =>
    have hd := List.head?_dropWhile_not isBlank inner
    rw [htrim] at hc
    obtain rfl : d = c := by simpa using hc
    rw [trimStart] at htrim
    rw [htrim] at hd
    simpa using hd

/-- By the argument of the call: the key is put in on the line, or on a line below. -/
theorem lands_placeKey? {call key : String} {above below : List String} {shape : CallShape}
    {front argument : List Char} (hat : (Anchor.mk (.substring call) .forward).At above line below)
    (hline : line.toList = front ++ '(' :: argument) (hcut : ParenCut call.toList front argument)
    (hshape : CallShape.ofArgument? front argument = some shape)
    (h : placeKey? (above ++ line :: below) above.length key.toList shape = some new) :
    Lands (.objectKey call key) (above ++ line :: below) new := by
  cases shape with
  | emptyCall before after =>
    obtain ⟨rfl, rfl⟩ := ofArgument?_emptyCall hshape
    rw [placeKey?, set_there] at h
    obtain rfl := Option.some.inj h
    have hput : PutKey key.toList after _ _ := .noArgument
    refine .inCall hat hcut hline ?_ ?_ hput
    · simpa using hline
    · simp [onlyKey]
  | inlineObject before inner after =>
    obtain ⟨rfl, rfl⟩ := ofArgument?_inlineObject hshape
    rw [placeKey?] at h
    split_ifs at h with hword hblank
    · rw [set_there] at h
      obtain rfl := Option.some.inj h
      have hput : PutKey key.toList after _ _ := .noMembers (List.all_eq_true.1 hblank)
      refine .inCall hat hcut hline ?_ ?_ hput
      · simpa using hline
      · simp [onlyKey]
    · dsimp only at h
      rw [set_there] at h
      obtain rfl := Option.some.inj h
      refine .inCall hat hcut hline ?_ ?_ (putKey_members after hblank)
      · rw [hline]
        conv_lhs => rw [← indent_append_trimStart inner]
        simp
      · simp
  | multilineObject before after =>
    obtain ⟨rfl, rfl, hclose⟩ := ofArgument?_multilineObject hshape
    have hwhole : line.toList = before ++ "(\x7b".toList ++ after := by simpa using hline
    rw [placeKey?, insertIdx_below, ← hwhole] at h
    obtain rfl := Option.some.inj h
    exact .belowCall hat hcut hwhole hclose

/-- A key is put in at the parenthesis of the call on the first line that has it. -/
theorem lands_applyKey {call key : String} (h : applyKey call key lines = .rewritten new) :
    Lands (.objectKey call key) lines new := by
  obtain ⟨above, line, below, shape, rfl, habove, haccepts, hshape, hplace⟩ := exists_of_applyKey h
  obtain ⟨front, argument, hline, hcut, hargument⟩ := parenCut_of_classify? hshape
  exact lands_placeKey? (Anchor.at_forward_iff.2 ⟨haccepts, habove⟩) hline hcut hargument hplace

/-- **Where an edit lands**, and what it makes of the lines: one line is put in, or one is put in
the place of another. -/
theorem lands_of_rewritten {edit : LineEdit} (h : edit.apply lines = .rewritten new) :
    Lands edit lines new := by
  cases edit with
  | insertImport anchor text =>
    obtain ⟨above, line, below, rfl, hat, rfl⟩ := exists_of_applyLine h
    rw [place, insertIdx_below]
    exact .belowImport hat
  | insertLine anchor placement text marker =>
    obtain ⟨above, line, below, rfl, hat, rfl⟩ := exists_of_applyLine h
    cases placement with
    | before =>
      rw [place, insertIdx_above]
      exact .above hat
    | after =>
      rw [place, insertIdx_below]
      exact .below hat
    | replace =>
      rw [place, set_there]
      exact .inPlace hat
  | prependLine text marker =>
    rw [apply, applyPrepend] at h
    split_ifs at h
    obtain rfl := Edited.rewritten.inj h
    exact .top
  | insertLink link placement => exact lands_applyLink h
  | objectKey call key => exact lands_applyKey h

/-- A key in front of the members, on the first of two lines with the call. -/
theorem lands_of_rewritten_members :
    (objectKey "new Vue(" "vuetify").apply
        ["import Vue from 'vue'", "new Vue(\x7b  router \x7d)", "new Vue()"] =
      .rewritten ["import Vue from 'vue'", "new Vue(\x7b vuetify, router \x7d)", "new Vue()"] ∧
    Lands (objectKey "new Vue(" "vuetify")
      ["import Vue from 'vue'", "new Vue(\x7b  router \x7d)", "new Vue()"]
      ["import Vue from 'vue'", "new Vue(\x7b vuetify, router \x7d)", "new Vue()"] := by
  have happly : (objectKey "new Vue(" "vuetify").apply
      ["import Vue from 'vue'", "new Vue(\x7b  router \x7d)", "new Vue()"] =
        .rewritten
          ["import Vue from 'vue'", "new Vue(\x7b vuetify, router \x7d)", "new Vue()"] := by
    decide +kernel
  exact ⟨happly, lands_of_rewritten happly⟩

end LineEdit

end ProjectSetup
