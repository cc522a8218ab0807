import ProjectSetup.Proofs.ConfigModule.Cutting
import ProjectSetup.Proofs.Landing
import ProjectSetup.Proofs.Text.Blank

/-!
# The object that a call is given

The text of the object starts behind its brace, on the first line with the call, and goes on over the
lines below.  A key stands in it as a property of its own where the braces in front of it balance, a
comma or nothing stands in front of it, and a comma or a brace behind it.

* `hasOwn_iff`: whether an object has a key can be computed.
* `ready_append_blanks`: blanks do not matter in front of a property.
* `exists_of_openObject?`, `openObject?_there`: where the object starts.
-/

namespace ProjectSetup

open Text

/-! ### Texts and braces -/

/-- What stands behind the brace of the object that is passed on the first line with the call: the
rest of that line and the lines below it. -/
def openObject? (call : List Char) : List String → Option (List Char × List String)
  | [] => none
  | line :: lines =>
    match splitFirst? call line.toList with
    | none => openObject? call lines
    | some (_, '\x7b' :: rest) => some (rest, lines)
    | some _ => none

/-- The text that the rest of a line and the lines below it make up. -/
def textFrom (rest : List Char) (below : List String) : List Char :=
  rest ++ below.flatMap fun line => '\n' :: line.toList

/-- As many braces are closed as are opened, and none before it is opened. -/
structure Balanced (text : List Char) : Prop where
  opened : ∀ head, head <+: text → head.count '\x7d' ≤ head.count '\x7b'
  closed : text.count '\x7d' = text.count '\x7b'

/-- A property of the object can stand behind the text. -/
structure Ready (front : List Char) : Prop where
  balanced : Balanced front
  separated : trimEnd front = [] ∨ (trimEnd front).getLast? = some ','

/-- A key is a property without a value in front of the text. -/
def EndsProperty (back : List Char) : Prop :=
  (trimStart back).head? = some ',' ∨ (trimStart back).head? = some '\x7d'

/-- A key between the texts is a property of its own. -/
structure OwnKey (front back : List Char) : Prop where
  ready : Ready front
  ends : EndsProperty back

/-- The object with the text has the key as a property of its own. -/
def HasOwn (key text : List Char) : Prop :=
  ∃ front back, text = front ++ key ++ back ∧ OwnKey front back

instance (text : List Char) : Decidable (Balanced text) :=
  decidable_of_iff
    ((∀ head ∈ text.inits, head.count '\x7d' ≤ head.count '\x7b') ∧
      text.count '\x7d' = text.count '\x7b')
    ⟨fun h => ⟨fun head hhead => h.1 head ((List.mem_inits _ _).2 hhead), h.2⟩,
      fun h => ⟨fun head hhead => h.opened head ((List.mem_inits _ _).1 hhead), h.closed⟩⟩

instance (front : List Char) : Decidable (Ready front) :=
  decidable_of_iff
    (Balanced front ∧ (trimEnd front = [] ∨ (trimEnd front).getLast? = some ','))
    ⟨fun h => ⟨h.1, h.2⟩, fun h => ⟨h.balanced, h.separated⟩⟩

instance (back : List Char) : Decidable (EndsProperty back) := by
  unfold EndsProperty
  infer_instance

instance (front back : List Char) : Decidable (OwnKey front back) :=
  decidable_of_iff (Ready front ∧ EndsProperty back)
    ⟨fun h => ⟨h.1, h.2⟩, fun h => ⟨h.ready, h.ends⟩⟩

/-- The object has the key if it stands behind one of the texts that the object starts with. -/
theorem hasOwn_iff {key text : List Char} :
    HasOwn key text ↔ ∃ front ∈ text.inits, key <+: text.drop front.length ∧
      OwnKey front (text.drop (front.length + key.length)) := by
  constructor
  · rintro ⟨front, back, rfl, hown⟩
    refine ⟨front, (List.mem_inits _ _).2 ⟨key ++ back, by simp⟩, ?_, ?_⟩
    · rw [List.append_assoc, List.drop_left]
      exact List.prefix_append _ _
    · rwa [← List.length_append, List.drop_left]
  · rintro ⟨front, hfront, ⟨back, hback⟩, hown⟩
    obtain ⟨rest, rfl⟩ := (List.mem_inits _ _).1 hfront
    rw [List.drop_left] at hback
    subst hback
    rw [← List.append_assoc, ← List.length_append, List.drop_left] at hown
    exact ⟨front, back, (List.append_assoc _ _ _).symm, hown⟩

instance (key text : List Char) : Decidable (HasOwn key text) :=
  decidable_of_iff _ hasOwn_iff.symm

/-! ### Blanks -/

variable {front back key rest blanks : List Char}

theorem balanced_append_iff (h : ∀ c ∈ blanks, isBlank c = true) :
    Balanced (front ++ blanks) ↔ Balanced front := by
  have hcount : ∀ part, part <+: blanks → ∀ brace, isBlank brace = false → part.count brace = 0 :=
    fun part hpart brace hbrace => List.count_eq_zero.2 fun hmem => by
      rw [h brace (hpart.mem hmem)] at hbrace
      cases hbrace
  have hopen : isBlank '\x7b' = false := by decide
  have hclose : isBlank '\x7d' = false := by decide
  constructor
  · rintro ⟨hopened, hclosed⟩
    refine ⟨fun head hhead => hopened head (hhead.trans (List.prefix_append _ _)), ?_⟩
    rwa [List.count_append, List.count_append, hcount _ (List.prefix_refl _) _ hopen,
      hcount _ (List.prefix_refl _) _ hclose] at hclosed
  · rintro ⟨hopened, hclosed⟩
    refine ⟨fun head hhead => ?_, ?_⟩
    · rcases List.prefix_or_prefix_of_prefix hhead (List.prefix_append front blanks) with
        hp | ⟨part, rfl⟩
      · exact hopened head hp
      · rw [List.prefix_append_right_inj] at hhead
        rw [List.count_append, List.count_append, hcount _ hhead _ hopen, hcount _ hhead _ hclose]
        exact hclosed.le
    · rw [List.count_append, List.count_append, hcount _ (List.prefix_refl _) _ hopen,
        hcount _ (List.prefix_refl _) _ hclose, hclosed]

/-- **Blanks do not matter** in front of a property. -/
theorem ready_append_blanks (h : ∀ c ∈ blanks, isBlank c = true) :
    Ready (front ++ blanks) ↔ Ready front := by
  have htrim : trimEnd (front ++ blanks) = trimEnd front := trimEnd_append_blanks h
  constructor
  · rintro ⟨hbalanced, hseparated⟩
    rw [htrim] at hseparated
    exact ⟨(balanced_append_iff h).1 hbalanced, hseparated⟩
  · rintro ⟨hbalanced, hseparated⟩
    refine ⟨(balanced_append_iff h).2 hbalanced, ?_⟩
    rwa [htrim]

/-- In front of a property stands a blank or a comma, or nothing. -/
theorem Ready.getLast? (h : Ready front) {c : Char} (hc : c ∈ front.getLast?) :
    isBlank c = true ∨ c = ',' := by
  obtain ⟨init, rfl⟩ := List.getLast?_eq_some_iff.1 hc
  by_cases hblank : isBlank c = true
  · exact .inl hblank
  · have htrim : trimEnd (init ++ [c]) = init ++ [c] := by
      rw [trimEnd, List.reverse_append, List.reverse_singleton, List.singleton_append,
        List.dropWhile_cons_of_neg hblank, ← List.singleton_append, ← List.reverse_singleton,
        ← List.reverse_append, List.reverse_reverse, List.reverse_singleton]
    have hseparated := h.separated
    rw [htrim] at hseparated
    exact .inr (by simpa using hseparated)

/-- Behind a property without a value stands a blank, a comma or a brace. -/
theorem EndsProperty.head? (h : EndsProperty back) {c : Char} (hc : c ∈ back.head?) :
    isBlank c = true ∨ c = ',' ∨ c = '\x7d' := by
  cases back with
  | nil => cases hc
  | cons d back =>
    obtain rfl : d = c := by simpa using hc
    by_cases hblank : isBlank d = true
    · exact .inl hblank
    · rw [EndsProperty, trimStart, List.dropWhile_cons_of_neg hblank] at h
      exact .inr (by simpa using h)

theorem endsProperty_mark {c : Char} (h : c = ',' ∨ c = '\x7d') : EndsProperty (c :: back) := by
  have hblank : ¬ isBlank c = true := by rcases h with rfl | rfl <;> decide
  rw [EndsProperty, trimStart, List.dropWhile_cons_of_neg hblank]
  simpa using h

theorem endsProperty_blank {c : Char} (hc : isBlank c = true) (h : EndsProperty back) :
    EndsProperty (c :: back) := by
  rw [EndsProperty, trimStart, List.dropWhile_cons_of_pos hc]
  exact h

/-! ### Where the object starts -/

variable {call : List Char} {lines above below : List String} {line : String}

/-- **Where the object starts**: on the first line with the call. -/
theorem exists_of_openObject? (h : openObject? call lines = some (rest, below)) :
    ∃ above line before, lines = above ++ line :: below ∧
      (∀ l ∈ above, occursIn call l.toList = false) ∧
      splitFirst? call line.toList = some (before, '\x7b' :: rest) := by
  induction lines with
  | nil => cases h
  | cons line lines ih =>
    rw [openObject?] at h
    split at h
    · next hnone =>
      obtain ⟨above, first, before, rfl, habove, hsplit⟩ := ih h
      have hline : occursIn call line.toList = false := by rw [occursIn, hnone]; rfl
      exact ⟨line :: above, first, before, rfl, List.forall_mem_cons.2 ⟨hline, habove⟩, hsplit⟩
    · next before rest' hsplit =>
      obtain ⟨rfl, rfl⟩ := Prod.mk.inj (Option.some.inj h)
      exact ⟨[], line, before, rfl, by simp, hsplit⟩
    · cases h

/-- On the first line with the call the object starts if its brace stands there. -/
theorem openObject?_there {before : List Char} {c : Char}
    (habove : ∀ l ∈ above, occursIn call l.toList = false)
    (hsplit : splitFirst? call line.toList = some (before, c :: rest)) :
    openObject? call (above ++ line :: below) = if c = '\x7b' then some (rest, below) else none := by
  induction above with
  | nil =>
    rw [List.nil_append, openObject?, hsplit]
    split
    · next heq => cases heq
    · next heq =>
      obtain ⟨rfl, rfl⟩ := List.cons.inj (Prod.mk.inj (Option.some.inj heq)).2
      rw [if_pos rfl]
    · next hother heq =>
      obtain rfl := Option.some.inj heq
      rw [if_neg fun hc => hother before rest (by rw [hc])]
  | cons first above ih =>
    obtain ⟨hfirst, habove⟩ := List.forall_mem_cons.1 habove
    have hnone : splitFirst? call first.toList = none := by
      rwa [occursIn, Option.isSome_eq_false_iff, Option.isNone_iff_eq_none] at hfirst
    rw [List.cons_append, openObject?, hnone]
    exact ih habove

end ProjectSetup
