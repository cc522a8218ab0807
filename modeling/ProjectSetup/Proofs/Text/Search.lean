import Mathlib.Data.List.Infix
import Mathlib.Tactic.Common
import ProjectSetup.Text.Search

/-!
# Where texts occur

`occursIn` is the infix relation of lists, and `splitFirst?` is characterised by what stands in
front of the occurrence it finds: no occurrence ends within that and the text sought but for its
last character.

* `occursIn_iff`: a text occurs in another if it is an infix of it.
* `splitFirst?_eq_some_iff`: the first occurrence.
-/

namespace ProjectSetup.Text

theorem stripPrefix?_append (head text : List Char) :
    stripPrefix? head (head ++ text) = some text := by
  induction head with
  | nil => rfl
  | cons c head ih => rw [List.cons_append, stripPrefix?, if_pos rfl, ih]

theorem stripPrefix?_eq_none_iff {head text : List Char} :
    stripPrefix? head text = none ↔ ¬ head <+: text := by
  constructor
  · rintro h ⟨rest, rfl⟩
    rw [stripPrefix?_append] at h
    cases h
  · intro h
    cases hstrip : stripPrefix? head text with
    | none => rfl
    | some after => exact absurd ⟨after, (eq_append_of_stripPrefix? hstrip).symm⟩ h

theorem occursIn_iff {needle text : List Char} :
    occursIn needle text = true ↔ needle <:+: text := by
  unfold occursIn
  constructor
  · intro h
    obtain ⟨⟨before, after⟩, hsplit⟩ := Option.isSome_iff_exists.1 h
    exact ⟨before, after, (eq_of_splitFirst? hsplit).symm⟩
  · rintro ⟨before, after, rfl⟩
    induction before with
    | nil =>
      cases needle with
      | nil => cases after <;> simp [splitFirst?, stripPrefix?]
      | cons c needle =>
        have := stripPrefix?_append (c :: needle) after
        simp only [List.nil_append, List.cons_append] at this ⊢
        simp [splitFirst?, this]
    | cons c before ih =>
      simp only [List.cons_append, splitFirst?]
      split
      · rfl
      · rw [Option.isSome_map]
        exact ih

theorem occursIn_eq_false_iff {needle text : List Char} :
    occursIn needle text = false ↔ ¬ needle <:+: text := by
  rw [← occursIn_iff, Bool.not_eq_true]

theorem exists_splitFirst?_iff {needle text : List Char} :
    (∃ before after, splitFirst? needle text = some (before, after)) ↔ needle <:+: text := by
  rw [← occursIn_iff, occursIn, Option.isSome_iff_exists, Prod.exists]

theorem splitFirst?_eq_none_iff {needle text : List Char} :
    splitFirst? needle text = none ↔ ¬ needle <:+: text := by
  rw [← occursIn_eq_false_iff, occursIn, Option.isSome_eq_false_iff, Option.isNone_iff_eq_none]

/-- An occurrence that starts in front of another one ends before its last character. -/
theorem isPrefix_dropLast_of_append {needle front text : List Char} {c : Char}
    (h : needle <+: c :: front ++ needle ++ text) : needle <+: c :: front ++ needle.dropLast := by
  have hlong : c :: front ++ needle.dropLast <+: c :: front ++ needle ++ text := by
    rw [List.append_assoc]
    exact (List.prefix_append_right_inj _).2
      ((List.dropLast_prefix needle).trans (List.prefix_append needle text))
  refine List.prefix_of_prefix_length_le h hlong ?_
  simp only [List.cons_append, List.length_cons, List.length_append, List.length_dropLast]
  omega

/-- **The first occurrence** of a text is told by what stands in front of it. -/
theorem splitFirst?_eq_some_iff {needle text before after : List Char} (hne : needle ≠ []) :
    splitFirst? needle text = some (before, after) ↔
      text = before ++ needle ++ after ∧ ¬ needle <:+: before ++ needle.dropLast := by
  constructor
  · intro h
    refine ⟨eq_of_splitFirst? h, ?_⟩
    induction text generalizing before with
    | nil =>
      rw [splitFirst?, if_neg hne] at h
      cases h
    | cons c text ih =>
      have htext := eq_of_splitFirst? h
      simp only [splitFirst?] at h
      split at h
      · obtain ⟨rfl, rfl⟩ := Prod.mk.inj (Option.some.inj h)
        intro hin
        have hlen := hin.length_le
        have := List.length_pos_iff.2 hne
        simp only [List.nil_append, List.length_dropLast] at hlen
        omega
      · next hstrip =>
        obtain ⟨⟨front, left⟩, hsplit, heq⟩ := Option.map_eq_some_iff.1 h
        obtain ⟨rfl, rfl⟩ := Prod.mk.inj heq
        rw [List.cons_append, List.infix_cons_iff]
        rintro (hpre | hin)
        · rw [stripPrefix?_eq_none_iff, htext] at hstrip
          refine hstrip (hpre.trans ?_)
          rw [List.append_assoc, List.cons_append, List.prefix_cons_inj]
          exact (List.prefix_append_right_inj _).2
            ((List.dropLast_prefix needle).trans (List.prefix_append needle left))
        · exact ih hsplit hin
  · rintro ⟨rfl, hfirst⟩
    induction before with
    | nil =>
      cases needle with
      | nil => exact absurd rfl hne
      | cons c needle =>
        have := stripPrefix?_append (c :: needle) after
        simp only [List.nil_append, List.cons_append] at this ⊢
        simp [splitFirst?, this]
    | cons c before ih =>
      have hstrip : stripPrefix? needle (c :: before ++ needle ++ after) = none := by
        rw [stripPrefix?_eq_none_iff]
        intro h
        exact hfirst (isPrefix_dropLast_of_append h).isInfix
      have hrest : ¬ needle <:+: before ++ needle.dropLast := by
        intro h
        refine hfirst ?_
        rw [List.cons_append, List.infix_cons_iff]
        exact .inr h
      simp only [List.cons_append] at hstrip ⊢
      simp only [splitFirst?, hstrip, ih hrest]
      rfl

/-- What follows the first occurrence of a text has no part in finding it. -/
theorem splitFirst?_append {needle text before after : List Char}
    (h : splitFirst? needle text = some (before, after)) (other : List Char) :
    splitFirst? needle (before ++ needle ++ other) = some (before, other) := by
  by_cases hne : needle = []
  · subst hne
    have hbefore : before = [] := by
      cases text with
      | nil => exact (Prod.mk.inj (Option.some.inj h)).1.symm
      | cons c text => exact (Prod.mk.inj (Option.some.inj h)).1.symm
    subst hbefore
    cases other <;> rfl
  · exact (splitFirst?_eq_some_iff hne).2 ⟨rfl, ((splitFirst?_eq_some_iff hne).1 h).2⟩

/-- No occurrence starts in front of the first one. -/
theorem length_le_of_splitFirst? {needle text before after other rest : List Char}
    (h : splitFirst? needle text = some (before, after)) (hother : text = other ++ needle ++ rest) :
    before.length ≤ other.length := by
  induction text generalizing before after other with
  | nil =>
    rw [splitFirst?] at h
    split_ifs at h
    obtain ⟨rfl, -⟩ := Prod.mk.inj (Option.some.inj h)
    exact Nat.zero_le _
  | cons c text ih =>
    rw [splitFirst?] at h
    split at h
    · obtain ⟨rfl, -⟩ := Prod.mk.inj (Option.some.inj h)
      exact Nat.zero_le _
    · next hstrip =>
      obtain ⟨⟨front, left⟩, hsplit, heq⟩ := Option.map_eq_some_iff.1 h
      obtain ⟨rfl, -⟩ := Prod.mk.inj heq
      cases other with
      | nil => exact absurd ⟨rest, hother.symm⟩ (stripPrefix?_eq_none_iff.1 hstrip)
      | cons d other => exact Nat.succ_le_succ (ih hsplit (List.cons.inj hother).2)

/-- The first occurrence ends within every front that has one. -/
theorem isPrefix_of_splitFirst? {needle text before after front back : List Char}
    (h : splitFirst? needle text = some (before, after)) (hfront : needle <:+: front)
    (htext : text = front ++ back) : before ++ needle <+: front := by
  have hstart : before ++ needle <+: text := ⟨after, (eq_of_splitFirst? h).symm⟩
  obtain ⟨other, rest, rfl⟩ := hfront
  rw [List.append_assoc (other ++ needle)] at htext
  have hle := length_le_of_splitFirst? h htext
  refine List.prefix_of_prefix_length_le hstart ⟨back, by rw [htext, List.append_assoc _ rest]⟩ ?_
  simp only [List.length_append]
  omega

/-! ### Occurrences across a cut -/

theorem infix_append_cases {needle front back : List Char} (h : needle <:+: front ++ back) :
    (∃ tail, tail <:+ front ∧ tail ≠ [] ∧ needle <+: tail ++ back) ∨ needle <:+: back := by
  induction front with
  | nil => exact .inr h
  | cons c front ih =>
    rw [List.cons_append, List.infix_cons_iff] at h
    rcases h with h | h
    · exact .inl ⟨c :: front, List.suffix_refl _, by simp, h⟩
    · rcases ih h with ⟨tail, hsuffix, hne, hpre⟩ | h
      · exact .inl ⟨tail, hsuffix.trans (List.suffix_cons c front), hne, hpre⟩
      · exact .inr h

/-- A text that does not hold another one occurs in front of the last character of that, or behind
its first. -/
theorem infix_around {needle front word back : List Char} (hword : ¬ word <:+: needle)
    (h : needle <:+: front ++ word ++ back) :
    needle <:+: front ++ word.dropLast ∨ needle <:+: word.tail ++ back := by
  have hcut : ∀ tail, tail <:+ front → needle <+: tail ++ word ++ back →
      needle <:+: front ++ word.dropLast := by
    intro tail htail hneedle
    rcases List.prefix_or_prefix_of_prefix hneedle (List.prefix_append (tail ++ word) back) with
      hp | hp
    · have hne : needle ≠ tail ++ word := by
        rintro rfl
        exact hword List.infix_append_right
      have hneword : word ≠ [] := by
        rintro rfl
        exact hword List.nil_infix
      have hshort : needle <+: tail ++ word.dropLast := by
        rw [← List.dropLast_append_of_ne_nil hneword]
        obtain ⟨more, hmore⟩ := hp
        rcases List.eq_nil_or_concat more with rfl | ⟨more, c, rfl⟩
        · rw [List.append_nil] at hmore
          exact absurd hmore hne
        · rw [← hmore, List.concat_eq_append, ← List.append_assoc, List.dropLast_concat]
          exact List.prefix_append _ _
      obtain ⟨head, rfl⟩ := htail
      rw [List.append_assoc]
      exact List.infix_append_of_infix_right hshort.isInfix
    · exact absurd (List.infix_append_right.trans hp.isInfix) hword
  rw [List.append_assoc] at h
  rcases infix_append_cases h with ⟨tail, htail, -, hneedle⟩ | h
  · rw [← List.append_assoc] at hneedle
    exact .inl (hcut tail htail hneedle)
  · cases word with
    | nil => exact absurd List.nil_infix hword
    | cons c word =>
      rw [List.cons_append, List.infix_cons_iff] at h
      rcases h with h | h
      · exact .inl (hcut [] (List.nil_suffix) h)
      · exact .inr h

/-- An occurrence that cannot start in the front stands in the back. -/
theorem infix_of_append {needle front back : List Char}
    (hfront : ∀ tail, tail <:+ front → tail ≠ [] → ¬ tail <+: needle ∧ ¬ needle <+: tail)
    (h : needle <:+: front ++ back) : needle <:+: back := by
  rcases infix_append_cases h with ⟨tail, htail, hne, hneedle⟩ | h
  · obtain ⟨hnot, hnot'⟩ := hfront tail htail hne
    rcases List.prefix_or_prefix_of_prefix hneedle (List.prefix_append tail back) with hp | hp
    · exact absurd hp hnot'
    · exact absurd hp hnot
  · exact h

/-- An occurrence cannot reach from the front into the back, where none of its ends is what the back
starts with. -/
theorem not_infix_append {needle front back : List Char} (hfront : ¬ needle <:+: front)
    (hback : ¬ needle <:+: back)
    (hclear : ∀ tail, tail <:+ needle → tail ≠ [] → ¬ tail <+: back) :
    ¬ needle <:+: front ++ back := by
  intro h
  rcases infix_append_cases h with ⟨tail, htail, -, hneedle⟩ | h
  · rcases List.prefix_or_prefix_of_prefix hneedle (List.prefix_append tail back) with
      hp | ⟨rest, rfl⟩
    · exact hfront (hp.isInfix.trans htail.isInfix)
    · rw [List.prefix_append_right_inj] at hneedle
      by_cases hne : rest = []
      · subst hne
        rw [List.append_nil] at hfront
        exact hfront htail.isInfix
      · exact hclear rest (List.suffix_append tail rest) hne hneedle
  · exact hback h

theorem infix_of_infix_append_left {α : Type} {a : α} {r l m : List α} (h : a :: r <:+: l ++ m)
    (ha : a ∉ l) : a :: r <:+: m := by
  rcases List.infix_append_iff_ne_nil.1 h with h | h | ⟨r₁, r₂, hne, -, heq, hsuffix, -⟩
  · exact absurd (h.mem (by simp)) ha
  · exact h
  · obtain ⟨b, r₁, rfl⟩ := List.exists_cons_of_ne_nil hne
    obtain ⟨rfl, -⟩ := List.cons.inj heq
    exact absurd (hsuffix.mem (by simp)) ha

theorem infix_of_infix_append_right {α : Type} {a : α} {r l m : List α} (h : r ++ [a] <:+: m ++ l)
    (ha : a ∉ l) : r ++ [a] <:+: m := by
  rw [← List.reverse_infix] at h ⊢
  rw [List.reverse_append, List.reverse_append, List.reverse_singleton, List.singleton_append] at h
  simpa using infix_of_infix_append_left h (by simpa using ha)

theorem infix_or_infix_of_notMem {α : Type} {a : α} {r l m : List α} (hr : r ≠ [])
    (h : r <:+: l ++ a :: m) (ha : a ∉ r) : r <:+: l ∨ r <:+: m := by
  have hstart : ∀ {r' : List α}, r' ≠ [] → r' <+: a :: m → a ∈ r' := by
    rintro r' hne ⟨after, heq⟩
    obtain ⟨b, r', rfl⟩ := List.exists_cons_of_ne_nil hne
    obtain ⟨rfl, -⟩ := List.cons.inj heq
    exact List.mem_cons_self
  rcases List.infix_append_iff_ne_nil.1 h with h | h | ⟨r₁, r₂, -, hne, rfl, -, hpre⟩
  · exact .inl h
  · rcases List.infix_cons_iff.1 h with h | h
    · exact absurd (hstart hr h) ha
    · exact .inr h
  · exact absurd (List.mem_append_right _ (hstart hne hpre)) ha

end ProjectSetup.Text
