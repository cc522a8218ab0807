import Mathlib.Data.List.TakeWhile
import ProjectSetup.Text.Blank

/-!
# Blank characters at the ends of a text

Trimming takes away blank characters and nothing else, and it leaves nothing exactly of a text that
is blank.

* `exists_trim`, `trim_eq_nil_iff`: what is taken away, and when nothing is left.
-/

namespace ProjectSetup.Text

theorem exists_dropWhile_reverse {α : Type} (p : α → Bool) (text : List α) :
    ∃ back, (∀ a ∈ back, p a = true) ∧ text = (text.reverse.dropWhile p).reverse ++ back := by
  refine ⟨(text.reverse.takeWhile p).reverse, fun a ha => ?_, ?_⟩
  · exact List.mem_takeWhile_imp (List.mem_reverse.1 ha)
  · rw [← List.reverse_append, List.takeWhile_append_dropWhile, List.reverse_reverse]

/-- A text is blank around the trimmed one. -/
theorem exists_trim (text : List Char) :
    ∃ lead tail, (∀ c ∈ lead, isBlank c = true) ∧ (∀ c ∈ tail, isBlank c = true) ∧
      text = lead ++ trim text ++ tail := by
  obtain ⟨tail, htail, heq⟩ := exists_dropWhile_reverse isBlank (trimStart text)
  refine ⟨indent text, tail, fun c hc => List.mem_takeWhile_imp hc, htail, ?_⟩
  rw [List.append_assoc, trim, trimEnd, ← heq, indent_append_trimStart]

theorem trim_eq_nil_iff {text : List Char} : trim text = [] ↔ ∀ c ∈ text, isBlank c = true := by
  constructor
  · intro h
    obtain ⟨lead, tail, hlead, htail, htext⟩ := exists_trim text
    rw [htext, h, List.append_nil]
    exact List.forall_mem_append.2 ⟨hlead, htail⟩
  · intro h
    have hstart : trimStart text = [] := List.dropWhile_eq_nil_iff.2 h
    rw [trim, hstart]
    rfl

theorem isEmpty_trim (text : List Char) : (trim text).isEmpty = text.all isBlank := by
  rw [Bool.eq_iff_iff, List.isEmpty_iff, trim_eq_nil_iff, List.all_eq_true]

theorem trimEnd_append_blanks {front blanks : List Char} (h : ∀ c ∈ blanks, isBlank c = true) :
    trimEnd (front ++ blanks) = trimEnd front := by
  have hdrop : (blanks.reverse ++ front.reverse).dropWhile isBlank =
      front.reverse.dropWhile isBlank :=
    List.dropWhile_append_of_pos fun c hc => h c (List.mem_reverse.1 hc)
  rw [trimEnd, trimEnd, List.reverse_append, hdrop]

/-- What is not blank keeps the text behind it from being trimmed. -/
theorem trimStart_append {front : List Char} (h : ¬ ∀ c ∈ front, isBlank c = true)
    (back : List Char) : trimStart (front ++ back) = trimStart front ++ back := by
  have hne : front.dropWhile isBlank ≠ [] := fun hnil => h (List.dropWhile_eq_nil_iff.1 hnil)
  rw [trimStart, trimStart, List.dropWhile_append, if_neg (by simpa using hne)]

end ProjectSetup.Text
