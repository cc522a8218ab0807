import ProjectSetup.Proofs.Text.Search
import ProjectSetup.Text.Search

/-!
# Lines that are written and read again

Lines without a line feed are read back after they were joined, except that each of them loses a
carriage return it ends with (`reload`).  A text that does not end with a carriage return is found
in the lines that were read again exactly if it was found before.

* `splitLines_joinLines`: what becomes of lines that are written and read again.
* `reads_back_iff`: the lines that are read as they were written.
-/

namespace ProjectSetup.Text

/-- A line after it was written and read again. -/
def reload (line : String) : String :=
  String.ofList (dropReturn line.toList)

theorem dropReturn_cases (line : List Char) :
    dropReturn line = line ∨ line = dropReturn line ++ ['\r'] := by
  unfold dropReturn
  split_ifs with h
  · right
    have hne : line ≠ [] := by
      rintro rfl
      cases h
    rw [List.getLast?_eq_some_getLast hne] at h
    conv_lhs => rw [← List.dropLast_append_getLast hne]
    rw [Option.some.inj h]
  · exact .inl rfl

theorem toList_reload (line : String) : (reload line).toList = dropReturn line.toList :=
  String.toList_ofList

theorem reload_eq_self_iff {line : String} : reload line = line ↔ line.toList.getLast? ≠ some '\r' := by
  rw [← String.toList_inj, toList_reload]
  constructor
  · intro h hlast
    have hne : line.toList ≠ [] := fun hnil => by simp [hnil] at hlast
    have hlength : line.toList.length - 1 = line.toList.length := by
      rw [← List.length_dropLast, ← congrArg List.length h, dropReturn, if_pos hlast]
    have hpos := List.length_pos_iff.2 hne
    omega
  · intro h
    rw [dropReturn, if_neg h]

theorem dropReturn_isPrefix (line : List Char) : dropReturn line <+: line := by
  rcases dropReturn_cases line with h | h
  · rw [h]
  · exact ⟨['\r'], h.symm⟩

theorem dropReturn_append {front : List Char} (h : front.getLast? ≠ some '\r') (back : List Char) :
    dropReturn (front ++ back) = front ++ dropReturn back := by
  unfold dropReturn
  cases back with
  | nil => rw [List.append_nil, if_neg h, if_neg (by simp), List.append_nil]
  | cons c back =>
    rw [List.getLast?_append_of_ne_nil _ (by simp), List.dropLast_append_of_ne_nil (by simp)]
    split_ifs <;> rfl

/-- A text that does not end with a carriage return is found in a line with or without the one that
the line ends with. -/
theorem occursIn_dropReturn {needle line : List Char} (h : needle.getLast? ≠ some '\r') :
    occursIn needle (dropReturn line) = occursIn needle line := by
  rw [Bool.eq_iff_iff, occursIn_iff, occursIn_iff]
  constructor
  · intro hin
    exact hin.trans (dropReturn_isPrefix line).isInfix
  · rintro ⟨before, after, hline⟩
    rcases dropReturn_cases line with hdrop | hdrop
    · rw [hdrop]
      exact ⟨before, after, hline⟩
    · rcases List.eq_nil_or_concat after with rfl | ⟨front, c, rfl⟩
      · -- the needle would end with the carriage return, or be empty
        rw [hdrop, List.append_nil] at hline
        rcases List.eq_nil_or_concat needle with rfl | ⟨needle, c, rfl⟩
        · exact (List.nil_prefix).isInfix
        · rw [List.concat_eq_append, ← List.append_assoc] at hline
          have hc := (List.append_inj' hline rfl).2
          rw [List.concat_eq_append, List.getLast?_append] at h
          exact absurd (by rw [List.singleton_inj.1 hc]; rfl) h
      · rw [hdrop, List.concat_eq_append, ← List.append_assoc] at hline
        exact ⟨before, front, (List.append_inj' hline rfl).1⟩

/-! ### Cutting and joining -/

theorem pieces_ne_nil (isCut : Char → Bool) (text : List Char) : pieces isCut text ≠ [] := by
  induction text with
  | nil => simp [pieces]
  | cons c text ih =>
    rw [pieces]
    split_ifs
    · simp
    · cases h : pieces isCut text with
      | nil => exact absurd h ih
      | cons piece rest => simp

theorem mem_pieces {isCut : Char → Bool} {text piece : List Char}
    (h : piece ∈ pieces isCut text) : ∀ c ∈ piece, isCut c = false := by
  induction text generalizing piece with
  | nil =>
    obtain rfl : piece = [] := by simpa [pieces] using h
    simp
  | cons c text ih =>
    rw [pieces] at h
    split_ifs at h with hc
    · rcases List.mem_cons.1 h with rfl | h
      · simp
      · exact ih h
    · cases hp : pieces isCut text with
      | nil => exact absurd hp (pieces_ne_nil isCut text)
      | cons first rest =>
        rw [hp, List.modifyHead_cons] at h
        rw [hp] at ih
        rcases List.mem_cons.1 h with rfl | h
        · exact List.forall_mem_cons.2 ⟨by simpa using hc, ih (by simp)⟩
        · exact ih (List.mem_cons_of_mem _ h)

theorem pieces_append {isCut : Char → Bool} {piece : List Char}
    (h : ∀ c ∈ piece, isCut c = false) {c : Char} (hc : isCut c = true) (text : List Char) :
    pieces isCut (piece ++ c :: text) = piece :: pieces isCut text := by
  induction piece with
  | nil => simp [pieces, hc]
  | cons d piece ih =>
    rw [List.cons_append, pieces, h d (by simp), if_neg (by simp),
      ih fun e he => h e (by simp [he])]
    rfl

theorem pieces_of_no_cut {isCut : Char → Bool} {piece : List Char}
    (h : ∀ c ∈ piece, isCut c = false) : pieces isCut piece = [piece] := by
  induction piece with
  | nil => rfl
  | cons d piece ih =>
    rw [pieces, h d (by simp), if_neg (by simp), ih fun e he => h e (by simp [he])]
    rfl

/-- A text is cut at a cut character into the pieces on either side of it. -/
theorem pieces_append_cut {isCut : Char → Bool} {c : Char} (hc : isCut c = true)
    (front back : List Char) :
    pieces isCut (front ++ c :: back) = pieces isCut front ++ pieces isCut back := by
  induction front with
  | nil => simp [pieces, hc]
  | cons d front ih =>
    rw [List.cons_append, pieces, pieces, ih]
    split_ifs
    · rfl
    · obtain ⟨first, others, heq⟩ := List.exists_cons_of_ne_nil (pieces_ne_nil isCut front)
      rw [heq]
      rfl

theorem pieces_intercalate {isCut : Char → Bool} {c : Char} (hc : isCut c = true)
    {parts : List (List Char)} (hne : parts ≠ []) (h : ∀ part ∈ parts, ∀ d ∈ part, isCut d = false) :
    pieces isCut ([c].intercalate parts) = parts := by
  induction parts with
  | nil => exact absurd rfl hne
  | cons part rest ih =>
    have hpart := h part (by simp)
    cases rest with
    | nil => simpa [List.intercalate] using pieces_of_no_cut hpart
    | cons next rest =>
      have hrest := ih (by simp) fun p hp => h p (List.mem_cons_of_mem _ hp)
      rw [List.intercalate_cons_cons, ← List.append_cons, pieces_append hpart hc, hrest]

/-- The lines have no line feed. -/
def AreLines (lines : List String) : Prop :=
  ∀ line ∈ lines, '\n' ∉ line.toList

theorem areLines_splitLines (text : String) : AreLines (splitLines text) := by
  intro line hline hfeed
  obtain ⟨piece, hpiece, rfl⟩ := List.mem_map.1 hline
  rw [String.toList_ofList] at hfeed
  have := mem_pieces hpiece _ ((dropReturn_isPrefix piece).mem hfeed)
  exact absurd this (by decide)

/-- **Lines that are written and read again** lose the carriage returns they end with. -/
theorem splitLines_joinLines {lines : List String} (hne : lines ≠ []) (h : AreLines lines) :
    splitLines (joinLines lines) = lines.map reload := by
  have hparts : ∀ part ∈ lines.map String.toList, ∀ c ∈ part, (c == '\n') = false := by
    intro part hpart c hc
    obtain ⟨line, hline, rfl⟩ := List.mem_map.1 hpart
    rw [beq_eq_false_iff_ne]
    rintro rfl
    exact h line hline hc
  rw [splitLines, joinLines, String.toList_ofList,
    pieces_intercalate (by decide) (by simpa using hne) hparts, List.map_map]
  rfl

theorem splitLines_ne_nil (text : String) : splitLines text ≠ [] := by
  have hpieces := pieces_ne_nil (· == '\n') text.toList
  simpa [splitLines] using hpieces

/-- Lines without line endings are read as they were written. -/
theorem splitLines_joinLines_self {lines : List String} (hne : lines ≠ [])
    (h : ∀ line ∈ lines, '\n' ∉ line.toList ∧ line.toList.getLast? ≠ some '\r') :
    splitLines (joinLines lines) = lines := by
  have hreload : ∀ line ∈ lines, reload line = id line := fun line hline =>
    reload_eq_self_iff.2 (h line hline).2
  rw [splitLines_joinLines hne fun line hline => (h line hline).1, List.map_congr_left hreload,
    List.map_id]

/-- **The lines that read back**: lines are read as they were written exactly if there is one at
least, none of them has a line feed, and none ends with a carriage return.  Whatever text is read,
it has a line, and no line has a line feed. -/
theorem reads_back_iff :
    (∀ lines : List String, splitLines (joinLines lines) = lines ↔
      lines ≠ [] ∧ ∀ line ∈ lines, '\n' ∉ line.toList ∧ line.toList.getLast? ≠ some '\r') ∧
    ∀ text : String, splitLines text ≠ [] ∧ ∀ line ∈ splitLines text, '\n' ∉ line.toList := by
  refine ⟨fun lines => ⟨fun h => ?_, fun ⟨hne, hlines⟩ => splitLines_joinLines_self hne hlines⟩,
    fun text => ⟨splitLines_ne_nil text, areLines_splitLines text⟩⟩
  -- what is read back is read from a text
  have hne : lines ≠ [] := h ▸ splitLines_ne_nil (joinLines lines)
  have hlines : AreLines lines := h ▸ areLines_splitLines (joinLines lines)
  have hmap : lines.map reload = lines.map id := by
    rw [← splitLines_joinLines hne hlines, h, List.map_id]
  exact ⟨hne, fun line hline =>
    ⟨hlines line hline, reload_eq_self_iff.1 (List.map_inj_left.1 hmap line hline)⟩⟩

/-- A carriage return inside a line stays, and one at its end is lost. -/
example : splitLines (joinLines ["", "a\rb", ""]) = ["", "a\rb", ""] ∧
    splitLines (joinLines ["a\r"]) = ["a"] := by
  decide +kernel

end ProjectSetup.Text
