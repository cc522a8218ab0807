import ProjectSetup.Proofs.Text.Line

/-!
# Line endings of a text that is loaded and saved

A file is loaded as lines and saved with a line feed between them, which writes every pair of a
carriage return and a line feed as a line feed.  That is all that happens to a text, but for a
carriage return at its very end, which is lost.  A carriage return in front of a pair becomes part
of a new pair, so that a text with two of them in front of a line feed changes again.

* `toList_resave`: what becomes of any text.
* `resave_endings`: a text that does not end with a carriage return, once and twice.
* `PairedReturns.toList_joinLines`: a text in which carriage returns stand in front of line feeds only.
-/

namespace ProjectSetup.Text

/-- The text with every pair of a carriage return and a line feed written as a line feed. -/
def normalEndings : List Char → List Char
  | [] => []
  | '\r' :: '\n' :: rest => '\n' :: normalEndings rest
  | c :: rest => c :: normalEndings rest

/-- The text of a file that was loaded as lines and saved again. -/
def resave (text : String) : String :=
  joinLines (splitLines text)

/-! ### Line by line -/

/-- The end of a line without a line feed makes up a pair only with what follows it. -/
theorem normalEndings_append {front rest : List Char} (hfeed : '\n' ∉ front)
    (hpair : front.getLast? = some '\r' → rest.head? ≠ some '\n') :
    normalEndings (front ++ rest) = front ++ normalEndings rest := by
  induction front with
  | nil => rfl
  | cons c front ih =>
    rw [List.mem_cons, not_or] at hfeed
    have hnone : ∀ more, c = '\r' → front ++ rest = '\n' :: more → False := by
      rintro more rfl heq
      cases front with
      | nil => exact hpair rfl (by rw [← List.nil_append rest, heq]; rfl)
      | cons d front => exact hfeed.2 (by rw [(List.cons.inj heq).1]; exact List.mem_cons_self)
    have hlast : front.getLast? = some '\r' → rest.head? ≠ some '\n' := by
      intro h
      refine hpair ?_
      rw [List.getLast?_cons, h]
      rfl
    rw [List.cons_append, normalEndings.eq_3 _ _ hnone, ih hfeed.2 hlast, List.cons_append]

theorem dropReturn_concat (front : List Char) : dropReturn (front ++ ['\r']) = front := by
  rw [dropReturn, List.getLast?_concat, if_pos rfl, List.dropLast_concat]

theorem normalEndings_line {line : List Char} (h : '\n' ∉ line) (text : List Char) :
    normalEndings (line ++ '\n' :: text) = dropReturn line ++ '\n' :: normalEndings text := by
  by_cases hlast : line.getLast? = some '\r'
  · -- the carriage return that ends the line makes up a pair with the line feed
    obtain ⟨front, rfl⟩ := List.getLast?_eq_some_iff.1 hlast
    have hfeed : '\n' ∉ front := fun hin => h (List.mem_append_left _ hin)
    rw [dropReturn_concat, List.append_assoc, normalEndings_append hfeed (by simp)]
    rfl
  · rw [normalEndings_append h fun h => absurd h hlast, dropReturn, if_neg hlast]
    rfl

theorem intercalate_pieces (c : Char) (text : List Char) :
    [c].intercalate (pieces (· == c) text) = text := by
  induction text with
  | nil => rfl
  | cons d text ih =>
    obtain ⟨first, rest, hpieces⟩ := List.exists_cons_of_ne_nil (pieces_ne_nil (· == c) text)
    rw [hpieces] at ih
    rw [pieces, hpieces]
    split_ifs with hd
    · obtain rfl : d = c := by simpa using hd
      rw [List.intercalate_cons_cons, ih]
      rfl
    · rw [List.modifyHead_cons]
      cases rest with
      | nil => simpa using ih
      | cons next rest =>
        rw [List.intercalate_cons_cons] at ih ⊢
        rw [← ih]
        rfl

/-- Lines that are joined once each of them has lost the carriage return it ends with. -/
theorem dropReturn_normalEndings_intercalate {lines : List (List Char)} (hne : lines ≠ [])
    (h : ∀ line ∈ lines, '\n' ∉ line) :
    dropReturn (normalEndings (['\n'].intercalate lines)) =
      ['\n'].intercalate (lines.map dropReturn) := by
  induction lines with
  | nil => exact absurd rfl hne
  | cons line rest ih =>
    have hline := h line List.mem_cons_self
    cases rest with
    | nil =>
      have hwhole : normalEndings (line ++ []) = line ++ normalEndings [] :=
        normalEndings_append hline (by simp)
      rw [List.append_nil, normalEndings, List.append_nil] at hwhole
      simp [List.intercalate, hwhole]
    | cons next rest =>
      have hrest := ih (by simp) fun l hl => h l (List.mem_cons_of_mem _ hl)
      have hfeed : (dropReturn line ++ ['\n']).getLast? ≠ some '\r' := by
        rw [List.getLast?_concat]
        decide
      rw [List.intercalate_cons_cons, ← List.append_cons, normalEndings_line hline,
        List.append_cons, dropReturn_append hfeed, hrest]
      simp only [List.map_cons, List.intercalate_cons_cons]

/-- **What becomes of a text** that is loaded and saved. -/
theorem toList_resave (text : String) :
    (resave text).toList = dropReturn (normalEndings text.toList) := by
  have hlines : ∀ line ∈ pieces (· == '\n') text.toList, '\n' ∉ line := by
    intro line hline hin
    exact absurd (mem_pieces hline _ hin) (by decide)
  have hjoin := dropReturn_normalEndings_intercalate (pieces_ne_nil _ _) hlines
  rw [intercalate_pieces] at hjoin
  rw [hjoin, resave, joinLines, splitLines, String.toList_ofList, List.map_map]
  congr 2
  funext line
  exact String.toList_ofList

/-! ### The second time -/

theorem getLast?_normalEndings (text : List Char) :
    (normalEndings text).getLast? = text.getLast? := by
  fun_induction normalEndings text with
  | case1 => rfl
  | case2 rest ih =>
    rw [List.getLast?_cons, ih, List.getLast?_cons, List.getLast?_cons]
    cases rest.getLast? <;> rfl
  | case3 c rest hpair ih => rw [List.getLast?_cons, ih, List.getLast?_cons]

theorem not_pair_isPrefix {c : Char} {rest : List Char}
    (h : ∀ more, c = '\r' → rest = '\n' :: more → False) : ¬ ['\r', '\n'] <+: c :: rest := by
  rintro ⟨more, hmore⟩
  obtain ⟨rfl, rfl⟩ := List.cons.inj hmore
  exact h more rfl rfl

theorem normalEndings_eq_self_iff {text : List Char} :
    normalEndings text = text ↔ ¬ ['\r', '\n'] <:+: text := by
  fun_induction normalEndings text with
  | case1 => simp
  | case2 rest ih => simp [List.infix_cons_iff]
  | case3 c rest hpair ih =>
    rw [List.cons_inj_right, ih, List.infix_cons_iff, or_iff_right (not_pair_isPrefix hpair)]

theorem feed_isPrefix_normalEndings_iff {text : List Char} :
    ['\n'] <+: normalEndings text ↔ ['\n'] <+: text ∨ ['\r', '\n'] <+: text := by
  fun_cases normalEndings text with
  | case1 => simp
  | case2 rest => simp
  | case3 c rest hpair =>
    rw [or_iff_left (not_pair_isPrefix hpair)]
    simp [List.cons_prefix_cons]

/-- Two carriage returns in front of a line feed leave a pair. -/
theorem infix_normalEndings_iff {text : List Char} :
    ['\r', '\n'] <:+: normalEndings text ↔ ['\r', '\r', '\n'] <:+: text := by
  fun_induction normalEndings text with
  | case1 => simp
  | case2 rest ih => simp [List.infix_cons_iff, ih]
  | case3 c rest hpair ih =>
    have hhead : ['\r', '\n'] <+: c :: normalEndings rest ↔
        ['\r', '\r', '\n'] <+: c :: rest := by
      rw [List.cons_prefix_cons, List.cons_prefix_cons, feed_isPrefix_normalEndings_iff]
      refine and_congr_right fun hc => or_iff_right ?_
      rintro ⟨more, rfl⟩
      exact hpair more hc.symm rfl
    rw [List.infix_cons_iff, List.infix_cons_iff, hhead, ih]

/-- **A text that does not end with a carriage return** is saved with its line endings normalised
and nothing else changed.  Saving it once more changes nothing, unless two carriage returns stood in
front of a line feed. -/
theorem resave_endings {text : String} (h : text.toList.getLast? ≠ some '\r') :
    (resave text).toList = normalEndings text.toList ∧
      (resave (resave text) = resave text ↔ ¬ ['\r', '\r', '\n'] <:+: text.toList) := by
  have honce : (resave text).toList = normalEndings text.toList := by
    rw [toList_resave, dropReturn, getLast?_normalEndings, if_neg h]
  have htwice : (resave (resave text)).toList = normalEndings (normalEndings text.toList) := by
    rw [toList_resave, honce, dropReturn, getLast?_normalEndings, getLast?_normalEndings, if_neg h]
  refine ⟨honce, ?_⟩
  rw [← String.toList_inj, htwice, honce, normalEndings_eq_self_iff, infix_normalEndings_iff]

/-- A text with line endings of both kinds and a carriage return inside a line. -/
theorem resave_endings_mixed :
    (resave "a\r\nb\rc\n").toList = "a\nb\rc\n".toList ∧
      resave (resave "a\r\nb\rc\n") = resave "a\r\nb\rc\n" := by
  have hlast : "a\r\nb\rc\n".toList.getLast? ≠ some '\r' := by decide
  obtain ⟨honce, htwice⟩ := resave_endings hlast
  exact ⟨honce, htwice.2 (by decide)⟩

/-- Two carriage returns in front of a line feed are lost one after the other, and one at the end of
a text is lost although no line feed follows it. -/
theorem resave_returns :
    resave (resave "a\r\r\nb") ≠ resave "a\r\r\nb" ∧
      (resave "a\r").toList ≠ normalEndings "a\r".toList := by
  decide +kernel

/-! ### Texts without lone carriage returns -/

/-- Every carriage return of the text stands in front of a line feed. -/
def PairedReturns (text : List Char) : Prop :=
  ∀ front back, text = front ++ '\r' :: back → back.head? = some '\n'

theorem PairedReturns.tail {c : Char} {text : List Char} (h : PairedReturns (c :: text)) :
    PairedReturns text :=
  fun front back htext => h (c :: front) back (by rw [htext]; rfl)

theorem PairedReturns.not_mem_normalEndings {text : List Char} (h : PairedReturns text) :
    '\r' ∉ normalEndings text := by
  fun_induction normalEndings text with
  | case1 => simp
  | case2 rest ih =>
    rw [List.mem_cons, not_or]
    exact ⟨by decide, ih h.tail.tail⟩
  | case3 c rest hpair ih =>
    rw [List.mem_cons, not_or]
    refine ⟨?_, ih h.tail⟩
    rintro rfl
    obtain ⟨more, hmore⟩ := List.head?_eq_some_iff.1 (h [] rest rfl)
    exact hpair more rfl hmore

theorem pairedReturns_iff {text : List Char} : PairedReturns text ↔ '\r' ∉ normalEndings text := by
  refine ⟨PairedReturns.not_mem_normalEndings, fun h front back htext => ?_⟩
  fun_induction normalEndings text generalizing front with
  | case1 => cases front <;> cases htext
  | case2 rest ih =>
    rw [List.mem_cons, not_or] at h
    rcases front with _ | ⟨c, _ | ⟨d, front⟩⟩
    · rw [← (List.cons.inj htext).2]
      rfl
    · cases (List.cons.inj (List.cons.inj htext).2).1
    · exact ih h.2 front (List.cons.inj (List.cons.inj htext).2).2
  | case3 c rest hpair ih =>
    rw [List.mem_cons, not_or] at h
    cases front with
    | nil => exact absurd (List.cons.inj htext).1.symm h.1
    | cons d front => exact ih h.2 front (List.cons.inj htext).2

instance (text : List Char) : Decidable (PairedReturns text) :=
  decidable_of_iff _ pairedReturns_iff.symm

theorem infix_intercalate {separator part : List Char} {parts : List (List Char)}
    (h : part ∈ parts) : part <:+: separator.intercalate parts := by
  induction parts with
  | nil => cases h
  | cons first rest ih =>
    cases rest with
    | nil =>
      obtain rfl := List.mem_singleton.1 h
      simp [List.intercalate]
    | cons next rest =>
      rw [List.intercalate_cons_cons]
      rcases List.mem_cons.1 h with rfl | h
      · rw [List.append_assoc]
        exact (List.prefix_append _ _).isInfix
      · exact List.infix_append_of_infix_right (ih h)

/-- A line of a text occurs in it. -/
theorem infix_of_mem_splitLines {text line : String} (h : line ∈ splitLines text) :
    line.toList <:+: text.toList := by
  obtain ⟨piece, hpiece, rfl⟩ := List.mem_map.1 h
  have hin : piece <:+: text.toList := by
    conv_rhs => rw [← intercalate_pieces '\n' text.toList]
    exact infix_intercalate hpiece
  rw [String.toList_ofList]
  exact (dropReturn_isPrefix piece).isInfix.trans hin

theorem PairedReturns.not_mem_line {text line : String} (h : PairedReturns text.toList)
    (hline : line ∈ splitLines text) : '\r' ∉ line.toList := by
  intro hreturn
  have hjoined : '\r' ∈ (resave text).toList := by
    rw [resave, joinLines, String.toList_ofList]
    exact (infix_intercalate (List.mem_map_of_mem hline)).mem hreturn
  rw [toList_resave] at hjoined
  exact h.not_mem_normalEndings ((dropReturn_isPrefix _).mem hjoined)

theorem PairedReturns.noEnding {text line : String} (h : PairedReturns text.toList)
    (hline : line ∈ splitLines text) :
    '\n' ∉ line.toList ∧ line.toList.getLast? ≠ some '\r' :=
  ⟨areLines_splitLines text line hline, fun hlast =>
    h.not_mem_line hline (List.mem_of_getLast? hlast)⟩

/-- The lines of a text without lone carriage returns make up the text with its line endings
normalised. -/
theorem PairedReturns.toList_joinLines {text : String} (h : PairedReturns text.toList) :
    (joinLines (splitLines text)).toList = normalEndings text.toList := by
  refine (resave_endings fun hlast => ?_).1
  obtain ⟨front, htext⟩ := List.getLast?_eq_some_iff.1 hlast
  cases h front [] htext

end ProjectSetup.Text
