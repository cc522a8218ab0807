import ProjectSetup.Proofs.Text.Search

/-!
# Byte offsets in a text

A place in a text is told by the number of bytes in front of it.  Only the boundaries of characters
are places: `cutAt?` cuts a text at a byte offset and fails where that is inside a character or behind
the end, and `slice?` takes what stands between two offsets and fails where one of them is no place or
they are in the wrong order.  `offsetOf?` is the offset at which a word first occurs.

* `cutAt?_eq_some_iff`, `slice?_eq_some_iff`: where a text can be cut, and what is between two cuts.
* `StandsAt`, `FirstAt`: a word at an offset, and at the first offset from some place on.
* `firstAt_of_splitFirst?`: a text that is cut at the first occurrence of a word.
-/

namespace ProjectSetup.Text

variable {text front front' back back' part word : List Char} {start stop offset other : Nat}

/-! ### Cutting at an offset -/

/-- The text cut at a byte offset, if that is the boundary of a character. -/
def cutAt? : Nat → List Char → Option (List Char × List Char)
  | 0, text => some ([], text)
  | _ + 1, [] => none
  | offset + 1, c :: rest =>
    if c.utf8Size ≤ offset + 1 then
      (cutAt? (offset + 1 - c.utf8Size) rest).map fun (front, back) => (c :: front, back)
    else none

/-- What stands between two byte offsets, if both are boundaries of characters and in order. -/
def slice? (text : List Char) (start stop : Nat) : Option (List Char) := do
  let (front, _) ← cutAt? stop text
  let (_, part) ← cutAt? start front
  return part

theorem byteSize_append (front back : List Char) :
    byteSize (front ++ back) = byteSize front + byteSize back := by
  induction front with
  | nil => simp [byteSize]
  | cons c front ih =>
    rw [List.cons_append, byteSize, byteSize, ih]
    omega

theorem byteSize_eq_zero_iff : byteSize text = 0 ↔ text = [] := by
  cases text with
  | nil => simp [byteSize]
  | cons c rest =>
    have hpos := c.utf8Size_pos
    simp only [byteSize, reduceCtorEq, iff_false]
    omega

theorem cutAt?_byteSize (front back : List Char) :
    cutAt? (byteSize front) (front ++ back) = some (front, back) := by
  induction front with
  | nil => rw [byteSize, List.nil_append, cutAt?]
  | cons c front ih =>
    have hpos := c.utf8Size_pos
    obtain ⟨n, hn⟩ : ∃ n, byteSize (c :: front) = n + 1 :=
      Nat.exists_eq_succ_of_ne_zero (by simp [byteSize_eq_zero_iff])
    have hrest : n + 1 - c.utf8Size = byteSize front := by
      rw [byteSize] at hn
      omega
    rw [hn, List.cons_append, cutAt?, if_pos (by rw [byteSize] at hn; omega), hrest, ih]
    rfl

theorem cutAt?_eq_some_iff :
    cutAt? offset text = some (front, back) ↔ text = front ++ back ∧ byteSize front = offset := by
  constructor
  · intro h
    fun_induction cutAt? offset text generalizing front with
    | case1 text =>
      obtain ⟨rfl, rfl⟩ := Prod.mk.inj (Option.some.inj h)
      exact ⟨rfl, rfl⟩
    | case2 => cases h
    | case3 offset c rest hle ih =>
      obtain ⟨⟨front, left⟩, hcut, heq⟩ := Option.map_eq_some_iff.1 h
      obtain ⟨rfl, rfl⟩ := Prod.mk.inj heq
      obtain ⟨rfl, hsize⟩ := ih hcut
      refine ⟨rfl, ?_⟩
      rw [byteSize, hsize]
      omega
    | case4 => cases h
  · rintro ⟨rfl, rfl⟩
    exact cutAt?_byteSize front back

/-- A text is cut at an offset in one way. -/
theorem cut_unique (h : front ++ back = front' ++ back') (hsize : byteSize front = byteSize front') :
    front = front' ∧ back = back' := by
  have hcut := cutAt?_byteSize front back
  rw [h, hsize, cutAt?_byteSize] at hcut
  obtain ⟨hfront, hback⟩ := Prod.mk.inj (Option.some.inj hcut)
  exact ⟨hfront.symm, hback.symm⟩

theorem slice?_eq_some_iff :
    slice? text start stop = some part ↔
      ∃ front back, text = front ++ part ++ back ∧ byteSize front = start ∧
        byteSize front + byteSize part = stop := by
  rw [slice?]
  constructor
  · intro h
    obtain ⟨⟨upTo, back⟩, hcut, hrest⟩ := Option.bind_eq_some_iff.1 h
    obtain ⟨⟨front, middle⟩, hcut', hpart⟩ := Option.bind_eq_some_iff.1 hrest
    obtain ⟨rfl, hstop⟩ := cutAt?_eq_some_iff.1 hcut
    obtain ⟨rfl, hstart⟩ := cutAt?_eq_some_iff.1 hcut'
    obtain rfl : middle = part := Option.some.inj hpart
    rw [byteSize_append] at hstop
    exact ⟨front, back, rfl, hstart, hstop⟩
  · rintro ⟨front, back, rfl, rfl, rfl⟩
    rw [← byteSize_append, cutAt?_byteSize]
    dsimp only [Option.bind_eq_bind, Option.bind_some]
    rw [cutAt?_byteSize]
    rfl

/-- The part between two others. -/
theorem slice?_between (front part back : List Char) :
    slice? (front ++ part ++ back) (byteSize front) (byteSize front + byteSize part) = some part :=
  slice?_eq_some_iff.2 ⟨front, back, rfl, rfl, rfl⟩

theorem slice?_upTo (front back : List Char) :
    slice? (front ++ back) 0 (byteSize front) = some front :=
  slice?_eq_some_iff.2 ⟨[], back, rfl, rfl, Nat.zero_add _⟩

theorem slice?_from (front back : List Char) :
    slice? (front ++ back) (byteSize front) (byteSize (front ++ back)) = some back :=
  slice?_eq_some_iff.2
    ⟨front, [], (List.append_nil _).symm, rfl, (byteSize_append front back).symm⟩

/-! ### Words at an offset -/

/-- The word stands in the text at the byte offset. -/
def StandsAt (word text : List Char) (offset : Nat) : Prop :=
  ∃ front back, text = front ++ word ++ back ∧ byteSize front = offset

/-- The first offset from `start` on at which the word stands in the text. -/
structure FirstAt (word text : List Char) (start offset : Nat) : Prop where
  stands : StandsAt word text offset
  le : start ≤ offset
  first : ∀ other, start ≤ other → StandsAt word text other → offset ≤ other

theorem FirstAt.unique (h : FirstAt word text start offset) (h' : FirstAt word text start other) :
    offset = other :=
  Nat.le_antisymm (h.first other h'.le h'.stands) (h'.first offset h.le h.stands)

theorem exists_standsAt_iff : (∃ offset, StandsAt word text offset) ↔ word <:+: text := by
  constructor
  · rintro ⟨offset, front, back, htext, -⟩
    exact ⟨front, back, htext.symm⟩
  · rintro ⟨front, back, htext⟩
    exact ⟨byteSize front, front, back, htext.symm, rfl⟩

/-- What stands in the back of a text is found behind the front. -/
theorem standsAt_append_iff :
    StandsAt word (front ++ back) (byteSize front + offset) ↔ StandsAt word back offset := by
  constructor
  · rintro ⟨before, after, htext, hsize⟩
    -- the front of the text ends before the word
    have hprefix : front <+: before := by
      rw [List.append_assoc] at htext
      rcases List.prefix_or_prefix_of_prefix (List.prefix_append front back)
        (htext ▸ List.prefix_append before (word ++ after)) with hp | ⟨more, rfl⟩
      · exact hp
      · rw [byteSize_append] at hsize
        have hmore : more = [] := byteSize_eq_zero_iff.1 (by omega)
        rw [hmore, List.append_nil]
    obtain ⟨more, rfl⟩ := hprefix
    rw [byteSize_append] at hsize
    rw [List.append_assoc, List.append_assoc] at htext
    refine ⟨more, after, ?_, by omega⟩
    rw [List.append_cancel_left htext, List.append_assoc]
  · rintro ⟨before, after, rfl, rfl⟩
    exact ⟨front ++ before, after, by simp only [List.append_assoc], byteSize_append front before⟩

theorem firstAt_append (front : List Char) (h : FirstAt word back 0 offset) :
    FirstAt word (front ++ back) (byteSize front) (byteSize front + offset) := by
  refine ⟨standsAt_append_iff.2 h.stands, Nat.le_add_right _ _, fun other hle hother => ?_⟩
  obtain ⟨more, rfl⟩ := Nat.exists_eq_add_of_le hle
  have hmore := h.first more (Nat.zero_le more) (standsAt_append_iff.1 hother)
  omega

theorem not_standsAt_append (h : ¬ word <:+: back) (hle : byteSize front ≤ other) :
    ¬ StandsAt word (front ++ back) other := by
  obtain ⟨more, rfl⟩ := Nat.exists_eq_add_of_le hle
  rw [standsAt_append_iff]
  exact fun hstands => h (exists_standsAt_iff.1 ⟨more, hstands⟩)

/-- Nothing but a word that the back starts with stands right behind the front. -/
theorem standsAt_byteSize_iff : StandsAt word (front ++ back) (byteSize front) ↔ word <+: back := by
  constructor
  · rintro ⟨before, after, htext, hsize⟩
    rw [List.append_assoc] at htext
    obtain ⟨-, rfl⟩ := cut_unique htext hsize.symm
    exact List.prefix_append word after
  · rintro ⟨after, rfl⟩
    exact ⟨front, after, (List.append_assoc ..).symm, rfl⟩

/-! ### Searching -/

/-- The byte offset of the first occurrence of a word. -/
def offsetOf? (word text : List Char) : Option Nat :=
  (splitFirst? word text).map fun (before, _) => byteSize before

/-- **A text that is cut at the first occurrence of a word** has it at no smaller offset. -/
theorem firstAt_of_splitFirst? (h : splitFirst? word text = some (front, back)) :
    FirstAt word text 0 (byteSize front) := by
  refine ⟨⟨front, back, eq_of_splitFirst? h, rfl⟩, Nat.zero_le _, fun other _ hother => ?_⟩
  obtain ⟨before, after, htext, rfl⟩ := hother
  have hfront : front <+: text := ⟨word ++ back, by rw [← List.append_assoc, eq_of_splitFirst? h]⟩
  have hbefore : before <+: text := ⟨word ++ after, by rw [← List.append_assoc, htext]⟩
  obtain ⟨more, rfl⟩ := List.prefix_of_prefix_length_le hfront hbefore
    (length_le_of_splitFirst? h htext)
  rw [byteSize_append]
  omega

end ProjectSetup.Text
