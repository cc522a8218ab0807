import ProjectSetup.Text.CharClass

/-!
# Searching and cutting texts

A text is a list of characters.  `splitFirst?` finds the first occurrence of a text in another and
gives what stands on either side of it, `pieces` cuts a text at every character of a class, and
`byteSize` is the length of a text in UTF-8.

The words of a text are its pieces between the characters that belong to no word.  A text is cut into
lines at every line feed, and a carriage return right before the line feed or at the end of the text
belongs to the line ending.  A line feed at the end yields an empty last line, so that joining the
lines with line feeds gives the text back, its line endings normalised.

* `eq_of_splitFirst?`: the two sides and the text sought make up the text searched.
-/

namespace ProjectSetup.Text

/-- What follows `head` in a text that starts with it. -/
def stripPrefix? : List Char → List Char → Option (List Char)
  | [], text => some text
  | _ :: _, [] => none
  | h :: head, c :: text => if h = c then stripPrefix? head text else none

/-- What stands before and after the first occurrence of `needle`. -/
def splitFirst? (needle : List Char) : List Char → Option (List Char × List Char)
  | [] => if needle = [] then some ([], []) else none
  | c :: cs =>
    match stripPrefix? needle (c :: cs) with
    | some after => some ([], after)
    | none => (splitFirst? needle cs).map fun (before, after) => (c :: before, after)

/-- The text `needle` occurs in `text`. -/
def occursIn (needle text : List Char) : Bool :=
  (splitFirst? needle text).isSome

/-- The pieces of a text between the characters of a class; there is one piece more than there
are such characters. -/
def pieces (isCut : Char → Bool) : List Char → List (List Char)
  | [] => [[]]
  | c :: cs =>
    if isCut c then [] :: pieces isCut cs else (pieces isCut cs).modifyHead (c :: ·)

/-- The length of a text in UTF-8. -/
def byteSize : List Char → Nat
  | [] => 0
  | c :: rest => c.utf8Size + byteSize rest

theorem eq_append_of_stripPrefix? {head text after : List Char}
    (h : stripPrefix? head text = some after) : text = head ++ after := by
  fun_induction stripPrefix? head text with
  | case1 text => simpa using h
  | case2 => simp at h
  | case3 c head text ih => simpa using ih h
  | case4 => simp at h

theorem eq_of_splitFirst? {needle text before after : List Char}
    (h : splitFirst? needle text = some (before, after)) :
    text = before ++ needle ++ after := by
  induction text generalizing before with
  | nil =>
    simp only [splitFirst?] at h
    split at h <;> simp_all
  | cons c cs ih =>
    simp only [splitFirst?] at h
    split at h
    · next hp =>
      obtain ⟨rfl, rfl⟩ : [] = before ∧ _ = after := by simpa using h
      simpa using eq_append_of_stripPrefix? hp
    · obtain ⟨⟨b, a⟩, hs, heq⟩ := Option.map_eq_some_iff.1 h
      obtain ⟨rfl, rfl⟩ : c :: b = before ∧ a = after := by simpa using heq
      rw [ih hs]
      simp

/-! ### Words and lines -/

/-- `word` stands in `text` as a whole: it is one of the pieces that are left when the text is cut
at the characters that belong to no word. -/
def hasWord (word text : List Char) : Bool :=
  (pieces (fun c => !isWordChar c) text).contains word

/-- The line without the carriage return that ends it, if there is one. -/
def dropReturn (line : List Char) : List Char :=
  if line.getLast? = some '\r' then line.dropLast else line

/-- The lines of a text. -/
def splitLines (text : String) : List String :=
  (pieces (· == '\n') text.toList).map fun line => String.ofList (dropReturn line)

/-- The text that has the given lines, joined with line feeds. -/
def joinLines (lines : List String) : String :=
  String.ofList (['\n'].intercalate (lines.map String.toList))

end ProjectSetup.Text
