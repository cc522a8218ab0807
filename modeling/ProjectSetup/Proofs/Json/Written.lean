import ProjectSetup.Proofs.Json.Scalar

/-!
# Values as they are written

A `Written` is a value together with the spelling of its numbers, keywords and strings, and with
the keys of its objects in the order in which they are written, also those that are written twice:
what is left of a JSON text when its spaces do not count.  `lexemes` are its tokens, and `value?`
is the value that it stands for, if its words and strings can be read and it is not too deep.

* `lexemes_injective`: tokens are those of at most one written value.
-/

namespace ProjectSetup.Json

/-- A value as it is written. -/
inductive Written where
  | bare (word : List Char)
  | quoted (body : List Char)
  | array (items : List Written)
  | object (members : List (List Char × Written))

namespace Written

mutual

/-- The tokens of a value. -/
def lexemes : Written → List Lexeme
  | bare word => [.bare word]
  | quoted body => [.quoted body]
  | array [] => [.mark '[', .mark ']']
  | array (item :: rest) => .mark '[' :: item.lexemes ++ itemLexemes rest
  | object [] => [.mark '\x7b', .mark '\x7d']
  | object ((key, value) :: rest) =>
    .mark '\x7b' :: .quoted key :: .mark ':' :: value.lexemes ++ memberLexemes rest

/-- The tokens of the items behind the first one, with the closing bracket. -/
def itemLexemes : List Written → List Lexeme
  | [] => [.mark ']']
  | item :: rest => .mark ',' :: item.lexemes ++ itemLexemes rest

/-- The tokens of the members behind the first one, with the closing brace. -/
def memberLexemes : List (List Char × Written) → List Lexeme
  | [] => [.mark '\x7d']
  | (key, value) :: rest =>
    .mark ',' :: .quoted key :: .mark ':' :: value.lexemes ++ memberLexemes rest

end

mutual

/-- The value that is written, if its lists and objects are nested at most `depth` deep. -/
def value? : Nat → Written → Option Value
  | _, bare word => bareValue? word
  | _, quoted body => (decode? body).map .string
  | 0, array _ => none
  | depth + 1, array items => (items? depth items).map .array
  | 0, object _ => none
  | depth + 1, object members => (members? depth [] members).map .object

/-- The values of the items. -/
def items? : Nat → List Written → Option (List Value)
  | _, [] => some []
  | depth, item :: rest => do
    let value ← item.value? depth
    let values ← items? depth rest
    some (value :: values)

/-- The members put behind those that were read before. -/
def members? : Nat → Members → List (List Char × Written) → Option Members
  | _, before, [] => some before
  | depth, before, (key, value) :: rest => do
    let key ← decode? key
    let value ← value.value? depth
    members? depth (before.insert key value) rest

end

mutual

/-- The words and strings of the value can be cut out of a text. -/
def Proper : Written → Prop
  | bare word => word ≠ [] ∧ ∀ c ∈ word, isBare c = true
  | quoted body => isBody body = true
  | array items => ItemsProper items
  | object members => MembersProper members

/-- The words and strings of the items can be cut out of a text. -/
def ItemsProper : List Written → Prop
  | [] => True
  | item :: rest => item.Proper ∧ ItemsProper rest

/-- The keys, words and strings of the members can be cut out of a text. -/
def MembersProper : List (List Char × Written) → Prop
  | [] => True
  | (key, value) :: rest => isBody key = true ∧ value.Proper ∧ MembersProper rest

end

/-! ### Values that stand for something -/

theorem value?_bare (depth : Nat) (word : List Char) :
    (bare word).value? depth = bareValue? word := by
  cases depth <;> rfl

theorem value?_quoted (depth : Nat) (body : List Char) :
    (quoted body).value? depth = (decode? body).map .string := by
  cases depth <;> rfl

theorem value?_array_iff {depth : Nat} {ws : List Written} {value : Value} :
    (array ws).value? depth = some value ↔
      ∃ below values, depth = below + 1 ∧ items? below ws = some values ∧ .array values = value := by
  cases depth with
  | zero => simp [value?]
  | succ below => simp [value?]

theorem value?_object_iff {depth : Nat} {ws : List (List Char × Written)} {value : Value} :
    (object ws).value? depth = some value ↔
      ∃ below members, depth = below + 1 ∧ members? below [] ws = some members ∧
        .object members = value := by
  cases depth with
  | zero => simp [value?]
  | succ below => simp [value?]

theorem items?_cons {depth : Nat} {w : Written} {ws : List Written} {values : List Value}
    (h : items? depth (w :: ws) = some values) :
    ∃ value others, w.value? depth = some value ∧ items? depth ws = some others ∧
      values = value :: others := by
  simp only [items?, bind, Option.bind_eq_some_iff] at h
  obtain ⟨value, hvalue, others, hothers, h⟩ := h
  exact ⟨value, others, hvalue, hothers, (Option.some.inj h).symm⟩

theorem members?_cons {depth : Nat} {body : List Char} {w : Written}
    {ws : List (List Char × Written)} {before after : Members}
    (h : members? depth before ((body, w) :: ws) = some after) :
    ∃ key value, decode? body = some key ∧ w.value? depth = some value ∧
      members? depth (before.insert key value) ws = some after := by
  simp only [members?, bind, Option.bind_eq_some_iff] at h
  obtain ⟨key, hkey, value, hvalue, hrest⟩ := h
  exact ⟨key, value, hkey, hvalue, hrest⟩

mutual

theorem proper_of_value? : ∀ (w : Written) {depth : Nat} {value : Value},
    w.value? depth = some value → w.Proper
  | bare word, depth, value, h => isBare_of_bareValue? (by rwa [value?_bare] at h)
  | quoted body, depth, value, h => by
    rw [value?_quoted] at h
    obtain ⟨string, hstring, -⟩ := Option.map_eq_some_iff.1 h
    exact (decode?_eq_some_iff.1 hstring).1
  | array ws, depth, value, h => by
    obtain ⟨below, values, -, hitems, -⟩ := value?_array_iff.1 h
    exact itemsProper_of_items? ws hitems
  | object ws, depth, value, h => by
    obtain ⟨below, members, -, hmembers, -⟩ := value?_object_iff.1 h
    exact membersProper_of_members? ws hmembers

theorem itemsProper_of_items? : ∀ (ws : List Written) {depth : Nat} {values : List Value},
    items? depth ws = some values → ItemsProper ws
  | [], _, _, _ => trivial
  | w :: ws, depth, values, h => by
    obtain ⟨value, others, hvalue, hothers, -⟩ := items?_cons h
    exact ⟨proper_of_value? w hvalue, itemsProper_of_items? ws hothers⟩

theorem membersProper_of_members? : ∀ (ws : List (List Char × Written)) {depth : Nat}
    {before after : Members}, members? depth before ws = some after → MembersProper ws
  | [], _, _, _, _ => trivial
  | (body, w) :: ws, depth, before, after, h => by
    obtain ⟨key, value, hkey, hvalue, hrest⟩ := members?_cons h
    exact ⟨(decode?_eq_some_iff.1 hkey).1, proper_of_value? w hvalue,
      membersProper_of_members? ws hrest⟩

end

/-! ### Unique readability -/

/-- A value starts with a word, a string or an opening bracket or brace. -/
theorem head_lexemes (w : Written) :
    ∃ first others, w.lexemes = first :: others ∧
      ∀ c, first = .mark c → c = '[' ∨ c = '\x7b' := by
  cases w with
  | bare word => exact ⟨_, _, rfl, by simp⟩
  | quoted body => exact ⟨_, _, rfl, by simp⟩
  | array items => cases items <;> exact ⟨_, _, rfl, by simp⟩
  | object members =>
    rcases members with _ | ⟨⟨key, value⟩, rest⟩ <;> exact ⟨_, _, rfl, by simp⟩

theorem lexemes_ne_mark {w : Written} {c : Char} {front back : List Lexeme}
    (hc : c ≠ '[' ∧ c ≠ '\x7b') : .mark c :: front ≠ w.lexemes ++ back := by
  obtain ⟨first, others, hw, hm⟩ := head_lexemes w
  rw [hw, List.cons_append]
  intro h
  obtain ⟨rfl, -⟩ := List.cons.inj h
  rcases hm c rfl with h | h
  · exact hc.1 h
  · exact hc.2 h

mutual

/-- **Unique readability** of a value in front of other tokens. -/
theorem lexemes_append_inj : ∀ (w w' : Written) {back back' : List Lexeme},
    w.lexemes ++ back = w'.lexemes ++ back' → w = w' ∧ back = back'
  | bare word, w', back, back', h => by
    rcases w' with word' | body' | (_ | _) | (_ | _) <;> simp [lexemes] at h
    simpa using h
  | quoted body, w', back, back', h => by
    rcases w' with word' | body' | (_ | _) | (_ | _) <;> simp [lexemes] at h
    simpa using h
  | array [], w', back, back', h => by
    rcases w' with word' | body' | (_ | ⟨item', rest'⟩) | (_ | _) <;> simp [lexemes] at h
    · simpa using h
    · exact absurd (by simpa using h) (lexemes_ne_mark (w := item') (by decide))
  | array (item :: rest), w', back, back', h => by
    rcases w' with word' | body' | (_ | ⟨item', rest'⟩) | (_ | _) <;> simp [lexemes] at h
    · exact absurd (by simpa using h.symm) (lexemes_ne_mark (w := item) (by decide))
    · obtain ⟨rfl, hrest⟩ := lexemes_append_inj item item' h
      obtain ⟨rfl, hback⟩ := itemLexemes_append_inj rest rest' hrest
      exact ⟨rfl, hback⟩
  | object [], w', back, back', h => by
    rcases w' with word' | body' | (_ | _) | (_ | ⟨⟨key', value'⟩, rest'⟩) <;>
      simp [lexemes] at h
    simpa using h
  | object ((key, value) :: rest), w', back, back', h => by
    rcases w' with word' | body' | (_ | _) | (_ | ⟨⟨key', value'⟩, rest'⟩) <;>
      simp [lexemes] at h
    obtain ⟨rfl, hvalue⟩ := h
    obtain ⟨rfl, hrest⟩ := lexemes_append_inj value value' hvalue
    obtain ⟨rfl, hback⟩ := memberLexemes_append_inj rest rest' hrest
    exact ⟨rfl, hback⟩

theorem itemLexemes_append_inj : ∀ (items items' : List Written) {back back' : List Lexeme},
    itemLexemes items ++ back = itemLexemes items' ++ back' → items = items' ∧ back = back'
  | [], items', back, back', h => by
    rcases items' with _ | ⟨item', rest'⟩ <;> simp [itemLexemes] at h
    exact ⟨rfl, h⟩
  | item :: rest, items', back, back', h => by
    rcases items' with _ | ⟨item', rest'⟩ <;> simp [itemLexemes] at h
    obtain ⟨rfl, hrest⟩ := lexemes_append_inj item item' h
    obtain ⟨rfl, hback⟩ := itemLexemes_append_inj rest rest' hrest
    exact ⟨rfl, hback⟩

theorem memberLexemes_append_inj : ∀ (members members' : List (List Char × Written))
    {back back' : List Lexeme},
    memberLexemes members ++ back = memberLexemes members' ++ back' →
      members = members' ∧ back = back'
  | [], members', back, back', h => by
    rcases members' with _ | ⟨⟨key', value'⟩, rest'⟩ <;> simp [memberLexemes] at h
    exact ⟨rfl, h⟩
  | (key, value) :: rest, members', back, back', h => by
    rcases members' with _ | ⟨⟨key', value'⟩, rest'⟩ <;> simp [memberLexemes] at h
    obtain ⟨rfl, hvalue⟩ := h
    obtain ⟨rfl, hrest⟩ := lexemes_append_inj value value' hvalue
    obtain ⟨rfl, hback⟩ := memberLexemes_append_inj rest rest' hrest
    exact ⟨rfl, hback⟩

end

theorem lexemes_injective {w w' : Written} (h : w.lexemes = w'.lexemes) : w = w' := by
  have h' : w.lexemes ++ [] = w'.lexemes ++ [] := by rw [h]
  exact (lexemes_append_inj w w' h').1

end Written

end ProjectSetup.Json
