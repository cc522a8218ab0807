import ProjectSetup.Proofs.Json.Written

/-!
# What the reader reads

The reader of values reads a text exactly if the tokens of the text are those of a written value
that stands for something, and it then gives what the written value stands for.

* `readValue_sound`: what is read is written, unless a bare word goes on behind it.
* `readValue_complete`: what is written is read.
* `parse_eq_ok_iff`: a text is read as a value exactly if its tokens are those of a written value
  that stands for it.

The loops of lists and objects have a lemma each, in both directions, for any reader of what they
hold; the induction on the depth then only ties them together.
-/

namespace ProjectSetup.Json

theorem stops_of_skipSpace {text rest : List Char} {c : Char} (h : skipSpace text = c :: rest)
    (hc : isBare c = false) : Stops text := by
  intro d hd
  cases text with
  | nil => cases hd
  | cons e text =>
    obtain rfl : e = d := by simpa using hd
    by_cases hs : isSpace e = true
    · exact isBare_of_isSpace hs
    · rw [skipSpace, List.dropWhile_cons_of_neg hs] at h
      obtain ⟨rfl, -⟩ := List.cons.inj h
      exact hc

theorem stops_of_skipSpace_nil {text : List Char} (h : skipSpace text = []) : Stops text := by
  intro d hd
  cases text with
  | nil => cases hd
  | cons e text =>
    obtain rfl : e = d := by simpa using hd
    by_cases hs : isSpace e = true
    · exact isBare_of_isSpace hs
    · rw [skipSpace, List.dropWhile_cons_of_neg hs] at h
      cases h

theorem lexemes_of_skipSpace_mark {text rest : List Char} {c : Char}
    (h : skipSpace text = c :: rest) (hs : isSpace c = false) (hq : c ≠ '\x22')
    (hb : isBare c = false) : lexemes text = .mark c :: lexemes rest := by
  rw [← lexemes_skipSpace, h, lexemes_mark hs hq hb]

/-! ### From texts to written values -/

/-- What the reader reads is written, nested at most `depth` deep. -/
def Sound (inner : Reader Value) (depth : Nat) : Prop :=
  ∀ text value rest, inner text = .ok (value, rest) → Stops rest →
    ∃ w : Written, lexemes text = w.lexemes ++ lexemes rest ∧ w.value? depth = some value

theorem readItem_ok {inner : Reader Value} {items items' : List Value} {text rest : List Char}
    (h : readItem inner items text = .ok (items', rest)) :
    ∃ value, inner text = .ok (value, rest) ∧ items' = value :: items := by
  obtain ⟨⟨value, left⟩, hi, h⟩ := ok_of_bind h
  obtain ⟨rfl, rfl⟩ := Prod.mk.inj (Except.ok.inj h)
  exact ⟨value, hi, rfl⟩

theorem lexemes_afterListComma {text left : List Char}
    (h : afterListComma .kept text = .ok left) : lexemes left = lexemes text := by
  unfold afterListComma at h
  split at h
  · cases h
  · cases h
    exact lexemes_skipSpace text

theorem moreItems_sound {inner : Reader Value} {depth : Nat} (hinner : Sound inner depth) :
    ∀ (bound : Nat) (before after : List Value) (text rest : List Char),
      moreItems .kept (readItem inner) bound before text = .ok (after, rest) →
      Stops text ∧ ∃ ws values, lexemes text = Written.itemLexemes ws ++ lexemes rest ∧
        Written.items? depth ws = some values ∧ after = values.reverse ++ before := by
  intro bound
  induction bound with
  | zero => intro before after text rest h; cases h
  | succ bound ih =>
    intro before after text rest h
    rw [moreItems] at h
    split at h
    · cases h
    next c left htext =>
    split_ifs at h with hclose hcomma
    · obtain rfl : c = ']' := by simpa using hclose
      obtain ⟨rfl, rfl⟩ := Prod.mk.inj (Except.ok.inj h)
      refine ⟨stops_of_skipSpace htext (by decide), [], [], ?_, rfl, rfl⟩
      rw [lexemes_of_skipSpace_mark htext (by decide) (by decide) (by decide)]
      rfl
    · obtain rfl : c = ',' := by simpa using hcomma
      obtain ⟨behind, hbehind, h⟩ := ok_of_bind h
      obtain ⟨⟨items, more⟩, hitem, h⟩ := ok_of_bind h
      obtain ⟨value, hvalue, rfl⟩ := readItem_ok hitem
      obtain ⟨hstops, ws, values, hws, hvalues, rfl⟩ := ih _ _ _ _ h
      obtain ⟨w, hw, hwv⟩ := hinner _ _ _ hvalue hstops
      refine ⟨stops_of_skipSpace htext (by decide), w :: ws, value :: values, ?_, ?_, ?_⟩
      · rw [lexemes_of_skipSpace_mark htext (by decide) (by decide) (by decide),
          ← lexemes_afterListComma hbehind, hw, hws]
        simp [Written.itemLexemes]
      · simp [Written.items?, hwv, hvalues]
      · simp

theorem readItems_sound {inner : Reader Value} {depth : Nat} (hinner : Sound inner depth)
    {items : List Value} {text rest : List Char}
    (h : readItems .kept (readItem inner) [] text = .ok (items, rest)) :
    ∃ ws, .mark '[' :: lexemes text = (Written.array ws).lexemes ++ lexemes rest ∧
      Written.items? depth ws = some items.reverse := by
  unfold readItems at h
  split at h
  · cases h
  next c left htext =>
  split_ifs at h with hclose
  · obtain rfl : c = ']' := by simpa using hclose
    obtain ⟨rfl, rfl⟩ := Prod.mk.inj (Except.ok.inj h)
    refine ⟨[], ?_, rfl⟩
    rw [lexemes_of_skipSpace_mark htext (by decide) (by decide) (by decide)]
    rfl
  · obtain ⟨⟨first, more⟩, hitem, h⟩ := ok_of_bind h
    obtain ⟨value, hvalue, rfl⟩ := readItem_ok hitem
    obtain ⟨hstops, ws, values, hws, hvalues, rfl⟩ := moreItems_sound hinner _ _ _ _ _ h
    obtain ⟨w, hw, hwv⟩ := hinner _ _ _ hvalue hstops
    refine ⟨w :: ws, ?_, by simp [Written.items?, hwv, hvalues]⟩
    rw [← lexemes_skipSpace, htext, hw, hws]
    simp [Written.lexemes]

theorem lexemes_of_readColon {text rest : List Char} (h : readColon text = .ok rest) :
    lexemes text = .mark ':' :: lexemes rest := by
  unfold readColon at h
  split at h
  · cases h
  next c left htext =>
  split_ifs at h with hc
  obtain rfl : c = ':' := by simpa using hc
  obtain rfl := Except.ok.inj h
  exact lexemes_of_skipSpace_mark htext (by decide) (by decide) (by decide)

theorem readMember_ok {inner : Reader Value} {members members' : Members} {text rest : List Char}
    (h : readMember inner members text = .ok (members', rest)) :
    ∃ body key left value, lexemes ('\x22' :: text) = .quoted body :: .mark ':' :: lexemes left ∧
      decode? body = some key ∧ inner left = .ok (value, rest) ∧
      members' = members.insert key value := by
  obtain ⟨⟨key, behindKey⟩, hkey, h⟩ := ok_of_bind h
  obtain ⟨left, hcolon, h⟩ := ok_of_bind h
  obtain ⟨⟨value, behind⟩, hvalue, h⟩ := ok_of_bind h
  obtain ⟨rfl, rfl⟩ := Prod.mk.inj (Except.ok.inj h)
  obtain ⟨body, hcut, hdecode⟩ := decode?_of_readString hkey
  refine ⟨body, _, left, value, ?_, hdecode, hvalue, rfl⟩
  rw [lexemes_quote hcut, lexemes_of_readColon hcolon]

theorem afterObjectComma_ok {text left : List Char}
    (h : afterObjectComma .kept text = .ok left) : skipSpace text = '\x22' :: left := by
  unfold afterObjectComma at h
  split at h <;> cases h
  assumption

theorem moreMembers_sound {inner : Reader Value} {depth : Nat} (hinner : Sound inner depth) :
    ∀ (bound : Nat) (before after : Members) (text rest : List Char),
      moreMembers .kept (readMember inner) bound before text = .ok (after, rest) →
      Stops text ∧ ∃ ws, lexemes text = Written.memberLexemes ws ++ lexemes rest ∧
        Written.members? depth before ws = some after := by
  intro bound
  induction bound with
  | zero => intro before after text rest h; cases h
  | succ bound ih =>
    intro before after text rest h
    rw [moreMembers] at h
    split at h
    · cases h
    next c left htext =>
    split_ifs at h with hclose hcomma
    · obtain rfl : c = '\x7d' := by simpa using hclose
      obtain ⟨rfl, rfl⟩ := Prod.mk.inj (Except.ok.inj h)
      refine ⟨stops_of_skipSpace htext (by decide), [], ?_, rfl⟩
      rw [lexemes_of_skipSpace_mark htext (by decide) (by decide) (by decide)]
      rfl
    · obtain rfl : c = ',' := by simpa using hcomma
      obtain ⟨behind, hbehind, h⟩ := ok_of_bind h
      obtain ⟨⟨members, more⟩, hmember, h⟩ := ok_of_bind h
      obtain ⟨body, key, last, value, hbody, hdecode, hvalue, rfl⟩ := readMember_ok hmember
      obtain ⟨hstops, ws, hws, hmembers⟩ := ih _ _ _ _ h
      obtain ⟨w, hw, hwv⟩ := hinner _ _ _ hvalue hstops
      refine ⟨stops_of_skipSpace htext (by decide), (body, w) :: ws, ?_, ?_⟩
      · rw [lexemes_of_skipSpace_mark htext (by decide) (by decide) (by decide),
          ← lexemes_skipSpace, afterObjectComma_ok hbehind, hbody, hw, hws]
        simp [Written.memberLexemes]
      · simp [Written.members?, hdecode, hwv, hmembers]

theorem readMembers_sound {inner : Reader Value} {depth : Nat} (hinner : Sound inner depth)
    {members : Members} {text rest : List Char}
    (h : readMembers .kept (readMember inner) [] text = .ok (members, rest)) :
    ∃ ws, .mark '\x7b' :: lexemes text = (Written.object ws).lexemes ++ lexemes rest ∧
      Written.members? depth [] ws = some members := by
  unfold readMembers at h
  split at h
  · cases h
  next c left htext =>
  split_ifs at h with hclose hquote
  · obtain rfl : c = '\x7d' := by simpa using hclose
    obtain ⟨rfl, rfl⟩ := Prod.mk.inj (Except.ok.inj h)
    refine ⟨[], ?_, rfl⟩
    rw [lexemes_of_skipSpace_mark htext (by decide) (by decide) (by decide)]
    rfl
  · obtain rfl : c = '\x22' := by simpa using hquote
    obtain ⟨⟨first, more⟩, hmember, h⟩ := ok_of_bind h
    obtain ⟨body, key, last, value, hbody, hdecode, hvalue, rfl⟩ := readMember_ok hmember
    obtain ⟨hstops, ws, hws, hmembers⟩ := moreMembers_sound hinner _ _ _ _ _ h
    obtain ⟨w, hw, hwv⟩ := hinner _ _ _ hvalue hstops
    refine ⟨(body, w) :: ws, ?_, by simp [Written.members?, hdecode, hwv, hmembers]⟩
    rw [← lexemes_skipSpace, htext, hbody, hw, hws]
    simp [Written.lexemes]

theorem readScalar_sound {c : Char} {left rest : List Char} {value : Value} (depth : Nat)
    (h : readScalar c left = .ok (value, rest)) (hstops : Stops rest) :
    ∃ w : Written, lexemes (c :: left) = w.lexemes ++ lexemes rest ∧
      w.value? depth = some value := by
  by_cases hq : c = '\x22'
  · subst hq
    rw [readScalar] at h
    obtain ⟨⟨string, behind⟩, hstring, h⟩ := ok_of_bind h
    obtain ⟨rfl, rfl⟩ := Prod.mk.inj (Except.ok.inj h)
    obtain ⟨body, hcut, hdecode⟩ := decode?_of_readString hstring
    refine ⟨.quoted body, ?_, ?_⟩
    · rw [lexemes_quote hcut]
      rfl
    · cases depth <;> simp [Written.value?, hdecode]
  · obtain ⟨word, rfl, hword, hread⟩ := readScalar_ok hq h
    refine ⟨.bare (c :: word), ?_, ?_⟩
    · rw [← List.cons_append, lexemes_bare (hword c (by simp)) (fun d hd => hword d (by simp [hd]))
        hstops]
      rfl
    · have := bareValue?_eq_some_iff.2 ⟨hword, hread⟩
      cases depth <;> simpa [Written.value?] using this

theorem readValueWith_sound {inner? : Option (Reader Value)} {depth : Nat}
    (hinner : ∀ inner ∈ inner?, ∃ below, depth = below + 1 ∧ Sound inner below) :
    Sound (readValueWith inner?) depth := by
  intro text value rest h hstops
  unfold readValueWith at h
  split at h
  · cases h
  next c left htext =>
  rw [← lexemes_skipSpace, htext]
  split_ifs at h with hlist hobject
  · obtain rfl : c = '[' := by simpa using hlist
    split at h
    · cases h
    next inner =>
    obtain ⟨below, rfl, hsound⟩ := hinner inner rfl
    obtain ⟨⟨items, behind⟩, hitems, h⟩ := ok_of_bind h
    obtain ⟨rfl, rfl⟩ := Prod.mk.inj (Except.ok.inj h)
    obtain ⟨ws, hws, hvalues⟩ := readItems_sound hsound hitems
    refine ⟨.array ws, ?_, by simp [Written.value?, hvalues]⟩
    rw [lexemes_mark (by decide) (by decide) (by decide), hws]
  · obtain rfl : c = '\x7b' := by simpa using hobject
    split at h
    · cases h
    next inner =>
    obtain ⟨below, rfl, hsound⟩ := hinner inner rfl
    obtain ⟨⟨members, behind⟩, hmembers, h⟩ := ok_of_bind h
    obtain ⟨rfl, rfl⟩ := Prod.mk.inj (Except.ok.inj h)
    obtain ⟨ws, hws, hvalues⟩ := readMembers_sound hsound hmembers
    refine ⟨.object ws, ?_, by simp [Written.value?, hvalues]⟩
    rw [lexemes_mark (by decide) (by decide) (by decide), hws]
  · exact readScalar_sound depth h hstops

/-- **What the reader reads is written**, unless a bare word goes on behind it. -/
theorem readValue_sound (depth : Nat) : Sound (readValue depth) depth := by
  induction depth with
  | zero => exact readValueWith_sound (by simp)
  | succ depth ih => exact readValueWith_sound (by simpa using ih)

/-! ### From written values to texts -/

variable {σ : Type}

/-- What is written, nested at most `depth` deep, is read by the reader. -/
def Complete (inner : Reader Value) (depth : Nat) : Prop :=
  ∀ (w : Written) value text back, w.value? depth = some value → lexemes text = w.lexemes ++ back →
    ∃ rest, inner text = .ok (value, rest) ∧ lexemes rest = back

/-- The reader makes the value of what is written, and stops behind it. -/
def Reads {α : Type} (reader : Reader α) (w : Written) (value : α) : Prop :=
  ∀ text back, lexemes text = w.lexemes ++ back →
    ∃ rest, reader text = .ok (value, rest) ∧ lexemes rest = back

/-- The member with the key and the value that are written is read into the state. -/
def ReadsMember (member : σ → Reader σ) (body : List Char) (w : Written) (before after : σ) :
    Prop :=
  ∀ text back, lexemes text = .quoted body :: .mark ':' :: (w.lexemes ++ back) →
    ∃ left rest, skipSpace text = '\x22' :: left ∧ member before left = .ok (after, rest) ∧
      lexemes rest = back

/-- The items are read one behind the other, from the one state to the other. -/
inductive ReadsItems (item : σ → Reader σ) : List Written → σ → σ → Prop
  | nil (state : σ) : ReadsItems item [] state state
  | cons {w : Written} {ws : List Written} {before next after : σ} :
      Reads (item before) w next → ReadsItems item ws next after →
      ReadsItems item (w :: ws) before after

/-- The members are read one behind the other, from the one state to the other. -/
inductive ReadsMembers (member : σ → Reader σ) : List (List Char × Written) → σ → σ → Prop
  | nil (state : σ) : ReadsMembers member [] state state
  | cons {body : List Char} {w : Written} {ws : List (List Char × Written)}
      {before next after : σ} :
      ReadsMember member body w before next → ReadsMembers member ws next after →
      ReadsMembers member ((body, w) :: ws) before after

theorem Complete.reads {inner : Reader Value} {depth : Nat} (h : Complete inner depth)
    {w : Written} {value : Value} (hvalue : w.value? depth = some value) : Reads inner w value :=
  fun text back => h w value text back hvalue

/-- A reader that puts what another one read somewhere reads what that one reads. -/
theorem Reads.map {α β : Type} {reader : Reader α} {w : Written} {value : α}
    (h : Reads reader w value) (put : α → β) :
    Reads (fun text => do
      let (value, rest) ← reader text
      return (put value, rest)) w (put value) := by
  intro text back htext
  obtain ⟨rest, hread, hrest⟩ := h text back htext
  exact ⟨rest, by simp [hread, bind, Except.bind, pure, Except.pure], hrest⟩

theorem Reads.readItem {inner : Reader Value} {w : Written} {value : Value}
    (h : Reads inner w value) (before : List Value) :
    Reads (readItem inner before) w (value :: before) :=
  h.map (· :: before)

theorem length_lt_itemLexemes (ws : List Written) :
    ws.length < (Written.itemLexemes ws).length := by
  induction ws with
  | nil => decide
  | cons w ws ih =>
    simp only [Written.itemLexemes, List.cons_append, List.length_cons, List.length_append]
    omega

theorem length_lt_memberLexemes (ws : List (List Char × Written)) :
    ws.length < (Written.memberLexemes ws).length := by
  induction ws with
  | nil => decide
  | cons w ws ih =>
    obtain ⟨key, value⟩ := w
    simp only [Written.memberLexemes, List.cons_append, List.length_cons, List.length_append]
    omega

/-- The first token of a value does not close a list. -/
theorem skipSpace_ne_close {w : Written} {text : List Char} {back : List Lexeme}
    (h : lexemes text = w.lexemes ++ back) {rest : List Char} :
    skipSpace text ≠ ']' :: rest := by
  intro htext
  have := lexemes_of_skipSpace_mark htext (by decide) (by decide) (by decide)
  rw [this] at h
  exact Written.lexemes_ne_mark (by decide) h

theorem afterListComma_of_lexemes {w : Written} {text : List Char} {back : List Lexeme}
    (h : lexemes text = w.lexemes ++ back) :
    afterListComma .kept text = .ok (skipSpace text) := by
  unfold afterListComma
  split
  next rest htext => exact absurd htext (skipSpace_ne_close h)
  · rfl

theorem moreItems_of_readsItems {item : σ → Reader σ} {ws : List Written} {before after : σ}
    (h : ReadsItems item ws before after) :
    ∀ (bound : Nat) (text : List Char) (back : List Lexeme), ws.length < bound →
      lexemes text = Written.itemLexemes ws ++ back →
      ∃ rest, moreItems .kept item bound before text = .ok (after, rest) ∧ lexemes rest = back := by
  induction h with
  | nil state =>
    rintro (_ | bound) text back hbound htext
    · cases hbound
    obtain ⟨rest, hskip, hrest⟩ := exists_of_lexemes_mark htext
    exact ⟨rest, by rw [moreItems, hskip]; simp, by simpa using hrest⟩
  | @cons w ws before next after hitem _ ih =>
    rintro (_ | bound) text back hbound htext
    · cases hbound
    obtain ⟨left, hskip, hleft⟩ := exists_of_lexemes_mark htext
    replace hleft : lexemes left = w.lexemes ++ (Written.itemLexemes ws ++ back) := by
      rw [hleft]
      exact List.append_assoc _ _ _
    obtain ⟨behind, hread, hbehind⟩ :=
      hitem (skipSpace left) _ (by rw [lexemes_skipSpace, hleft])
    obtain ⟨rest, hmore, hrest⟩ := ih bound behind back (by simpa using hbound) hbehind
    refine ⟨rest, ?_, hrest⟩
    rw [moreItems, hskip]
    simp [afterListComma_of_lexemes hleft, hread, bind, Except.bind, hmore]

/-- **The items of a list are read**, each into the state that is left by those before it. -/
theorem readItems_of_readsItems {item : σ → Reader σ} {ws : List Written} {before after : σ}
    (h : ReadsItems item ws before after) {text : List Char} {back : List Lexeme}
    (htext : lexemes text = (Written.array ws).lexemes ++ back) :
    ∃ left rest, skipSpace text = '[' :: left ∧
      readItems .kept item before left = .ok (after, rest) ∧ lexemes rest = back := by
  cases h with
  | nil =>
    obtain ⟨left, hopen, hleft⟩ := exists_of_lexemes_mark htext
    obtain ⟨rest, hclose, hrest⟩ := exists_of_lexemes_mark hleft
    exact ⟨left, rest, hopen, by rw [readItems, hclose]; simp, by simpa using hrest⟩
  | @cons w ws _ next _ hitem hmore =>
    obtain ⟨left, hopen, hleft⟩ := exists_of_lexemes_mark htext
    replace hleft : lexemes left = w.lexemes ++ (Written.itemLexemes ws ++ back) := by
      rw [hleft]
      exact List.append_assoc _ _ _
    obtain ⟨behind, hread, hbehind⟩ :=
      hitem (skipSpace left) _ (by rw [lexemes_skipSpace, hleft])
    have hbound : ws.length < behind.length := by
      have := length_lexemes_le behind
      have := length_lt_itemLexemes ws
      simp only [hbehind, List.length_append] at *
      omega
    obtain ⟨rest, hmore, hrest⟩ := moreItems_of_readsItems hmore _ behind back hbound hbehind
    refine ⟨left, rest, hopen, ?_, hrest⟩
    cases hskip : skipSpace left with
    | nil =>
      obtain ⟨first, more, hw, -⟩ := Written.head_lexemes w
      rw [← lexemes_skipSpace, hskip, lexemes_nil, hw] at hleft
      cases hleft
    | cons c others =>
      have hc : c ≠ ']' := by
        rintro rfl
        exact skipSpace_ne_close hleft hskip
      rw [hskip] at hread
      simp [readItems, hskip, hc, hread, bind, Except.bind, hmore]

theorem readsItems_of_items? {inner : Reader Value} {depth : Nat} (hinner : Complete inner depth)
    {ws : List Written} :
    ∀ (before : List Value) {values : List Value}, Written.items? depth ws = some values →
      ReadsItems (readItem inner) ws before (values.reverse ++ before) := by
  induction ws with
  | nil =>
    intro before values hvalues
    obtain rfl : [] = values := by simpa [Written.items?] using hvalues
    exact .nil before
  | cons w ws ih =>
    intro before values hvalues
    obtain ⟨value, others, hvalue, hothers, rfl⟩ := Written.items?_cons hvalues
    rw [List.reverse_cons, List.append_assoc]
    exact .cons ((hinner.reads hvalue).readItem before) (ih _ hothers)

theorem readColon_of_lexemes {text : List Char} {back : List Lexeme}
    (h : lexemes text = .mark ':' :: back) :
    ∃ rest, readColon text = .ok rest ∧ lexemes rest = back := by
  obtain ⟨rest, hskip, hrest⟩ := exists_of_lexemes_mark h
  exact ⟨rest, by simp [readColon, hskip], hrest⟩

theorem Reads.readMember {inner : Reader Value} {w : Written} {value : Value}
    (h : Reads inner w value) {body : List Char} {key : String} (hkey : decode? body = some key)
    (before : Members) :
    ReadsMember (readMember inner) body w before (before.insert key value) := by
  intro text back htext
  obtain ⟨behindKey, hskip, -, hback⟩ := exists_of_lexemes_quoted htext
  obtain ⟨behind, hcolon, hbehind⟩ := readColon_of_lexemes hback
  obtain ⟨rest, hread, hrest⟩ := h behind back hbehind
  refine ⟨_, rest, hskip, ?_, hrest⟩
  have hstring := (decode?_eq_some_iff.1 hkey).2 behindKey
  simp [Json.readMember, hstring, hcolon, hread, bind, Except.bind, pure, Except.pure]

theorem moreMembers_of_readsMembers {member : σ → Reader σ} {ws : List (List Char × Written)}
    {before after : σ} (h : ReadsMembers member ws before after) :
    ∀ (bound : Nat) (text : List Char) (back : List Lexeme), ws.length < bound →
      lexemes text = Written.memberLexemes ws ++ back →
      ∃ rest, moreMembers .kept member bound before text = .ok (after, rest) ∧
        lexemes rest = back := by
  induction h with
  | nil state =>
    rintro (_ | bound) text back hbound htext
    · cases hbound
    obtain ⟨rest, hskip, hrest⟩ := exists_of_lexemes_mark htext
    exact ⟨rest, by rw [moreMembers, hskip]; simp, by simpa using hrest⟩
  | @cons body w ws before next after hmember _ ih =>
    rintro (_ | bound) text back hbound htext
    · cases hbound
    obtain ⟨left, hskip, hleft⟩ := exists_of_lexemes_mark htext
    replace hleft : lexemes left =
        .quoted body :: .mark ':' :: (w.lexemes ++ (Written.memberLexemes ws ++ back)) := by
      rw [hleft]
      simp
    obtain ⟨behind, more, hquote, hread, hmore⟩ := hmember left _ hleft
    obtain ⟨rest, hrest, hback⟩ := ih bound more back (by simpa using hbound) hmore
    refine ⟨rest, ?_, hback⟩
    rw [moreMembers, hskip]
    simp [afterObjectComma, hquote, hread, bind, Except.bind, hrest]

/-- **The members of an object are read**, each into the state that is left by those before
it. -/
theorem readMembers_of_readsMembers {member : σ → Reader σ} {ws : List (List Char × Written)}
    {before after : σ} (h : ReadsMembers member ws before after) {text : List Char}
    {back : List Lexeme} (htext : lexemes text = (Written.object ws).lexemes ++ back) :
    ∃ left rest, skipSpace text = '\x7b' :: left ∧
      readMembers .kept member before left = .ok (after, rest) ∧ lexemes rest = back := by
  cases h with
  | nil =>
    obtain ⟨left, hopen, hleft⟩ := exists_of_lexemes_mark htext
    obtain ⟨rest, hclose, hrest⟩ := exists_of_lexemes_mark hleft
    exact ⟨left, rest, hopen, by rw [readMembers, hclose]; simp, by simpa using hrest⟩
  | @cons body w ws _ next _ hmember hmembers =>
    obtain ⟨left, hopen, hleft⟩ := exists_of_lexemes_mark htext
    replace hleft : lexemes left =
        .quoted body :: .mark ':' :: (w.lexemes ++ (Written.memberLexemes ws ++ back)) := by
      rw [hleft]
      simp
    obtain ⟨behind, more, hquote, hread, hmore⟩ := hmember left _ hleft
    have hbound : ws.length < more.length := by
      have := length_lexemes_le more
      have := length_lt_memberLexemes ws
      simp only [hmore, List.length_append] at *
      omega
    obtain ⟨rest, hrest, hback⟩ :=
      moreMembers_of_readsMembers hmembers _ more back hbound hmore
    exact ⟨left, rest, hopen, by simp [readMembers, hquote, hread, bind, Except.bind, hrest],
      hback⟩

theorem readsMembers_of_members? {inner : Reader Value} {depth : Nat}
    (hinner : Complete inner depth) {ws : List (List Char × Written)} :
    ∀ {before after : Members}, Written.members? depth before ws = some after →
      ReadsMembers (readMember inner) ws before after := by
  induction ws with
  | nil =>
    intro before after hafter
    obtain rfl : before = after := by simpa [Written.members?] using hafter
    exact .nil before
  | cons w ws ih =>
    obtain ⟨body, w⟩ := w
    intro before after hafter
    obtain ⟨key, value, hkey, hvalue, hafter⟩ := Written.members?_cons hafter
    exact .cons ((hinner.reads hvalue).readMember hkey before) (ih hafter)

theorem readValueWith_complete {inner? : Option (Reader Value)} {depth : Nat}
    (hinner : ∀ below, depth = below + 1 → ∃ inner, inner? = some inner ∧ Complete inner below) :
    Complete (readValueWith inner?) depth := by
  intro w value text back hvalue htext
  cases w with
  | bare word =>
    have hword : bareValue? word = some value := by rwa [Written.value?_bare] at hvalue
    obtain ⟨rest, hskip, hstops, hback⟩ := exists_of_lexemes_bare htext
    cases word with
    | nil => cases hword
    | cons c word =>
      obtain ⟨hbare, hread⟩ := bareValue?_eq_some_iff.1 hword
      have hc : c ≠ '[' ∧ c ≠ '\x7b' := by
        have hhead := hbare c (by simp)
        constructor <;> rintro rfl <;> exact absurd hhead (by decide)
      refine ⟨rest, ?_, hback⟩
      rw [readValueWith, hskip]
      simpa [hc.1, hc.2] using hread rest hstops
  | quoted body =>
    rw [Written.value?_quoted] at hvalue
    obtain ⟨string, hstring, rfl⟩ := Option.map_eq_some_iff.1 hvalue
    obtain ⟨rest, hskip, -, hback⟩ := exists_of_lexemes_quoted htext
    have hread := (decode?_eq_some_iff.1 hstring).2 rest
    refine ⟨rest, ?_, hback⟩
    rw [readValueWith, hskip]
    simp [readScalar, hread, bind, Except.bind, pure, Except.pure]
  | array ws =>
    obtain ⟨below, values, rfl, hvalues, rfl⟩ := Written.value?_array_iff.1 hvalue
    obtain ⟨inner, rfl, hcomplete⟩ := hinner below rfl
    obtain ⟨left, rest, hskip, hread, hback⟩ :=
      readItems_of_readsItems (readsItems_of_items? hcomplete [] hvalues) htext
    refine ⟨rest, ?_, hback⟩
    rw [readValueWith, hskip]
    simp [hread, bind, Except.bind, pure, Except.pure]
  | object ws =>
    obtain ⟨below, members, rfl, hmembers, rfl⟩ := Written.value?_object_iff.1 hvalue
    obtain ⟨inner, rfl, hcomplete⟩ := hinner below rfl
    obtain ⟨left, rest, hskip, hread, hback⟩ :=
      readMembers_of_readsMembers (readsMembers_of_members? hcomplete hmembers) htext
    refine ⟨rest, ?_, hback⟩
    rw [readValueWith, hskip]
    simp [hread, bind, Except.bind, pure, Except.pure]

/-- **What is written is read**, and nothing else is. -/
theorem readValue_complete (depth : Nat) : Complete (readValue depth) depth := by
  induction depth with
  | zero => exact readValueWith_complete (by simp)
  | succ depth ih => exact readValueWith_complete (by simpa using ih)

/-! ### Whole texts -/

theorem readWhole_of_reads {α : Type} {reader : Reader α} {w : Written} {value : α} {text : String}
    (h : Reads reader w value) (htext : lexemes text.toList = w.lexemes) :
    readWhole reader text = .ok value := by
  obtain ⟨rest, hread, hrest⟩ := h text.toList [] (by rw [htext, List.append_nil])
  simp [readWhole, hread, skipSpace_eq_nil_of_lexemes hrest]

/-- A text is one value exactly if its tokens are those of a written value that stands for it. -/
theorem parse_eq_ok_iff {text : String} {value : Value} :
    Value.parse text = .ok value ↔
      ∃ w : Written, lexemes text.toList = w.lexemes ∧ w.value? maxDepth = some value := by
  constructor
  · intro h
    unfold Value.parse readWhole at h
    dsimp only at h
    split at h
    · cases h
    next found rest hread =>
    split at h
    · next hskip =>
      obtain rfl := Except.ok.inj h
      have hrest : lexemes rest = [] := by rw [← lexemes_skipSpace, hskip, lexemes_nil]
      have hstops : Stops rest := stops_of_skipSpace_nil hskip
      obtain ⟨w, hw, hvalue⟩ := readValue_sound maxDepth _ _ _ hread hstops
      exact ⟨w, by simpa [hrest] using hw, hvalue⟩
    · cases h
  · rintro ⟨w, hw, hvalue⟩
    exact readWhole_of_reads ((readValue_complete maxDepth).reads hvalue) hw

end ProjectSetup.Json
