import ProjectSetup.Proofs.Json.Lexeme

/-!
# Reading one token

Strings, numbers and keywords are read off the front of a text, and what follows the token plays
no part, as long as no bare word goes on there.  Every lemma of this file has one shape: a text
that is read is what was read followed by what is left, and the same is read in front of anything
else.

* `readString_ok`: the same of the body of a string, which `isBody` describes;
* `readScalar_ok`: the same of a number or a keyword, which consists of the characters of `isBare`.
-/

namespace ProjectSetup.Json

/-! ### Strings -/

/-- The text may stand between the quotes of a string: every backslash takes a character with it,
which is no apostrophe, and neither a quote nor a line feed stands alone. -/
def isBody : List Char → Bool
  | [] => true
  | '\x5c' :: c :: body => c != '\x27' && isBody body
  | c :: body => c != '\x22' && c != '\x5c' && c != '\n' && isBody body

theorem isBody_escape {c : Char} {body : List Char} (hc : c ≠ '\x27') (hb : isBody body = true) :
    isBody ('\x5c' :: c :: body) = true := by
  simp [isBody, hc, hb]

theorem isBody_plain {c : Char} {body : List Char} (hq : c ≠ '\x22') (hs : c ≠ '\x5c')
    (hn : c ≠ '\n') (hb : isBody body = true) : isBody (c :: body) = true := by
  rw [isBody]
  · simp [hq, hs, hn, hb]
  · rintro d rest rfl
    exact absurd rfl hs

theorem cutString?_of_isBody {body : List Char} (h : isBody body = true) (tail : List Char) :
    cutString? (body ++ '\x22' :: tail) = some (body, tail) := by
  fun_induction isBody body with
  | case1 => simp [cutString?]
  | case2 c body ih =>
    simp only [Bool.and_eq_true] at h
    simp [cutString?, ih h.2]
  | case3 c body hne ih =>
    simp only [Bool.and_eq_true, bne_iff_ne, ne_eq] at h
    obtain ⟨⟨⟨hq, hs⟩, -⟩, hb⟩ := h
    rw [List.cons_append, cutString?]
    · simp [hq, ih hb]
    · intro d rest hd
      exact absurd hd hs

theorem ne_of_hexValue? {c d : Char} {n : Nat} (hc : hexValue? c = some n)
    (hd : hexValue? d = none) : c ≠ d := by
  rintro rfl
  rw [hd] at hc
  cases hc

theorem isBody_hex {c : Char} {n : Nat} {body : List Char} (h : hexValue? c = some n)
    (hb : isBody body = true) : isBody (c :: body) = true :=
  isBody_plain (ne_of_hexValue? h (by decide)) (ne_of_hexValue? h (by decide))
    (ne_of_hexValue? h (by decide)) hb

theorem readHex_ok {text rest : List Char} {n : Nat} (h : readHex text = .ok (n, rest)) :
    ∃ a b c d, text = a :: b :: c :: d :: rest ∧ hexNumber? a b c d = some n := by
  unfold readHex at h
  split at h
  · next a b c d text =>
    split at h
    · next m hm =>
      obtain ⟨rfl, rfl⟩ : m = n ∧ text = rest := by simpa using h
      exact ⟨a, b, c, d, rfl, hm⟩
    · simp at h
  · split at h <;> simp at h

theorem readHex_of_hexNumber? {a b c d : Char} {n : Nat} (h : hexNumber? a b c d = some n)
    (tail : List Char) : readHex (a :: b :: c :: d :: tail) = .ok (n, tail) := by
  simp [readHex, h]

theorem isBody_hexNumber {a b c d : Char} {n : Nat} {body : List Char}
    (h : hexNumber? a b c d = some n) (hb : isBody body = true) :
    isBody (a :: b :: c :: d :: body) = true := by
  simp only [hexNumber?, bind, Option.bind_eq_some_iff] at h
  obtain ⟨na, ha, nb, hb', nc, hc, nd, hd, -⟩ := h
  exact isBody_hex ha (isBody_hex hb' (isBody_hex hc (isBody_hex hd hb)))

theorem readTrailing_ok {leading : Nat} {text rest : List Char} {c : Char}
    (h : readTrailing leading text = .ok (c, rest)) :
    ∃ half, text = half ++ rest ∧ (∀ body, isBody body = true → isBody (half ++ body) = true) ∧
      ∀ tail, readTrailing leading (half ++ tail) = .ok (c, tail) := by
  unfold readTrailing at h
  split at h
  · simp at h
  · next e text =>
    split at h
    · simp at h
    · next he =>
      obtain rfl : e = '\x5c' := by simpa using he
      split at h
      · simp at h
      · next u text =>
        split at h
        · simp at h
        · next hu =>
          obtain rfl : u = 'u' := by simpa using hu
          split at h
          · simp at h
          · next n more hx =>
            split at h
            · next ht =>
              obtain ⟨hc, rfl⟩ : joinSurrogates leading n = c ∧ more = rest := by simpa using h
              obtain ⟨p, q, r, s, rfl, hn⟩ := readHex_ok hx
              refine ⟨['\x5c', 'u', p, q, r, s], rfl, fun body hb => ?_, fun tail => ?_⟩
              · exact isBody_escape (by decide) (isBody_hexNumber hn hb)
              · simp [readTrailing, readHex_of_hexNumber? hn, ht, hc]
            · simp at h

theorem readUnicode_ok {text rest : List Char} {c : Char}
    (h : readUnicode text = .ok (c, rest)) :
    ∃ code, text = code ++ rest ∧ (∀ body, isBody body = true → isBody (code ++ body) = true) ∧
      ∀ tail, readUnicode (code ++ tail) = .ok (c, tail) := by
  unfold readUnicode at h
  split at h
  · simp at h
  · next n more hx =>
    obtain ⟨p, q, r, s, rfl, hn⟩ := readHex_ok hx
    split at h
    · simp at h
    · next ht =>
      split at h
      · next hl =>
        obtain ⟨half, rfl, hbody, hread⟩ := readTrailing_ok h
        refine ⟨p :: q :: r :: s :: half, rfl, fun body hb => ?_, fun tail => ?_⟩
        · exact isBody_hexNumber hn (hbody body hb)
        · simp [readUnicode, readHex_of_hexNumber? hn, ht, hl, hread]
      · next hl =>
        obtain ⟨hc, rfl⟩ : Char.ofNat n = c ∧ more = rest := by simpa using h
        refine ⟨[p, q, r, s], rfl, fun body hb => isBody_hexNumber hn hb, fun tail => ?_⟩
        simp [readUnicode, readHex_of_hexNumber? hn, ht, hl, hc]

theorem readEscape_ok {text rest : List Char} {d : Char} (h : readEscape text = .ok (d, rest)) :
    ∃ escape, text = escape ++ rest ∧
      (∀ body, isBody body = true → isBody ('\x5c' :: escape ++ body) = true) ∧
      ∀ tail, readEscape (escape ++ tail) = .ok (d, tail) := by
  unfold readEscape at h
  split at h
  · simp at h
  · next c text =>
    split at h
    · next letter hl =>
      obtain ⟨rfl, rfl⟩ : letter = d ∧ text = rest := by simpa using h
      refine ⟨[c], rfl, fun body hb => isBody_escape ?_ hb, fun tail => by simp [readEscape, hl]⟩
      rintro rfl
      rw [show escapeLetter? '\x27' = none by decide] at hl
      cases hl
    · next hl =>
      split at h
      · next hu =>
        obtain rfl : c = 'u' := by simpa using hu
        obtain ⟨code, rfl, hbody, hread⟩ := readUnicode_ok h
        refine ⟨'u' :: code, rfl, fun body hb => isBody_escape (by decide) (hbody body hb),
          fun tail => ?_⟩
        simp [readEscape, hl, hread]
      · simp at h

theorem readString_quote (text : List Char) : readString ('\x22' :: text) = .ok ([], text) := by
  rw [readString]
  simp

theorem readString_escape {text rest : List Char} {d : Char}
    (h : readEscape text = .ok (d, rest)) :
    readString ('\x5c' :: text) = (readString rest).map fun (more, rest) => (d :: more, rest) := by
  rw [readString]
  simp only [beq_iff_eq, Char.reduceEq, ↓reduceIte]
  split
  · next hf =>
    rw [h] at hf
    cases hf
  · next hf =>
    rw [h] at hf
    cases hf
    cases readString rest <;> rfl

theorem readString_plain {c : Char} {text : List Char} (hq : c ≠ '\x22') (hs : c ≠ '\x5c')
    (hc : ¬ c.toNat < 0x20) :
    readString (c :: text) = (readString text).map fun (more, rest) => (c :: more, rest) := by
  rw [readString]
  simp only [beq_iff_eq, hq, hs, hc, ↓reduceIte]
  cases readString text <;> rfl

/-- **Reading a string.**  The induction is over the rounds of the reader. -/
theorem readString_ok {text rest string : List Char} (h : readString text = .ok (string, rest)) :
    ∃ body, text = body ++ '\x22' :: rest ∧ isBody body = true ∧
      ∀ tail, readString (body ++ '\x22' :: tail) = .ok (string, tail) := by
  fun_induction readString text generalizing string rest with
  | case1 => simp at h
  | case2 c text hc =>
    obtain rfl : c = '\x22' := by simpa using hc
    obtain ⟨rfl, rfl⟩ : [] = string ∧ text = rest := by simpa using h
    exact ⟨[], rfl, rfl, fun tail => readString_quote tail⟩
  | case3 => simp at h
  | case4 => simp at h
  | case5 c text _ hc d after hesc _ more left hrest ih =>
    obtain rfl : c = '\x5c' := by simpa using hc
    obtain ⟨rfl, rfl⟩ : d :: more = string ∧ left = rest := by simpa using h
    obtain ⟨escape, rfl, hbody, hread⟩ := readEscape_ok hesc
    obtain ⟨body, rfl, hb, hmore⟩ := ih hrest
    refine ⟨'\x5c' :: escape ++ body, by simp, hbody body hb, fun tail => ?_⟩
    rw [List.cons_append, List.cons_append, List.append_assoc, readString_escape (hread _), hmore]
    rfl
  | case6 => simp at h
  | case7 => simp at h
  | case8 c text hq hs hc more left hrest ih =>
    obtain ⟨rfl, rfl⟩ : c :: more = string ∧ left = rest := by simpa using h
    obtain ⟨body, rfl, hb, hmore⟩ := ih hrest
    have hq' : c ≠ '\x22' := by simpa using hq
    have hs' : c ≠ '\x5c' := by simpa using hs
    refine ⟨c :: body, rfl, isBody_plain hq' hs' ?_ hb, fun tail => ?_⟩
    · rintro rfl
      exact hc (by decide)
    · rw [List.cons_append, readString_plain hq' hs' hc, hmore]
      rfl

/-- What is written between the quotes of a string, if it can be read. -/
def decode? (body : List Char) : Option String :=
  match readString (body ++ ['\x22']) with
  | .ok (string, []) => some (String.ofList string)
  | _ => none

theorem decode?_eq_some_iff {body : List Char} {string : String} :
    decode? body = some string ↔ isBody body = true ∧
      ∀ tail, readString (body ++ '\x22' :: tail) = .ok (string.toList, tail) := by
  constructor
  · intro h
    unfold decode? at h
    split at h
    · next s hs =>
      obtain rfl := Option.some.inj h
      obtain ⟨body', heq, hb, hread⟩ := readString_ok hs
      obtain rfl : body = body' := List.append_cancel_right heq
      exact ⟨hb, by simpa using hread⟩
    · simp at h
  · rintro ⟨-, h⟩
    simp [decode?, h []]

theorem decode?_of_readString {text rest string : List Char}
    (h : readString text = .ok (string, rest)) :
    ∃ body, cutString? text = some (body, rest) ∧ decode? body = some (String.ofList string) := by
  obtain ⟨body, rfl, hb, hread⟩ := readString_ok h
  exact ⟨body, cutString?_of_isBody hb rest, decode?_eq_some_iff.2 ⟨hb, by simpa using hread⟩⟩

/-! ### Numbers -/

theorem isDigit_of_stops {text : List Char} (h : Stops text) :
    ∀ c ∈ text.head?, c.isDigit = false := by
  intro c hc
  by_contra hd
  have := isBare_of_isDigit (eq_true_of_ne_false hd)
  rw [h c hc] at this
  cases this

theorem head?_append_cases {α : Type} {front back : List α} {a : α}
    (h : a ∈ (front ++ back).head?) : a ∈ front.head? ∨ (front = [] ∧ a ∈ back.head?) := by
  cases front with
  | nil => exact .inr ⟨rfl, h⟩
  | cons b front => exact .inl h

theorem ok_of_bind {ε α β : Type} {x : Except ε α} {f : α → Except ε β} {b : β}
    (h : x >>= f = .ok b) : ∃ a, x = .ok a ∧ f a = .ok b := by
  cases x with
  | error e => cases h
  | ok a => exact ⟨a, rfl, h⟩

namespace Numeral

variable {reading : Reading} {text rest : List Char}

theorem scanWhole_ok {whole : List Char} (h : scanWhole reading text = .ok (whole, rest)) :
    text = whole ++ rest ∧ whole ≠ [] ∧ (∀ c ∈ whole, c.isDigit = true) ∧
      ∀ tail, (∀ c ∈ tail.head?, c.isDigit = false) →
        scanWhole reading (whole ++ tail) = .ok (whole, tail) := by
  unfold scanWhole at h
  split at h
  · simp at h
  · next c text =>
    split at h
    · next hc =>
      obtain rfl : c = '0' := by simpa using hc
      have hout : ['0'] = whole ∧ text = rest := by
        cases text with
        | nil => simpa using h
        | cons d text =>
          by_cases hd : d.isDigit = true
          · simp [hd] at h
          · simpa [hd] using h
      obtain ⟨rfl, rfl⟩ := hout
      refine ⟨rfl, by simp, by simp, fun tail ht => ?_⟩
      cases tail with
      | nil => rfl
      | cons d tail => simp [scanWhole, ht d (by simp)]
    · next hc =>
      split at h
      · next hd =>
        obtain ⟨rfl, rfl⟩ : _ = whole ∧ _ = rest := by simpa using h
        have hall : ∀ d ∈ text.takeWhile Char.isDigit, d.isDigit = true :=
          fun d hd => List.mem_takeWhile_imp hd
        refine ⟨by simp, by simp, ?_, fun tail ht => ?_⟩
        · intro d hmem
          rcases List.mem_cons.1 hmem with rfl | hmem
          · exact hd
          · exact hall d hmem
        · simp only [List.cons_append, scanWhole, hc, hd, Bool.false_eq_true, ↓reduceIte]
          rw [takeWhile_append_of_stop hall ht, dropWhile_append_of_stop hall ht]
      · simp at h

theorem scanFraction_ok {fraction : List Char}
    (h : scanFraction reading text = .ok (fraction, rest)) :
    ∃ word, text = word ++ rest ∧ (∀ c ∈ word, isBare c = true) ∧ (∀ c ∈ word.head?, c = '.') ∧
      (fraction = [] → word = []) ∧
      ∀ tail, (∀ c ∈ tail.head?, c.isDigit = false ∧ c ≠ '.') →
        scanFraction reading (word ++ tail) = .ok (fraction, tail) := by
  unfold scanFraction at h
  split at h
  · next text =>
    split at h
    · simp at h
    · next c text =>
      split at h
      · next hd =>
        obtain ⟨rfl, rfl⟩ : _ = fraction ∧ _ = rest := by simpa using h
        have hall : ∀ d ∈ text.takeWhile Char.isDigit, d.isDigit = true :=
          fun d hd => List.mem_takeWhile_imp hd
        refine ⟨'.' :: c :: text.takeWhile Char.isDigit, by simp, ?_, by simp, by simp,
          fun tail ht => ?_⟩
        · intro d hmem
          rcases List.mem_cons.1 hmem with rfl | hmem
          · decide
          · rcases List.mem_cons.1 hmem with rfl | hmem
            · exact isBare_of_isDigit hd
            · exact isBare_of_isDigit (hall d hmem)
        · have ht' : ∀ d ∈ tail.head?, d.isDigit = false := fun d hd => (ht d hd).1
          simp only [List.cons_append, scanFraction, hd, ↓reduceIte]
          rw [takeWhile_append_of_stop hall ht', dropWhile_append_of_stop hall ht']
      · simp at h
  · next hdot =>
    obtain ⟨rfl, rfl⟩ : [] = fraction ∧ text = rest := by simpa using h
    refine ⟨[], rfl, by simp, by simp, fun _ => rfl, fun tail ht => ?_⟩
    rw [List.nil_append]
    unfold scanFraction
    split
    · next t => exact absurd rfl (ht '.' (by simp)).2
    · rfl

theorem scanSign_spelling (text : List Char) :
    ∃ sign, text = sign ++ (scanSign text).2 ∧ (∀ c ∈ sign, isBare c = true) ∧
      ∀ d tail, d.isDigit = true → scanSign (sign ++ d :: tail) = ((scanSign text).1, d :: tail) := by
  unfold scanSign
  split
  · exact ⟨['+'], rfl, List.all_eq_true.1 (by decide), fun d tail _ => rfl⟩
  · exact ⟨['-'], rfl, List.all_eq_true.1 (by decide), fun d tail _ => rfl⟩
  · refine ⟨[], rfl, by simp, fun d tail hd => ?_⟩
    rw [List.nil_append]
    split
    · next heq => cases heq; exact absurd hd (by decide)
    · next heq => cases heq; exact absurd hd (by decide)
    · rfl

theorem scanExponent_ok {exponent : Option (Bool × List Char)}
    (h : scanExponent reading text = .ok (exponent, rest)) :
    ∃ word, text = word ++ rest ∧ (∀ c ∈ word, isBare c = true) ∧
      (∀ c ∈ word.head?, c = 'e' ∨ c = 'E') ∧ (exponent = none → word = []) ∧
      ∀ tail, Stops tail → scanExponent reading (word ++ tail) = .ok (exponent, tail) := by
  unfold scanExponent at h
  split at h
  · obtain ⟨rfl, rfl⟩ : none = exponent ∧ [] = rest := by simpa using h
    refine ⟨[], rfl, by simp, by simp, fun _ => rfl, fun tail ht => ?_⟩
    cases tail with
    | nil => rfl
    | cons c tail =>
      have hc : isBare c = false := ht c (by simp)
      have he : ¬ (c == 'e' || c == 'E') = true := by
        rw [Bool.or_eq_true, beq_iff_eq, beq_iff_eq]
        rintro (rfl | rfl) <;> exact absurd hc (by decide)
      rw [List.nil_append, scanExponent, if_neg he]
  · next c text =>
    split at h
    · next he =>
      have hce : c = 'e' ∨ c = 'E' := by simpa using he
      obtain ⟨sign, htext, hsign, hscan⟩ := scanSign_spelling text
      dsimp only at h
      split at h
      · simp at h
      · next d more hmore =>
        split at h
        · next hd =>
          obtain ⟨rfl, rfl⟩ : _ = exponent ∧ _ = rest := by simpa using h
          have hall : ∀ d ∈ more.takeWhile Char.isDigit, d.isDigit = true :=
            fun d hd => List.mem_takeWhile_imp hd
          refine ⟨c :: sign ++ d :: more.takeWhile Char.isDigit, ?_, ?_, by simpa using hce,
            by simp, fun tail ht => ?_⟩
          · rw [htext, hmore]
            simp
          · intro x hx
            simp only [List.cons_append, List.mem_cons, List.mem_append] at hx
            rcases hx with rfl | hx | rfl | hx
            · rcases hce with rfl | rfl <;> decide
            · exact hsign x hx
            · exact isBare_of_isDigit hd
            · exact isBare_of_isDigit (hall x hx)
          · have ht' := isDigit_of_stops ht
            simp only [List.cons_append, List.append_assoc, scanExponent, he, ↓reduceIte,
              hscan d _ hd, hd]
            rw [takeWhile_append_of_stop hall ht', dropWhile_append_of_stop hall ht']
        · simp at h
    · next he =>
      obtain ⟨rfl, rfl⟩ : none = exponent ∧ c :: text = rest := by simpa using h
      refine ⟨[], rfl, by simp, by simp, fun _ => rfl, fun tail ht => ?_⟩
      cases tail with
      | nil => rfl
      | cons x tail =>
        have hx : isBare x = false := ht x (by simp)
        have he : ¬ (x == 'e' || x == 'E') = true := by
          rw [Bool.or_eq_true, beq_iff_eq, beq_iff_eq]
          rintro (rfl | rfl) <;> exact absurd hx (by decide)
        rw [List.nil_append, scanExponent, if_neg he]

/-- **Reading the spelling of a number.** -/
theorem scan_ok {numeral : Numeral} (h : scan reading text = .ok (numeral, rest)) :
    ∃ word, text = word ++ rest ∧ word ≠ [] ∧ (∀ c ∈ word, isBare c = true) ∧
      (numeral.fraction = [] → numeral.exponent = none → ∀ c ∈ word, c.isDigit = true) ∧
      ∀ tail, Stops tail → scan reading (word ++ tail) = .ok (numeral, tail) := by
  unfold scan at h
  simp only [bind, Except.bind] at h
  split at h
  · simp at h
  next wholeText hwhole =>
  obtain ⟨whole, r₁⟩ := wholeText
  obtain ⟨rfl, hne, hdigits, hread₁⟩ := scanWhole_ok hwhole
  dsimp only at h
  split at h
  · simp at h
  next fractionText hfraction =>
  obtain ⟨fraction, r₂⟩ := fractionText
  obtain ⟨f, rfl, hfb, hf, hf₀, hread₂⟩ := scanFraction_ok hfraction
  dsimp only at h
  split at h
  · simp at h
  next exponentText hexponent =>
  obtain ⟨exponent, r₃⟩ := exponentText
  obtain ⟨e, rfl, heb, he, he₀, hread₃⟩ := scanExponent_ok hexponent
  obtain ⟨rfl, rfl⟩ : _ = numeral ∧ r₃ = rest := by simpa using h
  refine ⟨whole ++ (f ++ e), by simp, by simp [hne], ?_, ?_, fun tail ht => ?_⟩
  · intro c hc
    rw [List.mem_append, List.mem_append] at hc
    rcases hc with hc | hc | hc
    · exact isBare_of_isDigit (hdigits c hc)
    · exact hfb c hc
    · exact heb c hc
  · intro hfr hex
    rw [hf₀ hfr, he₀ hex, List.append_nil, List.append_nil]
    exact hdigits
  · -- what follows a part is the next part, or else the text behind the number
    have hhead : ∀ c ∈ (e ++ tail).head?, c.isDigit = false ∧ c ≠ '.' := by
      intro c hc
      rcases head?_append_cases hc with hc | ⟨-, hc⟩
      · rcases he c hc with rfl | rfl <;> decide
      · refine ⟨isDigit_of_stops ht c hc, ?_⟩
        rintro rfl
        exact absurd (ht _ hc) (by decide)
    have hhead' : ∀ c ∈ (f ++ (e ++ tail)).head?, c.isDigit = false := by
      intro c hc
      rcases head?_append_cases hc with hc | ⟨-, hc⟩
      · rw [hf c hc]
        decide
      · exact (hhead c hc).1
    simp only [scan, bind, Except.bind, List.append_assoc]
    rw [hread₁ _ hhead']
    dsimp only
    rw [hread₂ _ hhead]
    dsimp only
    rw [hread₃ _ ht]

end Numeral

/-! ### Scalars -/

theorem readNumber_ok {minus : Bool} {text rest : List Char} {number : Number}
    (h : readNumber minus text = .ok (number, rest)) :
    ∃ word, text = word ++ rest ∧ word ≠ [] ∧ (∀ c ∈ word, isBare c = true) ∧
      ∀ tail, Stops tail → readNumber minus (word ++ tail) = .ok (number, tail) := by
  unfold readNumber at h
  simp only [bind, Except.bind] at h
  split at h
  · simp at h
  next scanned hscan =>
  obtain ⟨numeral, left⟩ := scanned
  dsimp only at h
  split at h
  · next m hm =>
    obtain ⟨rfl, rfl⟩ : m = number ∧ left = rest := by simpa using h
    obtain ⟨word, rfl, hne, hbare, -, hread⟩ := Numeral.scan_ok hscan
    refine ⟨word, rfl, hne, hbare, fun tail ht => ?_⟩
    simp only [readNumber, bind, Except.bind, hread tail ht, hm]
  · simp at h

theorem readKeyword_ok {keyword text rest : List Char} (h : readKeyword keyword text = .ok rest) :
    text = keyword ++ rest := by
  fun_induction readKeyword keyword text with
  | case1 => simpa using h
  | case2 => simp at h
  | case3 k keyword c text hc ih =>
    rw [ih h, List.cons_append, beq_iff_eq.1 hc]
  | case4 => simp at h

theorem readKeyword_append (keyword tail : List Char) :
    readKeyword keyword (keyword ++ tail) = .ok tail := by
  induction keyword with
  | nil => rfl
  | cons k keyword ih => simpa [readKeyword] using ih

theorem keyword_ok {keyword text rest : List Char} {meaning value : Value}
    (h : (do return (meaning, ← readKeyword keyword text)) = Except.ok (value, rest)) :
    meaning = value ∧ text = keyword ++ rest := by
  simp only [bind, Except.bind] at h
  split at h
  · simp at h
  next left hk =>
  obtain ⟨rfl, rfl⟩ : meaning = value ∧ left = rest := by simpa [pure, Except.pure] using h
  exact ⟨rfl, readKeyword_ok hk⟩

theorem number_ok {minus : Bool} {text rest : List Char} {value : Value}
    (h : (do
      let (number, rest) ← readNumber minus text
      return (Value.number number, rest)) = Except.ok (value, rest)) :
    ∃ number, value = .number number ∧ readNumber minus text = .ok (number, rest) := by
  simp only [bind, Except.bind] at h
  split at h
  · simp at h
  next read hr =>
  obtain ⟨number, left⟩ := read
  obtain ⟨rfl, rfl⟩ : .number number = value ∧ left = rest := by
    simpa [pure, Except.pure] using h
  exact ⟨number, rfl, hr⟩

/-- **Reading a number or a keyword.** -/
theorem readScalar_ok {c : Char} {text rest : List Char} {value : Value} (hq : c ≠ '\x22')
    (h : readScalar c text = .ok (value, rest)) :
    ∃ word, text = word ++ rest ∧ (∀ d ∈ c :: word, isBare d = true) ∧
      ∀ tail, Stops tail → readScalar c (word ++ tail) = .ok (value, tail) := by
  unfold readScalar at h
  split_ifs at h with hn ht hf hm hd hs
  · obtain ⟨rfl, rfl⟩ := keyword_ok h
    refine ⟨_, rfl, ?_, fun tail _ => ?_⟩
    · rw [beq_iff_eq.1 hn]
      exact List.all_eq_true.1 (by decide)
    · simp only [readScalar, hn, ↓reduceIte, readKeyword_append]
      rfl
  · obtain ⟨rfl, rfl⟩ := keyword_ok h
    refine ⟨_, rfl, ?_, fun tail _ => ?_⟩
    · rw [beq_iff_eq.1 ht]
      exact List.all_eq_true.1 (by decide)
    · simp only [readScalar, hn, ht, Bool.false_eq_true, ↓reduceIte, readKeyword_append]
      rfl
  · obtain ⟨rfl, rfl⟩ := keyword_ok h
    refine ⟨_, rfl, ?_, fun tail _ => ?_⟩
    · rw [beq_iff_eq.1 hf]
      exact List.all_eq_true.1 (by decide)
    · simp only [readScalar, hn, ht, hf, Bool.false_eq_true, ↓reduceIte, readKeyword_append]
      rfl
  · obtain ⟨number, rfl, hr⟩ := number_ok h
    obtain ⟨word, rfl, -, hbare, hread⟩ := readNumber_ok hr
    refine ⟨word, rfl, ?_, fun tail htail => ?_⟩
    · rw [beq_iff_eq.1 hm]
      exact List.forall_mem_cons.2 ⟨by decide, hbare⟩
    · simp only [readScalar, hn, ht, hf, hm, Bool.false_eq_true, ↓reduceIte, hread tail htail]
      rfl
  · obtain ⟨number, rfl, hr⟩ := number_ok h
    obtain ⟨word, heq, hne, hbare, hread⟩ := readNumber_ok hr
    cases word with
    | nil => exact absurd rfl hne
    | cons d word =>
      obtain ⟨rfl, rfl⟩ : c = d ∧ text = word ++ rest := by simpa using heq
      refine ⟨word, rfl, hbare, fun tail htail => ?_⟩
      have := hread tail htail
      simp only [readScalar, hn, ht, hf, hm, hd, Bool.false_eq_true, ↓reduceIte]
      rw [← List.cons_append, this]
      rfl
  · exact absurd (beq_iff_eq.1 hs) hq

/-- What a bare word stands for, if it is a number or a keyword. -/
def bareValue? : List Char → Option Value
  | [] => none
  | c :: word =>
    if c = '\x22' then none
    else
      match readScalar c word with
      | .ok (value, []) => some value
      | _ => none

theorem bareValue?_eq_some_iff {c : Char} {word : List Char} {value : Value} :
    bareValue? (c :: word) = some value ↔
      (∀ d ∈ c :: word, isBare d = true) ∧
        ∀ tail, Stops tail → readScalar c (word ++ tail) = .ok (value, tail) := by
  constructor
  · intro h
    simp only [bareValue?] at h
    split_ifs at h with hq
    split at h
    · next v hv =>
      obtain rfl := Option.some.inj h
      obtain ⟨word', heq, hbare, hread⟩ := readScalar_ok hq hv
      obtain rfl : word = word' := by simpa using heq
      exact ⟨hbare, hread⟩
    · simp at h
  · rintro ⟨hbare, hread⟩
    have := hread [] stops_nil
    rw [List.append_nil] at this
    simp [bareValue?, ne_quote_of_isBare (hbare c (by simp)), this]

theorem isBare_of_bareValue? {word : List Char} {value : Value}
    (h : bareValue? word = some value) : word ≠ [] ∧ ∀ c ∈ word, isBare c = true := by
  cases word with
  | nil => simp [bareValue?] at h
  | cons c word => exact ⟨by simp, (bareValue?_eq_some_iff.1 h).1⟩

end ProjectSetup.Json
