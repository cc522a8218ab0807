import ProjectSetup.Json.Printer
import ProjectSetup.Proofs.Json.Scalar

/-!
# Strings and numbers as they are printed

A printed string is decoded as the string that was printed, whatever characters it has, and a
printed integer is read as the integer.  A printed floating-point number always has a point or an
exponent, so that it is read as a floating-point number if it is read at all; `reread` is the
number it is read as.

* `decode?_escaped`, `bareValue?_text_natural`, `bareValue?_text_negative`: what reads back as
  itself.
* `bareValue?_floatText`: what a floating-point number reads back as.
-/

namespace ProjectSetup.Json

/-! ### Strings -/

/-- The four hexadecimal digits of a control character. -/
theorem hexNumber?_hexDigits : ∀ n < 0x20, ∃ a b c d, hexDigits n = [a, b, c, d] ∧
    hexNumber? a b c d = some n ∧ isTrailing n = false ∧ isLeading n = false := by
  intro n hn
  refine ⟨_, _, _, _, rfl, ?_, ?_, ?_⟩
  · revert n
    decide
  · simp only [isTrailing, Bool.and_eq_false_iff, decide_eq_false_iff_not]
    omega
  · simp only [isLeading, Bool.and_eq_false_iff, decide_eq_false_iff_not]
    omega

theorem readEscape_hexDigits {c : Char} (hc : c.toNat < 0x20) (tail : List Char) :
    readEscape ('u' :: (hexDigits c.toNat ++ tail)) = .ok (c, tail) := by
  obtain ⟨x, y, z, w, hdigits, hnumber, htrailing, hleading⟩ := hexNumber?_hexDigits c.toNat hc
  have hu : escapeLetter? 'u' = none := by decide
  have hread : readHex (hexDigits c.toNat ++ tail) = .ok (c.toNat, tail) := by
    rw [hdigits]
    exact readHex_of_hexNumber? hnumber tail
  simp [readEscape, hu, readUnicode, hread, htrailing, hleading]

/-- A character as it is written in a string: it stands for itself, or an escape stands for it. -/
theorem escaped_cases (c : Char) :
    (escaped c = [c] ∧ c ≠ '\x22' ∧ c ≠ '\x5c' ∧ ¬ c.toNat < 0x20) ∨
    ∃ escape, escaped c = '\x5c' :: escape ∧ (∀ tail, readEscape (escape ++ tail) = .ok (c, tail)) ∧
      ∀ body, isBody body = true → isBody ('\x5c' :: escape ++ body) = true := by
  have letter : ∀ d, escaped c = ['\x5c', d] → escapeLetter? d = some c → d ≠ '\x27' →
      ∃ escape, escaped c = '\x5c' :: escape ∧
        (∀ tail, readEscape (escape ++ tail) = .ok (c, tail)) ∧
        ∀ body, isBody body = true → isBody ('\x5c' :: escape ++ body) = true := by
    intro d hd hletter hne
    refine ⟨[d], hd, fun tail => ?_, fun body hbody => isBody_escape hne hbody⟩
    simp [readEscape, hletter]
  by_cases hq : c = '\x22'
  · subst hq
    exact .inr (letter '\x22' (by decide) (by decide) (by decide))
  by_cases hs : c = '\x5c'
  · subst hs
    exact .inr (letter '\x5c' (by decide) (by decide) (by decide))
  by_cases hc : 0x20 ≤ c.toNat
  · exact .inl ⟨by simp [escaped, hq, hs, hc], hq, hs, by omega⟩
  right
  by_cases hb : c = '\x08'
  · subst hb
    exact letter 'b' (by decide) (by decide) (by decide)
  by_cases hf : c = '\x0c'
  · subst hf
    exact letter 'f' (by decide) (by decide) (by decide)
  by_cases hn : c = '\n'
  · subst hn
    exact letter 'n' (by decide) (by decide) (by decide)
  by_cases hr : c = '\r'
  · subst hr
    exact letter 'r' (by decide) (by decide) (by decide)
  by_cases ht : c = '\t'
  · subst ht
    exact letter 't' (by decide) (by decide) (by decide)
  have hlow : c.toNat < 0x20 := by omega
  refine ⟨'u' :: hexDigits c.toNat, by simp [escaped, hq, hs, hc, hb, hf, hn, hr, ht],
    readEscape_hexDigits hlow, fun body hbody => ?_⟩
  obtain ⟨x, y, z, w, hdigits, hnumber, -, -⟩ := hexNumber?_hexDigits c.toNat hlow
  rw [hdigits]
  exact isBody_escape (by decide) (isBody_hexNumber hnumber hbody)

theorem isBody_escaped (chars : List Char) : isBody (chars.flatMap escaped) = true := by
  induction chars with
  | nil => rfl
  | cons c chars ih =>
    rw [List.flatMap_cons]
    rcases escaped_cases c with ⟨hc, hq, hs, hlow⟩ | ⟨escape, hc, -, hbody⟩
    · rw [hc]
      refine isBody_plain hq hs ?_ ih
      rintro rfl
      exact hlow (by decide)
    · rw [hc]
      exact hbody _ ih

theorem readString_escaped (chars tail : List Char) :
    readString (chars.flatMap escaped ++ '\x22' :: tail) = .ok (chars, tail) := by
  induction chars with
  | nil => exact readString_quote tail
  | cons c chars ih =>
    rw [List.flatMap_cons, List.append_assoc]
    rcases escaped_cases c with ⟨hc, hq, hs, hlow⟩ | ⟨escape, hc, hread, -⟩
    · rw [hc, List.cons_append, List.nil_append, readString_plain hq hs hlow, ih]
      rfl
    · rw [hc, List.cons_append, readString_escape (hread _), ih]
      rfl

/-- **A printed string is decoded as the string that was printed.** -/
theorem decode?_escaped (string : String) :
    decode? (string.toList.flatMap escaped) = some string :=
  decode?_eq_some_iff.2 ⟨isBody_escaped _, readString_escaped _⟩

/-! ### Numbers -/

/-- The number that a word spells behind its sign. -/
def wholeNumber? (minus : Bool) (word : List Char) : Option Number :=
  match readNumber minus word with
  | .ok (number, []) => some number
  | _ => none

theorem bareValue?_of_readScalar {c : Char} {word text : List Char} {minus : Bool}
    (hq : c ≠ '\x22')
    (h : readScalar c word = do
      let (number, rest) ← readNumber minus text
      return (.number number, rest)) :
    bareValue? (c :: word) = (wholeNumber? minus text).map .number := by
  rw [bareValue?, if_neg hq, h, wholeNumber?]
  rcases readNumber minus text with fault | ⟨number, _ | ⟨d, rest⟩⟩ <;> rfl

theorem bareValue?_minus (word : List Char) :
    bareValue? ('-' :: word) = (wholeNumber? true word).map .number :=
  bareValue?_of_readScalar (by decide) rfl

theorem ne_of_isDigit {c d : Char} (hc : c.isDigit = true) (hd : d.isDigit = false) : c ≠ d := by
  rintro rfl
  rw [hc] at hd
  cases hd

theorem bareValue?_digit {c : Char} (hc : c.isDigit = true) (word : List Char) :
    bareValue? (c :: word) = (wholeNumber? false (c :: word)).map .number := by
  refine bareValue?_of_readScalar (ne_of_isDigit hc (by decide)) ?_
  simp only [readScalar, beq_iff_eq, ne_of_isDigit hc (show 'n'.isDigit = false by decide),
    ne_of_isDigit hc (show 't'.isDigit = false by decide),
    ne_of_isDigit hc (show 'f'.isDigit = false by decide),
    ne_of_isDigit hc (show '-'.isDigit = false by decide), hc, ↓reduceIte]

theorem head_toDigits_ne_zero {n : Nat} (hn : 0 < n) :
    ∀ c ∈ (Nat.toDigits 10 n).head?, c ≠ '0' := by
  induction n using Nat.strongRecOn with
  | ind n ih =>
    by_cases hlt : n < 10
    · rw [Nat.toDigits_of_lt_base hlt]
      intro c hc
      obtain rfl : n.digitChar = c := by simpa using hc
      rw [Ne, Nat.digitChar_eq_zero]
      omega
    · rw [Nat.toDigits_of_base_le (by decide) (by omega)]
      intro c hc
      rcases head?_append_cases hc with hc | ⟨hnil, -⟩
      · exact ih (n / 10) (by omega) (by omega) c hc
      · exact absurd hnil Nat.toDigits_ne_nil

theorem scanWhole_toDigits (n : Nat) :
    Numeral.scanWhole .kept (Nat.toDigits 10 n) = .ok (Nat.toDigits 10 n, []) := by
  rcases Nat.eq_zero_or_pos n with rfl | hn
  · rfl
  · have hdigits : ∀ c ∈ Nat.toDigits 10 n, c.isDigit = true := fun c hc =>
      Nat.isDigit_of_mem_toDigits (by decide) (by decide) hc
    have hhead := head_toDigits_ne_zero hn
    cases hw : Nat.toDigits 10 n with
    | nil => exact absurd hw Nat.toDigits_ne_nil
    | cons c word =>
      rw [hw] at hdigits hhead
      have hword : ∀ d ∈ word, d.isDigit = true := fun d hd => hdigits d (by simp [hd])
      have hspan : word.takeWhile Char.isDigit = word := List.takeWhile_eq_self_iff.2 hword
      have hdrop : word.dropWhile Char.isDigit = [] := List.dropWhile_eq_nil_iff.2 hword
      simp [Numeral.scanWhole, hhead c (by simp), hdigits c (by simp), hspan, hdrop]

theorem le_ofDigitChars (digits : List Char) (n : Nat) : n ≤ Nat.ofDigitChars 10 digits n := by
  induction digits generalizing n with
  | nil => simp
  | cons d digits ih =>
    rw [Nat.ofDigitChars_cons]
    have := ih (10 * n + (d.toNat - '0'.toNat))
    omega

theorem append_eq_ofDigitChars {bound : Nat} (digits : List Char) (n : Nat)
    (h : Nat.ofDigitChars 10 digits n < bound) :
    Numeral.append bound n digits = (Nat.ofDigitChars 10 digits n, []) := by
  induction digits generalizing n with
  | nil => simp [Numeral.append]
  | cons d digits ih =>
    rw [Nat.ofDigitChars_cons, Nat.mul_comm] at h ⊢
    have hle := le_ofDigitChars digits (n * 10 + (d.toNat - '0'.toNat))
    rw [Numeral.append, Numeral.digitValue, if_pos (by omega), ih _ h]

theorem integer?_toDigits {n : Nat} (hn : n < Numeral.wordBound) (minus : Bool) :
    Numeral.integer? minus (Nat.toDigits 10 n) =
      if minus then if h : 0 < n ∧ n ≤ 0x8000000000000000 then some (.negative n h) else none
      else if h : n < 0x10000000000000000 then some (.natural n h) else none := by
  have happend : Numeral.append Numeral.wordBound 0 (Nat.toDigits 10 n) = (n, []) := by
    rw [append_eq_ofDigitChars _ _ (by simpa using hn), Nat.ofDigitChars_ten_toDigits]
  simp [Numeral.integer?, happend]

theorem wholeNumber?_toDigits {n : Nat} {minus : Bool} {number : Number}
    (h : Numeral.integer? minus (Nat.toDigits 10 n) = some number) :
    wholeNumber? minus (Nat.toDigits 10 n) = some number := by
  have hnumber : Numeral.number minus ⟨Nat.toDigits 10 n, [], none⟩ = .ok number := by
    simp [Numeral.number, h]
  simp [wholeNumber?, readNumber, Numeral.scan, scanWhole_toDigits, Numeral.scanFraction,
    Numeral.scanExponent, bind, Except.bind, hnumber]

theorem bareValue?_toDigits (n : Nat) :
    bareValue? (Nat.toDigits 10 n) = (wholeNumber? false (Nat.toDigits 10 n)).map .number := by
  cases hw : Nat.toDigits 10 n with
  | nil => exact absurd hw Nat.toDigits_ne_nil
  | cons c word =>
    refine bareValue?_digit (Nat.isDigit_of_mem_toDigits (n := n) ?_ ?_ (hw ▸ List.mem_cons_self ..))
      word <;> decide

/-- **A printed natural number is read as itself.** -/
theorem bareValue?_text_natural {n : Nat} (h : n < 0x10000000000000000) :
    bareValue? (Number.natural n h).text = some (.number (.natural n h)) := by
  have hint : Numeral.integer? false (Nat.toDigits 10 n) = some (.natural n h) := by
    rw [integer?_toDigits h]
    simp [h]
  rw [Number.text, bareValue?_toDigits, wholeNumber?_toDigits hint]
  rfl

/-- **A printed negative integer is read as itself.** -/
theorem bareValue?_text_negative {n : Nat} (h : 0 < n ∧ n ≤ 0x8000000000000000) :
    bareValue? (Number.negative n h).text = some (.number (.negative n h)) := by
  have hword : n < Numeral.wordBound := by
    have := h.2
    rw [Numeral.wordBound]
    omega
  have hint : Numeral.integer? true (Nat.toDigits 10 n) = some (.negative n h) := by
    rw [integer?_toDigits hword]
    simp [h]
  rw [Number.text, bareValue?_minus, wholeNumber?_toDigits hint]
  rfl

/-! ### Floating-point numbers -/

/-- Digits, then a point or the letter of an exponent. -/
def IsFloatSize (text : List Char) : Prop :=
  ∃ digits c more, text = digits ++ c :: more ∧ (∀ d ∈ digits, d.isDigit = true) ∧
    (c = '.' ∨ c = 'e')

theorem isDigit_of_mem_shortest {x : Binary64} :
    ∀ c ∈ x.shortest.digits, c.isDigit = true := by
  intro c hc
  unfold Binary64.shortest at hc
  dsimp only at hc
  generalize hfound : List.findSome? _ _ = found at hc
  cases found with
  | none => cases hc
  | some decimal =>
    obtain ⟨n, -, hn⟩ := List.exists_of_findSome?_eq_some hfound
    obtain ⟨count, -, rfl⟩ := Option.map_eq_some_iff.1 hn
    simp only [Option.getD_some, Binary64.decimalOf, List.mem_reverse] at hc
    have hmem := (List.dropWhile_suffix _).mem hc
    exact Nat.isDigit_of_mem_toDigits (by decide) (by decide) (List.mem_reverse.1 hmem)

theorem isBare_toDigits (n : Nat) : ∀ c ∈ Nat.toDigits 10 n, isBare c = true :=
  fun _ hc => isBare_of_isDigit (Nat.isDigit_of_mem_toDigits (by decide) (by decide) hc)

theorem isBare_positional {d : Decimal} (hd : ∀ c ∈ d.digits, c.isDigit = true) :
    ∀ c ∈ Number.positional d, isBare c = true := by
  have hdigits : ∀ c ∈ d.digits, isBare c = true := fun c hc => isBare_of_isDigit (hd c hc)
  have hzeros : ∀ n, ∀ c ∈ List.replicate n '0', isBare c = true := by
    intro n c hc
    rw [(List.mem_replicate.1 hc).2]
    decide
  have hzero : isBare '0' = true := by decide
  have hpoint : isBare '.' = true := by decide
  unfold Number.positional
  dsimp only
  split_ifs
  · exact List.forall_mem_append.2
      ⟨List.forall_mem_cons.2 ⟨hzero, List.forall_mem_cons.2 ⟨hpoint, hzeros _⟩⟩, hdigits⟩
  · exact List.forall_mem_append.2
      ⟨List.forall_mem_append.2 ⟨hdigits, hzeros _⟩, List.all_eq_true.1 (by decide)⟩
  · rw [List.forall_mem_append, List.forall_mem_cons]
    exact ⟨fun c hc => hdigits c (List.mem_of_mem_take hc), hpoint,
      fun c hc => hdigits c (List.mem_of_mem_drop hc)⟩

theorem isBare_scientific {d : Decimal} (hd : ∀ c ∈ d.digits, c.isDigit = true) :
    ∀ c ∈ Number.scientific d, isBare c = true := by
  obtain ⟨digits, exponent⟩ := d
  have hdigits : ∀ c ∈ digits, isBare c = true := fun c hc => isBare_of_isDigit (hd c hc)
  have hsign : isBare (if exponent < 0 then '-' else '+') = true := by split_ifs <;> decide
  unfold Number.scientific
  dsimp only
  rw [List.forall_mem_append, List.forall_mem_cons, List.forall_mem_cons]
  refine ⟨?_, by decide, hsign, isBare_toDigits _⟩
  rcases digits with _ | ⟨first, _ | ⟨second, more⟩⟩
  · exact hdigits
  · exact hdigits
  · rw [List.forall_mem_cons] at hdigits ⊢
    rw [List.forall_mem_cons]
    exact ⟨hdigits.1, by decide, hdigits.2⟩

theorem isFloatSize_positional {d : Decimal} (hd : ∀ c ∈ d.digits, c.isDigit = true) :
    IsFloatSize (Number.positional d) := by
  unfold Number.positional
  dsimp only
  split_ifs
  · exact ⟨['0'], '.', _, rfl, List.all_eq_true.1 (by decide), .inl rfl⟩
  · refine ⟨d.digits ++ List.replicate (d.exponent.toNat + 1 - d.digits.length) '0', '.', ['0'], rfl,
      ?_, .inl rfl⟩
    intro c hc
    rcases List.mem_append.1 hc with hc | hc
    · exact hd c hc
    · rw [(List.mem_replicate.1 hc).2]
      decide
  · exact ⟨d.digits.take (d.exponent.toNat + 1), '.', _, rfl,
      fun c hc => hd c (List.mem_of_mem_take hc), .inl rfl⟩

theorem isFloatSize_scientific {d : Decimal} (hd : ∀ c ∈ d.digits, c.isDigit = true) :
    IsFloatSize (Number.scientific d) := by
  obtain ⟨digits, exponent⟩ := d
  unfold Number.scientific
  rcases digits with _ | ⟨first, _ | ⟨second, more⟩⟩
  · exact ⟨[], 'e', _, rfl, by simp, .inr rfl⟩
  · exact ⟨[first], 'e', _, rfl, hd, .inr rfl⟩
  · exact ⟨[first], '.', _, rfl, by simpa using hd first (by simp), .inl rfl⟩

/-- A floating-point number is written with a point or an exponent, maybe behind a sign. -/
theorem floatText_cases (x : Binary64) :
    ∃ size, IsFloatSize size ∧ (∀ c ∈ size, isBare c = true) ∧
      (Number.floatText x = size ∨ Number.floatText x = '-' :: size) := by
  have hsize : ∃ size, IsFloatSize size ∧ (∀ c ∈ size, isBare c = true) ∧
      (if x.significand = 0 then ['0', '.', '0'] else
        if -5 ≤ x.shortest.exponent ∧ x.shortest.exponent ≤ 15 then Number.positional x.shortest
        else Number.scientific x.shortest) = size := by
    split_ifs
    · exact ⟨_, ⟨['0'], '.', ['0'], rfl, List.all_eq_true.1 (by decide), .inl rfl⟩,
        List.all_eq_true.1 (by decide), rfl⟩
    · exact ⟨_, isFloatSize_positional isDigit_of_mem_shortest,
        isBare_positional isDigit_of_mem_shortest, rfl⟩
    · exact ⟨_, isFloatSize_scientific isDigit_of_mem_shortest,
        isBare_scientific isDigit_of_mem_shortest, rfl⟩
  obtain ⟨size, hfloat, hbare, hsize⟩ := hsize
  refine ⟨size, hfloat, hbare, ?_⟩
  unfold Number.floatText
  dsimp only
  rw [hsize]
  cases x.negative
  · exact .inl rfl
  · exact .inr rfl

/-- A printed number can be cut out of a text. -/
theorem isBare_text (number : Number) :
    number.text ≠ [] ∧ ∀ c ∈ number.text, isBare c = true := by
  cases number with
  | natural n _ => exact ⟨Nat.toDigits_ne_nil, isBare_toDigits n⟩
  | negative n _ => exact ⟨by simp [Number.text], List.forall_mem_cons.2 ⟨by decide, isBare_toDigits n⟩⟩
  | floating x =>
    obtain ⟨size, ⟨digits, c, more, hsize, -, -⟩, hbare, htext | htext⟩ := floatText_cases x
    · rw [Number.text, htext]
      exact ⟨by simp [hsize], hbare⟩
    · rw [Number.text, htext]
      exact ⟨by simp, List.forall_mem_cons.2 ⟨by decide, hbare⟩⟩

theorem number_of_isFloat {minus : Bool} {numeral : Numeral} {number : Number}
    (h : numeral.number minus = .ok number)
    (hfloat : ¬ (numeral.fraction = [] ∧ numeral.exponent = none)) :
    ∃ x, number = .floating x := by
  unfold Numeral.number at h
  have hnone : ¬ ((numeral.fraction.isEmpty && numeral.exponent.isNone) = true) := by
    simpa using hfloat
  rw [if_neg hnone] at h
  cases hvalue : numeral.float with
  | error left => simp [hvalue, Except.map] at h
  | ok x =>
    simp only [hvalue, Except.map, Except.ok.injEq] at h
    exact ⟨_, h.symm⟩

theorem wholeNumber?_of_isFloatSize {minus : Bool} {size : List Char} {number : Number}
    (hsize : IsFloatSize size) (h : wholeNumber? minus size = some number) :
    ∃ x, number = .floating x := by
  unfold wholeNumber? at h
  split at h
  · next hread =>
    obtain rfl := Option.some.inj h
    obtain ⟨⟨numeral, rest⟩, hscan, hnumber⟩ := ok_of_bind hread
    obtain ⟨word, rfl, -, -, hint, -⟩ := Numeral.scan_ok hscan
    dsimp only at hnumber
    split at hnumber
    · next found hfound =>
      obtain ⟨rfl, rfl⟩ := Prod.mk.inj (Except.ok.inj hnumber)
      refine number_of_isFloat hfound fun ⟨hfraction, hexponent⟩ => ?_
      obtain ⟨digits, c, more, heq, -, hc⟩ := hsize
      rw [List.append_nil] at heq
      have hmem : c ∈ word := by rw [heq]; simp
      have hdigit := hint hfraction hexponent c hmem
      rcases hc with rfl | rfl <;> exact absurd hdigit (by decide)
    · cases hnumber
  · cases h

/-- A printed floating-point number is read as a floating-point number, if it is read. -/
theorem bareValue?_floatText_floating {x : Binary64} {value : Value}
    (h : bareValue? (Number.floatText x) = some value) :
    ∃ y, value = .number (.floating y) := by
  obtain ⟨size, hsize, -, htext | htext⟩ := floatText_cases x
  · rw [htext] at h
    obtain ⟨digits, c, more, rfl, hdigits, hc⟩ := hsize
    rcases digits with _ | ⟨d, digits⟩
    · rcases hc with rfl | rfl <;> cases h
    · rw [List.cons_append, bareValue?_digit (hdigits d (by simp))] at h
      obtain ⟨number, hnumber, rfl⟩ := Option.map_eq_some_iff.1 h
      obtain ⟨y, rfl⟩ := wholeNumber?_of_isFloatSize ⟨d :: digits, c, more, rfl, hdigits, hc⟩ hnumber
      exact ⟨y, rfl⟩
  · rw [htext, bareValue?_minus] at h
    obtain ⟨number, hnumber, rfl⟩ := Option.map_eq_some_iff.1 h
    obtain ⟨y, rfl⟩ := wholeNumber?_of_isFloatSize hsize hnumber
    exact ⟨y, rfl⟩

/-- The floating-point number that a printed one is read as, if it is read. -/
def reread? (x : Binary64) : Option Binary64 :=
  match bareValue? (Number.floatText x) with
  | some (.number (.floating y)) => some y
  | _ => none

/-- **What a printed floating-point number is read as.** -/
theorem bareValue?_floatText (x : Binary64) :
    bareValue? (Number.floatText x) = (reread? x).map fun y => .number (.floating y) := by
  unfold reread?
  cases h : bareValue? (Number.floatText x) with
  | none => rfl
  | some value =>
    obtain ⟨y, rfl⟩ := bareValue?_floatText_floating h
    rfl

end ProjectSetup.Json
