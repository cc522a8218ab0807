import Mathlib.Data.List.TakeWhile
import ProjectSetup.ConfigModule.Token
import ProjectSetup.Proofs.Json.Scalar
import ProjectSetup.Proofs.Text.Search

/-!
# Cutting the source of a config module

What the tokens of a source are, told by the piece the source starts with: a blank character, a
comment, a string, a word or a single character.  The tokens of the rest go on behind it, so that
the tokens of a whole source are found from its end.

`Gap` is what may stand between two tokens: blank characters and comments.  `tokenize_gap` and
`tokenize_bare` say what becomes of a gap and of a number or keyword.
-/

namespace ProjectSetup.ConfigModule

open Json (isBare isSpace)

theorem tokenize_eq_map {c : Char} {text rest : List Char} {token : Token}
    (h : nextToken c text = .ok (token, rest)) :
    tokenize (c :: text) = (tokenize rest).map (token :: ·) := by
  rw [tokenize]
  split
  next why hwhy => cases h.symm.trans hwhy
  next found left hfound =>
    cases h.symm.trans hfound
    rfl

theorem tokenize_cons {c : Char} {text rest : List Char} {token : Token} {tokens : List Token}
    (h : nextToken c text = .ok (token, rest)) (hrest : tokenize rest = .ok tokens) :
    tokenize (c :: text) = .ok (token :: tokens) := by
  rw [tokenize_eq_map h, hrest]
  rfl

theorem tokenize_error {c : Char} {text : List Char} {why : Unreadable}
    (h : nextToken c text = .error why) : tokenize (c :: text) = .error why := by
  rw [tokenize]
  split
  next found hfound =>
    cases h.symm.trans hfound
    rfl
  next found left hfound => cases h.symm.trans hfound

theorem nextSignificant?_significant {token : Token} (h : token.isSignificant = true)
    (tokens : List Token) : nextSignificant? (token :: tokens) = some token :=
  List.find?_cons_of_pos h

theorem nextSignificant?_skipped {token : Token} (h : token.isSignificant = false)
    (tokens : List Token) : nextSignificant? (token :: tokens) = nextSignificant? tokens :=
  List.find?_cons_of_neg (by simp [h])

/-! ### Characters -/

theorem isBlank_of_isSpace {c : Char} (h : isSpace c = true) : Text.isBlank c = true := by
  rcases Json.isSpace_cases h with rfl | rfl | rfl | rfl <;> decide

/-- The code points of the blank characters. -/
def blankCodes : List Nat :=
  [0x9, 0xA, 0xB, 0xC, 0xD, 0x20, 0x85, 0xA0, 0x1680, 0x2000, 0x2001, 0x2002, 0x2003, 0x2004,
    0x2005, 0x2006, 0x2007, 0x2008, 0x2009, 0x200A, 0x2028, 0x2029, 0x202F, 0x205F, 0x3000]

theorem mem_blankCodes_of_isBlank {c : Char} (h : Text.isBlank c = true) :
    c.toNat ∈ blankCodes := by
  simp only [Text.isBlank, Bool.or_eq_true, beq_iff_eq, Bool.and_eq_true,
    decide_eq_true_eq] at h
  simp only [blankCodes, List.mem_cons, List.not_mem_nil, or_false]
  omega

theorem isWordChar_of_isBlank {c : Char} (h : Text.isBlank c = true) :
    Text.isWordChar c = false := by
  have hcodes : ∀ n ∈ blankCodes, Text.isWordChar (Char.ofNat n) = false := by decide +kernel
  have := hcodes _ (mem_blankCodes_of_isBlank h)
  rwa [Char.ofNat_toNat] at this

theorem isBlank_of_isWordStart {c : Char} (h : Text.isWordStart c = true) :
    Text.isBlank c = false := by
  rw [Bool.eq_false_iff]
  intro hb
  have := isWordChar_of_isBlank hb
  rw [Text.isWordChar_of_isWordStart h] at this
  cases this

theorem toNat_of_isBare {c : Char} (h : isBare c = true) : 0x2B ≤ c.toNat ∧ c.toNat ≤ 0x7A := by
  have hcases : c.isAlpha = true ∨ c.isDigit = true ∨ c = '+' ∨ c = '-' ∨ c = '.' := by
    simpa [isBare, Char.isAlphanum, or_assoc] using h
  rcases hcases with h | h | rfl | rfl | rfl
  · have hrange : (65 ≤ c.val ∧ c.val ≤ 90) ∨ (97 ≤ c.val ∧ c.val ≤ 122) := by
      rcases Bool.or_eq_true_iff.1 h with h | h
      · have hupper : decide (65 ≤ c.val ∧ c.val ≤ 90) = true := h
        exact .inl (of_decide_eq_true hupper)
      · have hlower : (decide (97 ≤ c.val) && decide (c.val ≤ 122)) = true := h
        exact .inr (by simpa using hlower)
    have hval : c.toNat = c.val.toNat := rfl
    simp only [UInt32.le_iff_toNat_le, UInt32.reduceToNat] at hrange
    omega
  · simp [Char.isDigit, UInt32.le_iff_toNat_le] at h
    omega
  · decide
  · decide
  · decide

theorem isBlank_of_isBare {c : Char} (h : isBare c = true) : Text.isBlank c = false := by
  have hrange := toNat_of_isBare h
  rw [Bool.eq_false_iff]
  intro hb
  simp only [Text.isBlank, Bool.or_eq_true, beq_iff_eq, Bool.and_eq_true,
    decide_eq_true_eq] at hb
  omega

/-- A character of a class is none that is not of the class. -/
theorem ne_of_class {p : Char → Bool} {c d : Char} (hc : p c = true) (hd : p d = false) : c ≠ d := by
  rintro rfl
  rw [hc] at hd
  cases hd

/-- Where a backslash takes neither the end nor a character with it, there is none. -/
theorem ne_backslash {c : Char} {text : List Char} (hlast : c = '\x5c' → text = [] → False)
    (hpair : ∀ d more, c = '\x5c' → text = d :: more → False) : c ≠ '\x5c' := by
  rintro rfl
  cases text with
  | nil => exact hlast rfl rfl
  | cons d text => exact hpair d text rfl rfl

/-! ### Single tokens -/

/-- What a source that starts with a character is cut into: a token and the rest, or nothing. -/
inductive Cut : Char → List Char → Except Unreadable (Token × List Char) → Prop
  | blank {c : Char} {text : List Char} : Text.isBlank c = true → Cut c text (.ok (.blank c, text))
  | quoted {c : Char} {text body rest : List Char} : c = '\x27' ∨ c = '\x22' →
    scanQuoted? c text = some (body, rest) → Cut c text (.ok (.quoted c body, rest))
  | openString {c : Char} {text : List Char} : c = '\x27' ∨ c = '\x22' →
    scanQuoted? c text = none → Cut c text (.error .openString)
  | template {text : List Char} : Cut '\x60' text (.error .templateLiteral)
  | line {text : List Char} : Cut '/' ('/' :: text)
      (.ok (.comment ('/' :: ('/' :: text).takeWhile (· != '\n')),
        ('/' :: text).dropWhile (· != '\n')))
  | block {text body rest : List Char} : Text.splitFirst? ['*', '/'] text = some (body, rest) →
    Cut '/' ('*' :: text) (.ok (.comment ('/' :: '*' :: body ++ ['*', '/']), rest))
  | openComment {text : List Char} : Text.splitFirst? ['*', '/'] text = none →
    Cut '/' ('*' :: text) (.error .openComment)
  | comma {text : List Char} : Cut ',' text (.ok (.comma, text))
  | word {c : Char} {text : List Char} : Text.isWordStart c = true →
    Cut c text (.ok (.word (c :: text.takeWhile Text.isWordChar), text.dropWhile Text.isWordChar))
  | other {c : Char} {text : List Char} : Text.isBlank c = false → c ≠ '\x27' → c ≠ '\x22' →
    c ≠ '\x60' → c ≠ ',' → Text.isWordStart c = false →
    (c = '/' → ∀ d ∈ text.head?, d ≠ '/' ∧ d ≠ '*') → Cut c text (.ok (.other c, text))

theorem cut_nextToken (c : Char) (text : List Char) : Cut c text (nextToken c text) := by
  unfold nextToken
  split_ifs with hblank hquote htemplate hslash hcomma hword
  · exact .blank hblank
  · have hc : c = '\x27' ∨ c = '\x22' := by simpa using hquote
    cases hscan : scanQuoted? c text with
    | none => exact .openString hc hscan
    | some cut => exact .quoted hc hscan
  · obtain rfl := beq_iff_eq.1 htemplate
    exact .template
  · obtain rfl := beq_iff_eq.1 hslash
    split
    · exact .line
    · next text =>
      cases hsplit : Text.splitFirst? ['*', '/'] text with
      | none => exact .openComment hsplit
      | some cut => exact .block hsplit
    · next hline hblock =>
      refine .other (by decide) (by decide) (by decide) (by decide) (by decide) (by decide) ?_
      rintro - d hd
      obtain ⟨more, rfl⟩ := List.head?_eq_some_iff.1 hd
      constructor
      · rintro rfl
        exact hline more rfl
      · rintro rfl
        exact hblock more rfl
  · obtain rfl := beq_iff_eq.1 hcomma
    exact .comma
  · exact .word hword
  · simp only [Bool.or_eq_true, beq_iff_eq, not_or] at hquote htemplate hslash hcomma
    exact .other (by simpa using hblank) hquote.1 hquote.2 htemplate hcomma (by simpa using hword)
      fun h => absurd h hslash

/-- What a token that is cut out of a source is made of. -/
inductive Token.IsCut : Token → Prop
  | blank {c : Char} : Text.isBlank c = true → IsCut (.blank c)
  | comment (text : List Char) : IsCut (.comment text)
  | word {c : Char} {name : List Char} : Text.isWordStart c = true →
    (∀ d ∈ name, Text.isWordChar d = true) → IsCut (.word (c :: name))
  | quoted {quote : Char} {text body rest : List Char} :
    scanQuoted? quote text = some (body, rest) → IsCut (.quoted quote body)
  | comma : IsCut .comma
  | other {c : Char} : Text.isBlank c = false → c ≠ '\x22' → IsCut (.other c)

theorem isCut_nextToken {c : Char} {text rest : List Char} {token : Token}
    (h : nextToken c text = .ok (token, rest)) : token.IsCut := by
  have hcut := cut_nextToken c text
  rw [h] at hcut
  cases hcut with
  | blank hblank => exact .blank hblank
  | quoted _ hscan => exact .quoted hscan
  | line => exact .comment _
  | block => exact .comment _
  | comma => exact .comma
  | word hword => exact .word hword fun d hd => List.mem_takeWhile_imp hd
  | other hblank _ hquote => exact .other hblank hquote

theorem isCut_tokenize {text : List Char} {tokens : List Token} (h : tokenize text = .ok tokens) :
    ∀ token ∈ tokens, token.IsCut := by
  fun_induction tokenize text generalizing tokens with
  | case1 =>
    obtain rfl := Except.ok.inj h
    simp
  | case2 => cases h
  | case3 c text token rest hnext _ ih =>
    cases hrest : tokenize rest with
    | error why =>
      rw [hrest] at h
      cases h
    | ok others =>
      rw [hrest] at h
      obtain rfl := Except.ok.inj h
      exact List.forall_mem_cons.2 ⟨isCut_nextToken hnext, ih hrest⟩

theorem nextToken_blank {c : Char} (h : Text.isBlank c = true) (text : List Char) :
    nextToken c text = .ok (.blank c, text) := by
  unfold nextToken
  rw [if_pos h]

theorem nextToken_quoted {quote : Char} {text body rest : List Char}
    (hq : quote = '\x27' ∨ quote = '\x22') (h : scanQuoted? quote text = some (body, rest)) :
    nextToken quote text = .ok (.quoted quote body, rest) := by
  rcases hq with rfl | rfl
  · unfold nextToken
    rw [if_neg (by decide), if_pos (by decide), h]
  · unfold nextToken
    rw [if_neg (by decide), if_pos (by decide), h]

theorem nextToken_word {c : Char} (hb : Text.isBlank c = false) (hw : Text.isWordStart c = true)
    {name rest : List Char} (hn : ∀ d ∈ name, Text.isWordChar d = true)
    (hr : ∀ d ∈ rest.head?, Text.isWordChar d = false) :
    nextToken c (name ++ rest) = .ok (.word (c :: name), rest) := by
  have h₁ : c ≠ '\x27' := ne_of_class hw (by decide)
  have h₂ : c ≠ '\x22' := ne_of_class hw (by decide)
  have h₃ : c ≠ '\x60' := ne_of_class hw (by decide)
  have h₄ : c ≠ '/' := ne_of_class hw (by decide)
  have h₅ : c ≠ ',' := ne_of_class hw (by decide)
  simp only [nextToken, hb, h₁, h₂, h₃, h₄, h₅, hw, beq_iff_eq, Bool.or_eq_true, or_self,
    Bool.false_eq_true, ↓reduceIte]
  rw [Json.takeWhile_append_of_stop hn hr, Json.dropWhile_append_of_stop hn hr]

theorem nextToken_other {c : Char} {text : List Char} (hblank : Text.isBlank c = false)
    (h₁ : c ≠ '\x27') (h₂ : c ≠ '\x22') (h₃ : c ≠ '\x60') (h₄ : c ≠ ',')
    (hword : Text.isWordStart c = false)
    (hslash : c = '/' → ∀ d ∈ text.head?, d ≠ '/' ∧ d ≠ '*') :
    nextToken c text = .ok (.other c, text) := by
  have hcut := cut_nextToken c text
  generalize nextToken c text = found at hcut
  cases hcut with
  | blank h => cases hblank.symm.trans h
  | quoted hquote | openString hquote => exact absurd hquote (not_or.2 ⟨h₁, h₂⟩)
  | template => exact absurd rfl h₃
  | line => exact absurd rfl (hslash rfl '/' rfl).1
  | block | openComment => exact absurd rfl (hslash rfl '*' rfl).2
  | comma => exact absurd rfl h₄
  | word h => cases hword.symm.trans h
  | other => rfl

theorem nextToken_bare {c : Char} (hc : isBare c = true) (hw : Text.isWordStart c = false)
    (text : List Char) : nextToken c text = .ok (.other c, text) :=
  nextToken_other (isBlank_of_isBare hc) (ne_of_class hc (by decide)) (ne_of_class hc (by decide))
    (ne_of_class hc (by decide)) (ne_of_class hc (by decide)) hw
    fun h => absurd h (ne_of_class hc (by decide))

/-! ### Comments and gaps -/

/-- A comment goes to the first mark of its end; no such mark is made of the body and the star
behind it. -/
theorem splitFirst?_close {body : List Char} (h : Text.occursIn ['*', '/'] body = false)
    (rest : List Char) :
    Text.splitFirst? ['*', '/'] (body ++ '*' :: '/' :: rest) = some (body, rest) := by
  rw [Text.splitFirst?_eq_some_iff (by simp)]
  refine ⟨by simp, ?_⟩
  rintro ⟨before, after, hin⟩
  rw [Text.occursIn_eq_false_iff] at h
  rcases List.eq_nil_or_concat after with rfl | ⟨front, c, rfl⟩
  · rw [List.append_nil] at hin
    have hends : (before ++ ['*']) ++ ['/'] = body ++ ['*'] := by simpa using hin
    have := (List.append_inj' hends rfl).2
    simp at this
  · rw [List.concat_eq_append, ← List.append_assoc] at hin
    exact h ⟨before, front, (List.append_inj' hin rfl).1⟩

theorem nextToken_block {body : List Char} (h : Text.occursIn ['*', '/'] body = false)
    (rest : List Char) :
    nextToken '/' ('*' :: body ++ '*' :: '/' :: rest) =
      .ok (.comment ('/' :: '*' :: body ++ ['*', '/']), rest) := by
  unfold nextToken
  rw [if_neg (by decide), if_neg (by decide), if_neg (by decide), if_pos (by decide)]
  simp only [List.cons_append, splitFirst?_close h]

theorem nextToken_line {body rest : List Char} (h : '\n' ∉ body)
    (hr : ∀ c ∈ rest.head?, c = '\n') :
    nextToken '/' ('/' :: body ++ rest) = .ok (.comment ('/' :: '/' :: body), rest) := by
  have hb : ∀ c ∈ '/' :: body, (c != '\n') = true := by
    intro c hc
    rcases List.mem_cons.1 hc with rfl | hc
    · decide
    · rw [bne_iff_ne]
      rintro rfl
      exact h hc
  have hr' : ∀ c ∈ rest.head?, (c != '\n') = false := by
    intro c hc
    rw [hr c hc]
    decide
  unfold nextToken
  rw [if_neg (by decide), if_neg (by decide), if_neg (by decide), if_pos (by decide)]
  have htake := Json.takeWhile_append_of_stop hb hr'
  have hdrop := Json.dropWhile_append_of_stop hb hr'
  simp only [List.cons_append] at htake hdrop ⊢
  rw [htake, hdrop]

/-- What may stand between two tokens: blank characters of the class, and comments; a comment that
goes to the end of its line takes a line feed behind it. -/
inductive Gap (p : Char → Bool) : List Char → Prop
  | nil : Gap p []
  | blank {c : Char} {gap : List Char} : p c = true → Gap p gap → Gap p (c :: gap)
  | block {body gap : List Char} : Text.occursIn ['*', '/'] body = false → Gap p gap →
    Gap p ('/' :: '*' :: body ++ '*' :: '/' :: gap)
  | line {body gap : List Char} : '\n' ∉ body → Gap p gap →
    Gap p ('/' :: '/' :: body ++ '\n' :: gap)

/-- The class holds blank characters only, and the line feed is one of them. -/
structure IsBlankClass (p : Char → Bool) : Prop where
  blank : ∀ c, p c = true → Text.isBlank c = true
  lineFeed : p '\n' = true

theorem isBlankClass_isSpace : IsBlankClass isSpace :=
  ⟨fun _ h => isBlank_of_isSpace h, by decide⟩

theorem isBlankClass_isBlank : IsBlankClass Text.isBlank :=
  ⟨fun _ h => h, by decide⟩

/-- **Gaps leave blank characters only**, and they do not count when the next token is asked
for. -/
theorem tokenize_gap {p : Char → Bool} (hp : IsBlankClass p) {gap : List Char} (h : Gap p gap) :
    ∃ blanks, (∀ c ∈ blanks, p c = true) ∧ ∀ rest tokens, tokenize rest = .ok tokens →
      ∃ all, tokenize (gap ++ rest) = .ok all ∧ jsonText all = blanks ++ jsonText tokens ∧
        nextSignificant? all = nextSignificant? tokens := by
  induction h with
  | nil => exact ⟨[], by simp, fun rest tokens ht => ⟨tokens, ht, rfl, rfl⟩⟩
  | @blank c gap hc _ ih =>
    obtain ⟨blanks, hblanks, ih⟩ := ih
    refine ⟨c :: blanks, List.forall_mem_cons.2 ⟨hc, hblanks⟩, fun rest tokens ht => ?_⟩
    obtain ⟨all, hall, htext, hnext⟩ := ih rest tokens ht
    refine ⟨.blank c :: all, tokenize_cons (nextToken_blank (hp.blank c hc) _) hall, ?_, ?_⟩
    · rw [jsonText, htext]
      rfl
    · rw [nextSignificant?_skipped rfl, hnext]
  | @block body gap hbody _ ih =>
    obtain ⟨blanks, hblanks, ih⟩ := ih
    refine ⟨blanks, hblanks, fun rest tokens ht => ?_⟩
    obtain ⟨all, hall, htext, hnext⟩ := ih rest tokens ht
    refine ⟨.comment ('/' :: '*' :: body ++ ['*', '/']) :: all, ?_, ?_, ?_⟩
    · simpa using tokenize_cons (nextToken_block hbody (gap ++ rest)) hall
    · rw [jsonText, htext]
      rfl
    · rw [nextSignificant?_skipped rfl, hnext]
  | @line body gap hbody _ ih =>
    obtain ⟨blanks, hblanks, ih⟩ := ih
    refine ⟨'\n' :: blanks, List.forall_mem_cons.2 ⟨hp.lineFeed, hblanks⟩,
      fun rest tokens ht => ?_⟩
    obtain ⟨all, hall, htext, hnext⟩ := ih rest tokens ht
    have hfeed := tokenize_cons (nextToken_blank (hp.blank _ hp.lineFeed) (gap ++ rest)) hall
    refine ⟨.comment ('/' :: '/' :: body) :: .blank '\n' :: all, ?_, ?_, ?_⟩
    · simpa using tokenize_cons (nextToken_line hbody (by simp)) hfeed
    · rw [jsonText, jsonText, htext]
      rfl
    · rw [nextSignificant?_skipped rfl, nextSignificant?_skipped rfl, hnext]

/-- No word goes on where a gap and then no word character stands. -/
theorem isWordChar_head_of_gap {p : Char → Bool} (hp : IsBlankClass p) {gap : List Char}
    (h : Gap p gap) {c : Char} (hc : Text.isWordChar c = false) (rest : List Char) :
    ∀ d ∈ (gap ++ c :: rest).head?, Text.isWordChar d = false := by
  cases h with
  | nil =>
    rintro d hd
    cases hd
    exact hc
  | blank hblank _ =>
    rintro d hd
    cases hd
    exact isWordChar_of_isBlank (hp.blank _ hblank)
  | block _ _ =>
    rintro d hd
    cases hd
    decide
  | line _ _ =>
    rintro d hd
    cases hd
    decide

/-! ### Numbers and keywords -/

/-- **A number or keyword stays as it is**, if no colon follows. -/
theorem tokenize_bare {word rest : List Char} {tokens : List Token}
    (hword : ∀ c ∈ word, isBare c = true) (ht : tokenize rest = .ok tokens)
    (hr : ∀ c ∈ rest.head?, Text.isWordChar c = false)
    (hnext : nextSignificant? tokens ≠ some (.other ':')) :
    ∃ all, tokenize (word ++ rest) = .ok all ∧ jsonText all = word ++ jsonText tokens ∧
      nextSignificant? all ≠ some (.other ':') ∧
      (word ≠ [] → ∃ token, nextSignificant? all = some token ∧
        ∀ c, token = .other c → isBare c = true) := by
  induction hlen : word.length using Nat.strongRecOn generalizing word with
  | ind n ih =>
    cases word with
    | nil => exact ⟨tokens, ht, rfl, hnext, fun h => absurd rfl h⟩
    | cons c word =>
      subst hlen
      have hc := hword c (by simp)
      cases hw : Text.isWordStart c with
      | false =>
        obtain ⟨all, hall, htext, hcolon, -⟩ :=
          ih word.length (by simp) (fun d hd => hword d (by simp [hd])) rfl
        refine ⟨.other c :: all, tokenize_cons (nextToken_bare hc hw _) hall, ?_, ?_, fun _ => ?_⟩
        · rw [jsonText, htext]
          rfl
        · rw [nextSignificant?_significant rfl]
          intro h
          obtain rfl : c = ':' := by simpa using h
          exact absurd hc (by decide)
        · refine ⟨.other c, nextSignificant?_significant rfl all, ?_⟩
          rintro d h
          obtain rfl : c = d := by simpa using h
          exact hc
      | true =>
        -- the word takes as many characters as it can, and the rest is cut on
        obtain ⟨all, hall, htext, hcolon, -⟩ :=
          ih (word.dropWhile Text.isWordChar).length
            (by have := length_dropWhile_le Text.isWordChar word; simp only [List.length_cons]; omega)
            (fun d hd => hword d (by simp [(List.dropWhile_suffix _).mem hd])) rfl
        have hsplit : word ++ rest =
            word.takeWhile Text.isWordChar ++ (word.dropWhile Text.isWordChar ++ rest) := by
          rw [← List.append_assoc, List.takeWhile_append_dropWhile]
        have hhead : ∀ d ∈ (word.dropWhile Text.isWordChar ++ rest).head?,
            Text.isWordChar d = false := by
          intro d hd
          rcases Json.head?_append_cases hd with hd | ⟨-, hd⟩
          · exact Json.head?_dropWhile_eq_false _ _ d hd
          · exact hr d hd
        have hname : ∀ d ∈ word.takeWhile Text.isWordChar, Text.isWordChar d = true :=
          fun d hd => List.mem_takeWhile_imp hd
        have htoken := nextToken_word (isBlank_of_isBare hc) hw hname hhead
        rw [← hsplit] at htoken
        refine ⟨.word (c :: word.takeWhile Text.isWordChar) :: all, tokenize_cons htoken hall,
          ?_, ?_, fun _ => ?_⟩
        · rw [jsonText, Token.jsonText, if_neg (by simpa using hcolon), htext]
          simp only [List.cons_append, ← List.append_assoc, List.takeWhile_append_dropWhile]
        · rw [nextSignificant?_significant rfl]
          simp
        · refine ⟨_, nextSignificant?_significant rfl all, ?_⟩
          rintro d ⟨⟩

end ProjectSetup.ConfigModule
