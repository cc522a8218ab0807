import Mathlib.Data.List.Chain
import ProjectSetup.Proofs.Json.Written

/-!
# Neighbouring tokens of a value

What may stand right behind a token of a value depends on the token alone: behind the end of a value
a comma or a closing mark, behind an opening mark, a comma or a colon the start of a value, behind a
key a colon, and behind an opening mark also its own closing mark.

* `chain_lexemes`: any two neighbouring tokens of a value are of this kind.
* `mem_marks`: the marks that a value is made of.
-/

namespace ProjectSetup.Json

namespace Lexeme

/-- The token ends a value. -/
inductive EndsValue : Lexeme → Prop
  | quoted (body : List Char) : EndsValue (.quoted body)
  | bare (word : List Char) : EndsValue (.bare word)
  | bracket : EndsValue (.mark ']')
  | brace : EndsValue (.mark '\x7d')

/-- The token starts a value. -/
inductive StartsValue : Lexeme → Prop
  | quoted (body : List Char) : StartsValue (.quoted body)
  | bare (word : List Char) : StartsValue (.bare word)
  | bracket : StartsValue (.mark '[')
  | brace : StartsValue (.mark '\x7b')

/-- The token stands behind an item or member. -/
inductive Closes : Lexeme → Prop
  | comma : Closes (.mark ',')
  | bracket : Closes (.mark ']')
  | brace : Closes (.mark '\x7d')

/-- The second token may stand right behind the first one. -/
inductive Meets : Lexeme → Lexeme → Prop
  | ends {a b : Lexeme} : EndsValue a → Closes b → Meets a b
  | starts {c : Char} {b : Lexeme} : c = '[' ∨ c = '\x7b' ∨ c = ',' ∨ c = ':' → StartsValue b →
    Meets (.mark c) b
  | colon (key : List Char) : Meets (.quoted key) (.mark ':')
  | emptyList : Meets (.mark '[') (.mark ']')
  | emptyObject : Meets (.mark '\x7b') (.mark '\x7d')

/-- Two words do not stand next to each other. -/
theorem not_meets_bare (word word' : List Char) : ¬ Meets (.bare word) (.bare word') := by
  intro h
  cases h with
  | ends _ hcloses => cases hcloses

/-- A comma stands behind the end of a value. -/
theorem Meets.endsValue {a : Lexeme} (h : Meets a (.mark ',')) : EndsValue a := by
  cases h with
  | ends hends => exact hends
  | starts _ hstarts => cases hstarts

/-- A closing mark stands behind the end of a value, or behind the opening mark of its own kind. -/
theorem Meets.endsValue_or {a : Lexeme} {c : Char} (h : Meets a (.mark c))
    (hc : c = ']' ∨ c = '\x7d') :
    EndsValue a ∨ (a = .mark '[' ∧ c = ']') ∨ (a = .mark '\x7b' ∧ c = '\x7d') := by
  cases h with
  | ends hends => exact .inl hends
  | starts _ hstarts => cases hstarts <;> exact absurd hc (by decide)
  | colon => exact absurd hc (by decide)
  | emptyList => exact .inr (.inl ⟨rfl, rfl⟩)
  | emptyObject => exact .inr (.inr ⟨rfl, rfl⟩)

/-- The marks that a value can have. -/
def marks : List Char :=
  ['[', '\x7b', ']', '\x7d', ',', ':']

theorem Meets.mem_marks {a : Lexeme} {c : Char} (h : Meets a (.mark c)) : c ∈ marks := by
  cases h with
  | ends _ hcloses => cases hcloses <;> decide
  | starts _ hstarts => cases hstarts <;> decide
  | colon => decide
  | emptyList => decide
  | emptyObject => decide

end Lexeme

namespace Written

open Lexeme (Closes EndsValue Meets StartsValue)

theorem startsValue_lexemes (w : Written) :
    ∃ first others, w.lexemes = first :: others ∧ StartsValue first := by
  rcases w with word | body | (_ | _) | (_ | ⟨⟨key, value⟩, rest⟩)
  · exact ⟨_, _, rfl, .bare word⟩
  · exact ⟨_, _, rfl, .quoted body⟩
  · exact ⟨_, _, rfl, .bracket⟩
  · exact ⟨_, _, rfl, .bracket⟩
  · exact ⟨_, _, rfl, .brace⟩
  · exact ⟨_, _, rfl, .brace⟩

theorem closes_itemLexemes (ws : List Written) (back : List Lexeme) :
    ∀ b ∈ (itemLexemes ws ++ back).head?, Closes b := by
  cases ws with
  | nil =>
    rintro b ⟨⟩
    exact .bracket
  | cons w ws =>
    rintro b ⟨⟩
    exact .comma

theorem closes_memberLexemes (ws : List (List Char × Written)) (back : List Lexeme) :
    ∀ b ∈ (memberLexemes ws ++ back).head?, Closes b := by
  rcases ws with _ | ⟨⟨key, w⟩, ws⟩
  · rintro b ⟨⟩
    exact .brace
  · rintro b ⟨⟩
    exact .comma

/-- A value stands behind a mark that may start it. -/
theorem chain_mark {c : Char} {w : Written} {back : List Lexeme}
    (hc : c = '[' ∨ c = '\x7b' ∨ c = ',' ∨ c = ':') (h : List.IsChain Meets (w.lexemes ++ back)) :
    List.IsChain Meets (.mark c :: (w.lexemes ++ back)) := by
  obtain ⟨first, others, hw, hfirst⟩ := w.startsValue_lexemes
  refine h.cons fun b hb => ?_
  rw [hw] at hb
  obtain rfl : first = b := by simpa using hb
  exact .starts hc hfirst

/-- A member stands behind a mark that may start it. -/
theorem chain_member {c : Char} {key : List Char} {w : Written} {back : List Lexeme}
    (hc : c = '\x7b' ∨ c = ',') (h : List.IsChain Meets (w.lexemes ++ back)) :
    List.IsChain Meets (.mark c :: .quoted key :: .mark ':' :: (w.lexemes ++ back)) := by
  have hcolon := chain_mark (c := ':') (by decide) h
  have hkey := hcolon.cons (x := .quoted key) fun b hb => by
    obtain rfl : .mark ':' = b := by simpa using hb
    exact .colon key
  refine hkey.cons fun b hb => ?_
  obtain rfl : .quoted key = b := by simpa using hb
  exact .starts (hc.elim (fun h => .inr (.inl h)) fun h => .inr (.inr (.inl h))) (.quoted key)

mutual

/-- **Neighbouring tokens of a value** in front of what may stand behind it. -/
theorem chain_lexemes : ∀ (w : Written) {back : List Lexeme}, List.IsChain Meets back →
    (∀ b ∈ back.head?, Closes b) → List.IsChain Meets (w.lexemes ++ back)
  | .bare word, _, hback, hcloses => hback.cons fun b hb => .ends (.bare word) (hcloses b hb)
  | .quoted body, _, hback, hcloses => hback.cons fun b hb => .ends (.quoted body) (hcloses b hb)
  | .array [], _, hback, hcloses => by
    refine .cons_cons .emptyList (hback.cons fun b hb => ?_)
    exact .ends .bracket (hcloses b hb)
  | .array (w :: ws), back, hback, hcloses => by
    have hitem := chain_lexemes w (chain_itemLexemes ws hback hcloses) (closes_itemLexemes ws back)
    simpa [lexemes] using chain_mark (by decide) hitem
  | .object [], _, hback, hcloses => by
    refine .cons_cons .emptyObject (hback.cons fun b hb => ?_)
    exact .ends .brace (hcloses b hb)
  | .object ((key, w) :: ws), back, hback, hcloses => by
    have hvalue := chain_lexemes w (chain_memberLexemes ws hback hcloses)
      (closes_memberLexemes ws back)
    simpa [lexemes] using chain_member (.inl rfl) hvalue

theorem chain_itemLexemes : ∀ (ws : List Written) {back : List Lexeme}, List.IsChain Meets back →
    (∀ b ∈ back.head?, Closes b) → List.IsChain Meets (itemLexemes ws ++ back)
  | [], _, hback, hcloses => hback.cons fun b hb => .ends .bracket (hcloses b hb)
  | w :: ws, back, hback, hcloses => by
    have hitem := chain_lexemes w (chain_itemLexemes ws hback hcloses) (closes_itemLexemes ws back)
    simpa [itemLexemes] using chain_mark (by decide) hitem

theorem chain_memberLexemes : ∀ (ws : List (List Char × Written)) {back : List Lexeme},
    List.IsChain Meets back → (∀ b ∈ back.head?, Closes b) →
    List.IsChain Meets (memberLexemes ws ++ back)
  | [], _, hback, hcloses => hback.cons fun b hb => .ends .brace (hcloses b hb)
  | (key, w) :: ws, back, hback, hcloses => by
    have hvalue := chain_lexemes w (chain_memberLexemes ws hback hcloses)
      (closes_memberLexemes ws back)
    simpa [memberLexemes] using chain_member (.inr rfl) hvalue

end

/-- Any two neighbouring tokens of a value meet. -/
theorem meets_of_lexemes {w : Written} {a b : Lexeme} {front back : List Lexeme}
    (h : w.lexemes = front ++ a :: b :: back) : Meets a b := by
  have hchain : List.IsChain Meets (w.lexemes ++ []) := chain_lexemes w .nil (by simp)
  rw [List.append_nil, h, List.isChain_append_cons_cons] at hchain
  exact hchain.2.1

/-- A value has no other marks. -/
theorem mem_marks {w : Written} {c : Char} (h : .mark c ∈ w.lexemes) : c ∈ Lexeme.marks := by
  obtain ⟨front, back, heq⟩ := List.append_of_mem h
  rcases List.eq_nil_or_concat front with rfl | ⟨front, a, rfl⟩
  · obtain ⟨first, others, hfirst, hstarts⟩ := w.startsValue_lexemes
    obtain ⟨rfl, -⟩ := List.cons.inj (hfirst.symm.trans heq)
    cases hstarts <;> decide
  · have hplace : w.lexemes = front ++ a :: .mark c :: back := by simpa using heq
    exact (meets_of_lexemes hplace).mem_marks

end Written

end ProjectSetup.Json
