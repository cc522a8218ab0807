import ProjectSetup.Json.Number

/-!
# JSON values

An object is the list of its members in the order in which they were first written.  `insert`
keeps the place of a key that is there already, and `same` compares values without regard to the
order of members.

* `get?_insert`: an inserted member is found under its key, and every other one as before.
-/

namespace ProjectSetup.Json

/-- A JSON value. -/
inductive Value where
  | null
  | bool (value : Bool)
  | number (value : Number)
  | string (text : String)
  | array (items : List Value)
  | object (members : List (String × Value))
deriving Repr

/-- The members of an object, in order. -/
abbrev Members := List (String × Value)

namespace Members

/-- The value under a key. -/
def get? (key : String) : Members → Option Value
  | [] => none
  | (k, v) :: rest => if k = key then some v else get? key rest

/-- Puts a value under a key: in the place of the old value, or at the end. -/
def insert (key : String) (value : Value) : Members → Members
  | [] => [(key, value)]
  | (k, v) :: rest => if k = key then (k, value) :: rest else (k, v) :: insert key value rest

/-- Puts the members of `top` into `base`, one after the other. -/
def overlay (base top : Members) : Members :=
  top.foldl (fun members (key, value) => insert key value members) base

theorem get?_insert (key other : String) (value : Value) (members : Members) :
    get? other (insert key value members) =
      if key = other then some value else get? other members := by
  induction members with
  | nil => simp [insert, get?]
  | cons m rest ih =>
    obtain ⟨k, v⟩ := m
    by_cases hk : k = key
    · subst hk
      by_cases ho : k = other <;> simp [insert, get?, ho]
    · by_cases ho : k = other
      · subst ho
        simp [insert, get?, hk, Ne.symm hk]
      · simp [insert, get?, hk, ho, ih]

end Members

namespace Value

mutual

/-- The values are the same, whatever the order of the members of objects. -/
def same : Value → Value → Bool
  | null, null => true
  | bool a, bool b => a == b
  | number a, number b => a.same b
  | string a, string b => a == b
  | array a, array b => sameItems a b
  | object a, object b => a.length == b.length && sameMembers a b
  | _, _ => false

/-- The items are the same, one by one. -/
def sameItems : List Value → List Value → Bool
  | [], [] => true
  | a :: as, b :: bs => same a b && sameItems as bs
  | _, _ => false

/-- Each of the members has the same value under its key in `other`. -/
def sameMembers : List (String × Value) → Members → Bool
  | [], _ => true
  | (key, value) :: rest, other =>
    (match Members.get? key other with
      | some found => same value found
      | none => false) && sameMembers rest other

end

/-- The value is an object. -/
def isObject : Value → Bool
  | object _ => true
  | _ => false

/-- The text of a string. -/
def string? : Value → Option String
  | string text => some text
  | _ => none

end Value

end ProjectSetup.Json
