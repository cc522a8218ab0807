import ProjectSetup.Json.Error

/-!
# Numbers as they are spelled

A numeral is the digits of its integer part, those of its fraction and an exponent.  Scanning one
checks its spelling only; `Numeral.number` then gives its value.  The significand is kept below
`2 ^ 64`: from the first integer digit that does not fit, integer digits only count a power of ten
each, and a fraction ends at the first digit that does not fit.
-/

namespace ProjectSetup.Json

/-- A number as it is spelled; without a fraction or an exponent it is an integer. -/
structure Numeral where
  whole : List Char
  fraction : List Char
  exponent : Option (Bool × List Char)
deriving Repr, DecidableEq

/-- How strictly a text is read: values that are kept are decoded, values that are passed over
are only checked for their form. -/
inductive Reading where
  | kept
  | skipped
deriving Repr, DecidableEq

namespace Numeral

/-- The cause reported where a number ends before a digit it needs. -/
def endCause : Reading → Cause
  | .kept => .endInValue
  | .skipped => .invalidNumber

/-- The digits of the integer part. -/
def scanWhole (reading : Reading) : List Char → Except Fault (List Char × List Char)
  | [] => .error (.here (endCause reading) [])
  | c :: text =>
    if c == '0' then
      match text with
      | [] => .ok (['0'], [])
      | d :: rest =>
        if d.isDigit then .error (.next .invalidNumber (d :: rest)) else .ok (['0'], d :: rest)
    else if c.isDigit then
      .ok (c :: text.takeWhile Char.isDigit, text.dropWhile Char.isDigit)
    else .error (.next .invalidNumber (c :: text))

/-- The digits of the fraction, if there is a point. -/
def scanFraction (reading : Reading) : List Char → Except Fault (List Char × List Char)
  | '.' :: text =>
    match text with
    | [] => .error (.here (endCause reading) [])
    | c :: rest =>
      if c.isDigit then .ok (c :: rest.takeWhile Char.isDigit, rest.dropWhile Char.isDigit)
      else .error (.next .invalidNumber (c :: rest))
  | text => .ok ([], text)

/-- The sign of an exponent, true for minus. -/
def scanSign : List Char → Bool × List Char
  | '+' :: text => (false, text)
  | '-' :: text => (true, text)
  | text => (false, text)

/-- The exponent, if there is one. -/
def scanExponent (reading : Reading) :
    List Char → Except Fault (Option (Bool × List Char) × List Char)
  | [] => .ok (none, [])
  | c :: text =>
    if c == 'e' || c == 'E' then
      let (minus, text) := scanSign text
      match text with
      | [] => .error (.here (endCause reading) [])
      | d :: rest =>
        if d.isDigit then
          .ok (some (minus, d :: rest.takeWhile Char.isDigit), rest.dropWhile Char.isDigit)
        else .error (.next .invalidNumber (d :: rest))
    else .ok (none, c :: text)

/-- The numeral a text starts with, after its sign. -/
def scan (reading : Reading) (text : List Char) : Except Fault (Numeral × List Char) := do
  let (whole, text) ← scanWhole reading text
  let (fraction, text) ← scanFraction reading text
  let (exponent, text) ← scanExponent reading text
  .ok (⟨whole, fraction, exponent⟩, text)

/-- The value of a digit. -/
def digitValue (c : Char) : Nat :=
  c.toNat - '0'.toNat

/-- Puts digits behind a number as long as it stays below `bound`; the second part is the digits
that are left. -/
def append (bound : Nat) : Nat → List Char → Nat × List Char
  | n, [] => (n, [])
  | n, d :: digits =>
    if n * 10 + digitValue d < bound then append bound (n * 10 + digitValue d) digits
    else (n, d :: digits)

/-- Significands are below `2 ^ 64`. -/
def wordBound : Nat := 0x10000000000000000

/-- Exponents are below `2 ^ 31`. -/
def exponentBound : Nat := 0x80000000

/-- The significand and the power of ten of the part before the exponent. -/
def significand (numeral : Numeral) : Nat × Int :=
  let (whole, beyond) := append wordBound 0 numeral.whole
  let (all, dropped) := append wordBound whole numeral.fraction
  (all, (beyond.length : Int) - (numeral.fraction.length - dropped.length : Nat))

/-- The floating-point value of a numeral without its sign; where it is beyond the format, how
many digits of the exponent are left when that is found out. -/
def float (numeral : Numeral) : Except Nat Binary64 :=
  let (all, power) := numeral.significand
  let ofPower (power : Int) : Except Nat Binary64 :=
    match Binary64.ofDecimal? all power with
    | some x => .ok x
    | none => .error 0
  match numeral.exponent with
  | none => ofPower power
  | some (minus, digits) =>
    match append exponentBound 0 digits with
    | (exponent, []) => ofPower (if minus then power - exponent else power + exponent)
    | (_, _ :: left) => if minus || all == 0 then .ok .zero else .error left.length

/-- The sign put to a number. -/
def signed (minus : Bool) (x : Binary64) : Binary64 :=
  if minus then x.negate else x

/-- The integer that the digits spell, if it is in range; zero has no negative. -/
def integer? (minus : Bool) (digits : List Char) : Option Number :=
  match append wordBound 0 digits with
  | (_, _ :: _) => none
  | (value, []) =>
    if minus then
      if h : 0 < value ∧ value ≤ 0x8000000000000000 then some (.negative value h) else none
    else if h : value < 0x10000000000000000 then some (.natural value h)
    else none

/-- The value of a numeral with a sign in front, true for minus: an integer if it is spelled as
one and is in range, else a floating-point number. -/
def number (minus : Bool) (numeral : Numeral) : Except Nat Number :=
  let integer? :=
    if numeral.fraction.isEmpty && numeral.exponent.isNone then integer? minus numeral.whole
    else none
  match integer? with
  | some number => .ok number
  | none => numeral.float.map fun x => .floating (signed minus x)

end Numeral

end ProjectSetup.Json
