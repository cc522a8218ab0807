/-!
# Finite binary floating-point numbers

A finite number of the format binary64 is a sign, a significand below `2 ^ 53` and a power of two.
It is kept in its normal form: the significand is at least `2 ^ 52`, or the exponent is the least
one, `-1074`.  A quotient of natural numbers is rounded to the nearest number of the format, of two
equally near ones to that with the even significand; `ofDecimal?` reads a decimal significand with
a power of ten, going over the rounded power of ten.
-/

namespace ProjectSetup

/-- The number `significand * 2 ^ exponent`, with a sign. -/
structure Binary64 where
  negative : Bool
  significand : Nat
  exponent : Int
deriving Repr, DecidableEq

namespace Binary64

/-- The least exponent of the format. -/
def leastExponent : Int := -1074

/-- The greatest exponent of a finite number. -/
def greatestExponent : Int := 971

/-- The number zero, without a sign. -/
def zero : Binary64 :=
  ⟨false, 0, leastExponent⟩

/-- The same number with the other sign. -/
def negate (x : Binary64) : Binary64 :=
  { x with negative := !x.negative }

/-- The two numbers have the same value: they are the same, or both are zero. -/
def same (x y : Binary64) : Bool :=
  x == y || (x.significand == 0 && y.significand == 0)

/-- The size of the number as a quotient of natural numbers. -/
def quotient (x : Binary64) : Nat × Nat :=
  if 0 ≤ x.exponent then (x.significand * Nat.pow 2 x.exponent.toNat, 1)
  else (x.significand, Nat.pow 2 (-x.exponent).toNat)

/-- `num / den` rounded to the nearest natural number, a half to the even one. -/
def roundHalfEven (num den : Nat) : Nat :=
  let whole := num / den
  let rest := num % den
  if den < 2 * rest ∨ (2 * rest = den ∧ whole % 2 = 1) then whole + 1 else whole

/-- The greatest power of two that is not above `num / den`. -/
def floorLog (num den : Nat) : Int :=
  let guess : Int := (num.log2 : Int) - den.log2
  let reached :=
    if 0 ≤ guess then den * Nat.pow 2 guess.toNat ≤ num
    else den ≤ num * Nat.pow 2 (-guess).toNat
  if reached then guess else guess - 1

/-- `num / den` rounded to a multiple of `2 ^ exponent`: how many times that power. -/
def multiples (num den : Nat) (exponent : Int) : Nat :=
  if 0 ≤ exponent then roundHalfEven num (den * Nat.pow 2 exponent.toNat)
  else roundHalfEven (num * Nat.pow 2 (-exponent).toNat) den

/-- The number nearest to `num / den`, if it is not beyond the format. -/
def ofQuotient? (num den : Nat) : Option Binary64 :=
  if num = 0 then some zero
  else
    let exponent := max (floorLog num den - 52) leastExponent
    let significand := multiples num den exponent
    let x : Binary64 :=
      if significand = 0x20000000000000 then ⟨false, 0x10000000000000, exponent + 1⟩
      else ⟨false, significand, exponent⟩
    if x.exponent ≤ greatestExponent then some x else none

/-- The rounded power of ten; it is in the format up to `308`. -/
def powerOfTen (n : Nat) : Binary64 :=
  (ofQuotient? (Nat.pow 10 n) 1).getD zero

/-- The rounded product of the sizes, if it is not beyond the format. -/
def times? (x y : Binary64) : Option Binary64 :=
  ofQuotient? (x.quotient.1 * y.quotient.1) (x.quotient.2 * y.quotient.2)

/-- The rounded quotient of the sizes; only used where the divisor is at least one. -/
def divide (x y : Binary64) : Binary64 :=
  (ofQuotient? (x.quotient.1 * y.quotient.2) (x.quotient.2 * y.quotient.1)).getD zero

/-- The number divided by `10 ^ n`, in steps of `10 ^ 308`. -/
def scaleDown (x : Binary64) (n : Nat) : Binary64 :=
  if n ≤ 308 then x.divide (powerOfTen n)
  else if x.significand = 0 then x
  else scaleDown (x.divide (powerOfTen 308)) (n - 308)
termination_by n

/-- The number that `significand * 10 ^ exponent` is read as, if it is not beyond the format. -/
def ofDecimal? (significand : Nat) (exponent : Int) : Option Binary64 := do
  let x ← ofQuotient? significand 1
  if exponent < 0 then some (scaleDown x (-exponent).toNat)
  else if exponent ≤ 308 then x.times? (powerOfTen exponent.toNat)
  else if x.significand = 0 then some x
  else none

end Binary64

end ProjectSetup
