import ProjectSetup.Binary64.Basic

/-!
# The shortest decimal that reads back

`Binary64.shortest` gives, for a number that is not zero, the fewest decimal digits that are nearer
to the number than to any other of the format, and of those the nearest ones; a tie goes to the
even last digit.  For each count of digits the two neighbours of the number on the grid with so
many digits are tried, in exact arithmetic: if some point of the grid reads back, one of the two
does.
-/

namespace ProjectSetup

/-- Decimal digits and the power of ten of the first one. -/
structure Decimal where
  digits : List Char
  exponent : Int
deriving Repr, DecidableEq

namespace Binary64

/-- The exponent of the first decimal digit of `num / den`, both positive. -/
def leadingExponent (num den : Nat) : Int :=
  if den ≤ num then (Nat.toDigits 10 (num / den)).length - 1
  else -((Nat.toDigits 10 ((den + num - 1) / num - 1)).length : Int)

/-- `count * 10 ^ power` rounds to the number: it lies between the middles to the two neighbours
of the number, the middles counting if the significand is even. -/
def readsBack (x : Binary64) (count : Nat) (power : Int) : Bool :=
  -- all sizes in quarters of the last place of the significand
  let low :=
    if x.significand = 0x10000000000000 ∧ leastExponent < x.exponent then 4 * x.significand - 1
    else 4 * x.significand - 2
  let high := 4 * x.significand + 2
  let quarter : Int := x.exponent - 2
  let point := count * Nat.pow 10 power.toNat * Nat.pow 2 (-quarter).toNat
  let unit := Nat.pow 10 (-power).toNat * Nat.pow 2 quarter.toNat
  if x.significand % 2 = 0 then low * unit ≤ point && point ≤ high * unit
  else low * unit < point && point < high * unit

/-- The neighbour of the number on the grid of multiples of `10 ^ power` that reads back and is
nearest. -/
def nearestOnGrid? (x : Binary64) (power : Int) : Option Nat :=
  let num := x.quotient.1 * Nat.pow 10 (-power).toNat
  let den := x.quotient.2 * Nat.pow 10 power.toNat
  let below := num / den
  let rest := num % den
  let upFirst := den < 2 * rest ∨ (2 * rest = den ∧ below % 2 = 1)
  let tries := if upFirst then [below + 1, below] else [below, below + 1]
  tries.find? fun count => readsBack x count power

/-- The digits of `count * 10 ^ power` without the zeros they end with. -/
def decimalOf (count : Nat) (power : Int) : Decimal :=
  let digits := Nat.toDigits 10 count
  ⟨(digits.reverse.dropWhile (· == '0')).reverse, power + digits.length - 1⟩

/-- The shortest decimal that reads back as the number, which is not zero; seventeen digits are
always enough. -/
def shortest (x : Binary64) : Decimal :=
  let first := leadingExponent x.quotient.1 x.quotient.2
  let found := (List.range 17).findSome? fun (n : Nat) =>
    (nearestOnGrid? x (first - n)).map fun count => decimalOf count (first - n)
  found.getD ⟨[], 0⟩

end Binary64

end ProjectSetup
