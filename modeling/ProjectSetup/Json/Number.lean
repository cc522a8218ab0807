import ProjectSetup.Binary64.Shortest

/-!
# Numbers of a JSON text

A number is of one of three kinds: a natural number below `2 ^ 64`, a negative integer down to
`-2 ^ 63`, or a floating-point number.  Numbers of different kinds are different.  A floating-point
number is written with the fewest digits that read back, positionally where its first digit stands
for a power of ten between `-5` and `15`, and always with a point or an exponent.
-/

namespace ProjectSetup.Json

/-- A number; a negative integer is given by its size. -/
inductive Number where
  | natural (value : Nat) (inRange : value < 0x10000000000000000)
  | negative (size : Nat) (inRange : 0 < size ∧ size ≤ 0x8000000000000000)
  | floating (value : Binary64)
deriving Repr, DecidableEq

namespace Number

/-- The numbers are of one kind and have the same value. -/
def same : Number → Number → Bool
  | natural a _, natural b _ => a == b
  | negative a _, negative b _ => a == b
  | floating a, floating b => a.same b
  | _, _ => false

/-- A decimal in positional notation. -/
def positional (d : Decimal) : List Char :=
  if d.exponent < 0 then
    '0' :: '.' :: List.replicate (-d.exponent - 1).toNat '0' ++ d.digits
  else
    let whole := d.exponent.toNat + 1
    if d.digits.length ≤ whole then
      d.digits ++ List.replicate (whole - d.digits.length) '0' ++ ['.', '0']
    else d.digits.take whole ++ '.' :: d.digits.drop whole

/-- A decimal with an exponent, which always has a sign. -/
def scientific (d : Decimal) : List Char :=
  let mantissa := match d.digits with
    | first :: second :: more => first :: '.' :: second :: more
    | digits => digits
  mantissa ++ 'e' :: (if d.exponent < 0 then '-' else '+') :: Nat.toDigits 10 d.exponent.natAbs

/-- A floating-point number as it is written. -/
def floatText (x : Binary64) : List Char :=
  let size :=
    if x.significand = 0 then ['0', '.', '0']
    else
      let d := x.shortest
      if -5 ≤ d.exponent ∧ d.exponent ≤ 15 then positional d else scientific d
  if x.negative then '-' :: size else size

/-- A number as it is written. -/
def text : Number → List Char
  | natural value _ => Nat.toDigits 10 value
  | negative size _ => '-' :: Nat.toDigits 10 size
  | floating value => floatText value

end Number

end ProjectSetup.Json
