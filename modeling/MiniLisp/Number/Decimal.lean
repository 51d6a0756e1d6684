import MiniLisp.Number.Binary64

/-!
# Decimals

A decimal is a whole coefficient times a power of ten. Reading a number from a decimal rounds once;
writing a number takes the decimal with the fewest digits that reads back as the number, and of
several the nearest. Both directions share `Binary64.ofDecimal`.
-/

namespace MiniLisp

/-- The number `coefficient * 10 ^ exponent`. -/
structure Decimal where
  coefficient : Nat
  exponent : Int
deriving DecidableEq, Repr

namespace Binary64

/-! ## From decimals -/

/-- The number of the given sign nearest to a decimal. -/
def ofDecimal (negative : Bool) (d : Decimal) : Binary64 :=
  ofUnits negative (d.coefficient * Nat.pow 10 d.exponent.toNat * unitsPerOne)
    (Nat.pow 10 (-d.exponent).toNat)

/-! ## To decimals -/

/-- The exponent `p` for which `10 ^ (p - 1) ≤ x < 10 ^ p`, where `x` is a positive number of
units. A unit is more than `10 ^ -324`, so that many places show its first digit. -/
def decimalScale (units : Nat) : Int :=
  ((Nat.toDigits 10 (units * Nat.pow 10 324 / unitsPerOne)).length : Int) - 324

/-- The two decimals of `digits` digits next to the absolute value of `x`, the nearer one first. Of
two equally near ones the greater comes first. -/
def neighbours (x : Binary64) (digits : Nat) : List Decimal :=
  let scale := decimalScale x.units
  let exponent := scale - digits
  let n := x.units * Nat.pow 10 (-exponent).toNat
  let d := unitsPerOne * Nat.pow 10 exponent.toNat
  let below : Decimal := ⟨n / d, exponent⟩
  let above : Decimal :=
    if n / d + 1 = Nat.pow 10 digits then ⟨1, scale⟩ else ⟨n / d + 1, exponent⟩
  if d ≤ 2 * (n % d) then [above, below] else [below, above]

/-- All digits of the absolute value of a finite number. -/
def exactDecimal (x : Binary64) : Decimal :=
  ⟨x.units * Nat.pow 5 1074, -1074⟩

/-- The decimal with the fewest digits that reads back as the absolute value of `x`. Seventeen
digits are enough for every finite number. -/
def shortest (x : Binary64) : Decimal :=
  if x.isZero then ⟨0, 0⟩
  else
    let readsBack (d : Decimal) : Bool := ofDecimal x.negative d = x
    ((List.range 17).findSome? fun i => (x.neighbours (i + 1)).find? readsBack).getD x.exactDecimal

end Binary64

/-! ## Positional text -/

/-- A decimal in positional notation, without an exponent. There is at least one digit before the
point, and a point only if there are digits behind it. -/
def Decimal.toChars (d : Decimal) : List Char :=
  let digits := Nat.toDigits 10 d.coefficient
  let places := (-d.exponent).toNat
  if places = 0 then digits ++ List.replicate d.exponent.toNat '0'
  else
    let padded := List.replicate (places + 1 - digits.length) '0' ++ digits
    let whole := padded.length - places
    padded.take whole ++ '.' :: padded.drop whole

/-- The text of a number: its sign and its shortest decimal. A number without a fraction ends in
`.0`, so that it is not taken for an integer. -/
def Binary64.toChars (x : Binary64) : List Char :=
  if x.isNaN then "NaN".toList
  else
    (if x.negative then ['-'] else []) ++
      (if x.isInfinite then "Infinity".toList
        else x.shortest.toChars ++ (if x.hasFraction then [] else ".0".toList))

end MiniLisp
