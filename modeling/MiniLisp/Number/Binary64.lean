/-!
# Binary64 numbers

A number is a sign and 63 further bits, the *magnitude*. Magnitudes below `infinity` are the finite
numbers; they are ordered as the numbers are, and each is a whole multiple of the least positive
number, `2 ^ -1074`, which is the *unit*. Sums, products and quotients of finite numbers are exact
fractions of units; one function, `roundUnits`, brings such a fraction to the nearest magnitude.

* `unitsOf` and `roundUnits` lead from magnitudes to units and back.
* `add`, `sub`, `mul` and `div` compute exactly and round once.
* `ofInt` and `truncate` lead from and to whole numbers.

Powers are written with `Nat.pow`: the sign for powers means another function where algebra is
imported.
-/

namespace MiniLisp

/-- A binary64 number: its sign bit and the remaining 63 bits read as one natural number. -/
structure Binary64 where
  negative : Bool
  magnitude : Nat
  magnitude_lt : magnitude < Nat.pow 2 63 := by decide
deriving DecidableEq

namespace Binary64

/-! ## Representation -/

/-- The number whose 64 bits, read as a natural number, are `bits`. -/
def ofBits (bits : UInt64) : Binary64 where
  negative := decide (Nat.pow 2 63 ≤ bits.toNat)
  magnitude := bits.toNat % Nat.pow 2 63
  magnitude_lt := Nat.mod_lt _ (by decide)

/-- The 64 bits of a number. -/
def toBits (x : Binary64) : UInt64 :=
  UInt64.ofNat ((if x.negative then Nat.pow 2 63 else 0) + x.magnitude)

/-- The magnitude of the infinities: the least one that is not finite. -/
def infinity : Nat := 2047 * Nat.pow 2 52

/-- Whether `x` is neither an infinity nor a NaN. -/
def isFinite (x : Binary64) : Bool := decide (x.magnitude < infinity)

/-- Whether `x` is one of the two infinities. -/
def isInfinite (x : Binary64) : Bool := decide (x.magnitude = infinity)

/-- Whether `x` is not a number. -/
def isNaN (x : Binary64) : Bool := decide (infinity < x.magnitude)

/-- Whether `x` is one of the two zeros. -/
def isZero (x : Binary64) : Bool := decide (x.magnitude = 0)

/-- The zero of a sign. -/
def zero (negative : Bool) : Binary64 where
  negative
  magnitude := 0

/-- The infinity of a sign. -/
def inf (negative : Bool) : Binary64 where
  negative
  magnitude := infinity

/-- The result of an operation that has none: a quiet NaN. -/
def nan : Binary64 where
  negative := true
  magnitude := infinity + Nat.pow 2 51

/-- The quiet NaN with the sign and the payload of `x`. -/
def quiet (x : Binary64) : Binary64 where
  negative := x.negative
  magnitude := infinity + Nat.pow 2 51 + x.magnitude % Nat.pow 2 51
  magnitude_lt := by
    have hlt := Nat.mod_lt x.magnitude (by decide : 0 < Nat.pow 2 51)
    simp only [infinity, Nat.pow_eq] at hlt ⊢
    omega

/-- The number with the other sign. -/
def neg (x : Binary64) : Binary64 := { x with negative := !x.negative }

/-! ## Units -/

/-- How many units of `2 ^ -1074` a finite magnitude holds. The upper bits, `m / 2 ^ 52`, are zero
for the numbers below `2 ^ -1022`, which are as dense as the units; above, they say how often the
distance between neighbours doubled, and the leading bit of the significand is left out. -/
def unitsOf (m : Nat) : Nat :=
  let scale := m / Nat.pow 2 52
  ((if scale = 0 then 0 else Nat.pow 2 52) + m % Nat.pow 2 52) * Nat.pow 2 (scale - 1)

/-- How many units make the number one. -/
def unitsPerOne : Nat := Nat.pow 2 1074

/-- The whole number nearest to `n / d`, and of two that are equally near the even one. -/
def roundHalfEven (n d : Nat) : Nat :=
  let q := n / d
  let twice := 2 * (n % d)
  if twice < d ∨ (twice = d ∧ q % 2 = 0) then q else q + 1

/-- The magnitude nearest to `n / d` units, and of two that are equally near the even one. With the
scale `k` the significand has 53 bits, or fewer next to zero; a significand that rounds up to
`2 ^ 53` carries into the scale by itself. What lies beyond the greatest finite magnitude becomes
infinite. -/
def roundUnits (n d : Nat) : Nat :=
  let k := (n / d).log2 - 52
  min infinity (k * Nat.pow 2 52 + roundHalfEven n (d * Nat.pow 2 k))

theorem roundUnits_lt (n d : Nat) : roundUnits n d < Nat.pow 2 63 :=
  Nat.lt_of_le_of_lt (Nat.min_le_left _ _) (by decide)

/-- The number of the given sign nearest to `n / d` units. -/
def ofUnits (negative : Bool) (n d : Nat) : Binary64 where
  negative
  magnitude := roundUnits n d
  magnitude_lt := roundUnits_lt n d

/-- The units of the absolute value of a finite number. -/
def units (x : Binary64) : Nat := unitsOf x.magnitude

/-- A finite number in units, with its sign. -/
def signedUnits (x : Binary64) : Int :=
  if x.negative then -(x.units : Int) else x.units

/-! ## Arithmetic -/

/-- The NaN that an operation on `x` and `y` passes on, if one of them is a NaN. -/
def passNaN (x y : Binary64) : Option Binary64 :=
  if x.isNaN then some x.quiet else if y.isNaN then some y.quiet else none

/-- The sum of two numbers that are not NaN. A sum of zero is negative only if both are. -/
def addNumbers (x y : Binary64) : Binary64 :=
  if x.isInfinite then
    if y.isInfinite && x.negative != y.negative then nan else x
  else if y.isInfinite then y
  else
    let sum := x.signedUnits + y.signedUnits
    ofUnits (if sum = 0 then x.negative && y.negative else decide (sum < 0)) sum.natAbs 1

/-- The product of two numbers that are not NaN. -/
def mulNumbers (x y : Binary64) : Binary64 :=
  let negative := x.negative != y.negative
  if x.isInfinite || y.isInfinite then
    if x.isZero || y.isZero then nan else inf negative
  else ofUnits negative (x.units * y.units) unitsPerOne

/-- The quotient of two numbers that are not NaN. Only zero divided by zero, and an infinity divided
by an infinity, have none. -/
def divNumbers (x y : Binary64) : Binary64 :=
  let negative := x.negative != y.negative
  if x.isInfinite then
    if y.isInfinite then nan else inf negative
  else if y.isInfinite then zero negative
  else if y.isZero then
    if x.isZero then nan else inf negative
  else ofUnits negative (x.units * unitsPerOne) y.units

def add (x y : Binary64) : Binary64 := (passNaN x y).getD (addNumbers x y)

def sub (x y : Binary64) : Binary64 := (passNaN x y).getD (addNumbers x y.neg)

def mul (x y : Binary64) : Binary64 := (passNaN x y).getD (mulNumbers x y)

def div (x y : Binary64) : Binary64 := (passNaN x y).getD (divNumbers x y)

/-! ## Whole numbers -/

/-- The number nearest to a whole number. -/
def ofInt (n : Int) : Binary64 :=
  ofUnits (decide (n < 0)) (n.natAbs * unitsPerOne) 1

/-- A finite number without its fraction. -/
def truncate (x : Binary64) : Int :=
  let whole : Nat := x.units / unitsPerOne
  if x.negative then -(whole : Int) else whole

/-- Whether a finite number is not a whole number. -/
def hasFraction (x : Binary64) : Bool := decide (x.units % unitsPerOne ≠ 0)

end Binary64

/-- The 64-bit integer nearest to a whole number. -/
def clampInt64 (n : Int) : Int64 :=
  Int64.ofInt (max Int64.minValue.toInt (min Int64.maxValue.toInt n))

end MiniLisp
