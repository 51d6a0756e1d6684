import MiniLisp.Number.Decimal

/-!
# Numerals

Two kinds of numerals denote numbers. A *whole numeral* is an optional sign and at least one digit.
A *decimal numeral* has, after an optional sign, digits with at most one point among them, at least
one digit, and an optional exponent: `e` or `E`, an optional sign and at least one digit. Digits are
the ten ASCII ones.

The numbers that are not finite have names, but a text is read as a number only if its characters are
those of a numeral.
-/

namespace MiniLisp.Numeral

/-- Splits an optional sign off: whether it is a minus, and what follows. -/
def splitSign : List Char → Bool × List Char
  | '-' :: rest => (true, rest)
  | '+' :: rest => (false, rest)
  | rest => (false, rest)

/-- Whether the text is made of digits and has at least one. -/
def isDigits (cs : List Char) : Bool :=
  !cs.isEmpty && cs.all Char.isDigit

/-- The natural number with the given digits. -/
def digitsValue (digits : List Char) : Nat :=
  Nat.ofDigitChars 10 digits 0

/-- The whole number with the given sign and absolute value. -/
def signed (negative : Bool) (n : Nat) : Int :=
  if negative then -(n : Int) else n

/-! ## Whole numerals -/

/-- The value of a whole numeral. -/
def whole? (cs : List Char) : Option Int :=
  let (negative, digits) := splitSign cs
  if isDigits digits then some (signed negative (digitsValue digits)) else none

/-- The value of a whole numeral that fits into 64 bits. -/
def int64? (cs : List Char) : Option Int64 := do
  let n ← whole? cs
  if Int64.minValue.toInt ≤ n ∧ n ≤ Int64.maxValue.toInt then some (Int64.ofInt n) else none

/-! ## Decimal numerals -/

/-- The value of the digits of an exponent. Digits no longer count once the value has reached
`2 ^ 16`: the coefficient would have to be tens of thousands of digits long for them to matter. -/
def exponentValue (digits : List Char) : Nat :=
  digits.foldl (fun e c => if e < Nat.pow 2 16 then 10 * e + (c.toNat - '0'.toNat) else e) 0

/-- The value of the exponent part of a numeral, zero if there is none. -/
def exponent? : List Char → Option Int
  | [] => some 0
  | mark :: rest =>
    let (negative, digits) := splitSign rest
    if (mark = 'e' ∨ mark = 'E') ∧ isDigits digits then
      some (signed negative (exponentValue digits))
    else none

/-- The digits after the point, if there is one, and what follows them. -/
def splitFraction : List Char → List Char × List Char
  | '.' :: rest => (rest.takeWhile Char.isDigit, rest.dropWhile Char.isDigit)
  | rest => ([], rest)

/-- The value of a decimal numeral without its sign. -/
def decimal? (cs : List Char) : Option Decimal :=
  let whole := cs.takeWhile Char.isDigit
  let (fraction, rest) := splitFraction (cs.dropWhile Char.isDigit)
  if whole.isEmpty && fraction.isEmpty then none
  else
    (exponent? rest).map fun e =>
      ⟨digitsValue (whole ++ fraction), e - (fraction.length : Int)⟩

/-! ## Numbers -/

/-- The infinities and NaN have names, in letters of either case. -/
def nonFinite? (negative : Bool) (name : List Char) : Option Binary64 :=
  let name := name.map Char.toLower
  if name = "inf".toList ∨ name = "infinity".toList then some (.inf negative)
  else if name = "nan".toList then some { Binary64.nan with negative }
  else none

/-- The number that a text denotes, after an optional sign: the one nearest to the value of a
decimal numeral, or one that has a name. -/
def number? (cs : List Char) : Option Binary64 :=
  let (negative, rest) := splitSign cs
  ((decimal? rest).map (Binary64.ofDecimal negative)).or (nonFinite? negative rest)

/-- Whether a text has a digit, and no other characters than numerals have. -/
def looksNumeric (cs : List Char) : Bool :=
  cs.any Char.isDigit && cs.all fun c => c.isDigit || c ∈ ['+', '-', '.', 'e', 'E']

/-- The number that a text denotes, if the text looks like a numeral. The names of numbers do not. -/
def binary64? (cs : List Char) : Option Binary64 :=
  if looksNumeric cs then number? cs else none

end MiniLisp.Numeral
