/-!
# Reading decimals

The double nearest to a quotient of natural numbers, by exact arithmetic. Every finite
double is a whole number of units of 2⁻¹⁰⁷⁴, so a non-negative one is a `mantissa`
below 2⁵³ shifted left by `shift` places, and the mantissa has its leading bit unless the
shift is zero. With the bit pattern read as a number it is `shift · 2⁵² + mantissa`, which
also puts a mantissa that was rounded up to 2⁵³ into its right place.
-/

namespace LoxLang.Decimal

/-- The bit pattern of positive infinity, above that of every finite double. -/
def infinityBits : Nat := 0x7FF0000000000000

/-- A quotient to the nearest whole number, a half going to the even neighbour. -/
def roundDiv (num den : Nat) : Nat :=
  let quotient := num / den
  let twice := 2 * (num % den)
  if twice < den then quotient
  else if den < twice then quotient + 1
  else quotient + quotient % 2

/-- The bit pattern of the double nearest to `num / den`. -/
def nearestBits (num den : Nat) : Nat :=
  let units := num <<< 1074
  let shift := (units / den).log2 - 52
  min (shift <<< 52 + roundDiv units (den <<< shift)) infinityBits

def digitValue (digit : Char) : Nat := digit.toNat - '0'.toNat

/-- The number that a list of digits writes, the most significant first. -/
def ofDigits (digits : List Char) : Nat :=
  digits.foldl (fun n digit => 10 * n + digitValue digit) 0

/-- The bit pattern of the double nearest to the decimal with the given digits before and
behind its point. -/
def readBits (whole fraction : List Char) : Nat :=
  nearestBits (ofDigits (whole ++ fraction)) (Nat.pow 10 fraction.length)

def read (whole fraction : List Char) : Float :=
  Float.ofBits (UInt64.ofNat (readBits whole fraction))

end LoxLang.Decimal
