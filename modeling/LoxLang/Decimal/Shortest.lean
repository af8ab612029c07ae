import LoxLang.Decimal.Nearest

/-!
# Writing doubles

The text of a double has the fewest significant digits that read back as the same
double, of those the nearest to it, and of two equally near the greater. It is always
positional: there is no exponent, and no point behind a whole number.
-/

namespace LoxLang.Decimal

/-- The number of units of 2⁻¹⁰⁷⁴ in the finite non-negative double of the given bits. -/
def unitsOfBits (bits : Nat) : Nat :=
  let exponent := bits >>> 52
  let fraction := bits % (1 <<< 52)
  if exponent = 0 then fraction else (fraction + 1 <<< 52) <<< (exponent - 1)

/-- The decimal `digits · 10 ^ exponent`. -/
structure Scaled where
  digits : Nat
  exponent : Int

namespace Scaled

/-- The numerator and the denominator of a decimal. -/
def fraction (d : Scaled) : Nat × Nat :=
  (d.digits * Nat.pow 10 d.exponent.toNat, Nat.pow 10 (-d.exponent).toNat)

def bits (d : Scaled) : Nat := nearestBits d.fraction.1 d.fraction.2

end Scaled

/-- The number of decimal digits, none for zero. -/
def digitCount (n : Nat) : Nat := if n = 0 then 0 else (Nat.toDigits 10 n).length

/-- The least `m` with `num / den < 10 ^ m`, for positive quotients. -/
def magnitude (num den : Nat) : Int :=
  if den ≤ num then digitCount (num / den) else 1 - (digitCount ((den - 1) / num) : Int)

/-- The two multiples of `10 ^ exponent` around `num / den`, the nearer first and the
greater first when both are equally near. -/
def neighbours (num den : Nat) (exponent : Int) : List Scaled :=
  let top := num * Nat.pow 10 (-exponent).toNat
  let bottom := den * Nat.pow 10 exponent.toNat
  let below : Scaled := ⟨top / bottom, exponent⟩
  let above : Scaled := ⟨top / bottom + 1, exponent⟩
  if 2 * (top % bottom) < bottom then [below, above] else [above, below]

/-- The shortest decimal that reads back as the finite non-negative double of the given
bits. Seventeen digits are enough for any; the decimal expansion of the double itself
stands behind them, so the result reads back whatever the search does. -/
def shortest (bits : Nat) : Scaled :=
  let units := unitsOfBits bits
  let unit := 1 <<< 1074
  let top := magnitude units unit
  let attempt (count : Nat) : Option Scaled :=
    (neighbours units unit (top - (count + 1 : Nat))).find? (·.bits = bits)
  ((List.range 17).findSome? attempt).getD ⟨units * Nat.pow 5 1074, -1074⟩

/-- The digits of a decimal before and behind its point; the latter end in no zero. -/
def layout (d : Scaled) : List Char × List Char :=
  let places := (-d.exponent).toNat
  let digits := Nat.toDigits 10 (d.digits * Nat.pow 10 d.exponent.toNat)
  let padded := List.replicate (places + 1 - digits.length) '0' ++ digits
  let cut := padded.length - places
  (padded.take cut, ((padded.drop cut).reverse.dropWhile (· = '0')).reverse)

def positional (d : Scaled) : String :=
  match layout d with
  | (whole, []) => String.ofList whole
  | (whole, fraction) => String.ofList (whole ++ '.' :: fraction)

/-- The text of the double of the given bits, with the given word for infinity. -/
def textOfBits (infinity : String) (bits : Nat) : String :=
  let size := bits % (1 <<< 63)
  let sign := if size = bits then "" else "-"
  if infinityBits < size then "NaN"
  else if size = infinityBits then sign ++ infinity
  else sign ++ positional (shortest size)

def text (infinity : String) (x : Float) : String := textOfBits infinity x.toBits.toNat

end LoxLang.Decimal
