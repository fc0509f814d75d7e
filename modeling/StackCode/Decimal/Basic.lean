/-!
# Decimal numbers in general form

A positive decimal is a run of significant digits and the exponent of the first
one. `render` writes it positionally while the exponent is small and with an
explicit exponent otherwise; the exponent has a sign and at least two digits.
-/
namespace StackCode

/-- The number `d.ddd * 10 ^ exponent`, where `d`, `d`, … are the digits. -/
structure Decimal where
  digits : List Char
  exponent : Int
deriving DecidableEq, Repr

namespace Decimal

/-- Exponents from here on are written out. -/
def firstLarge : Int := 6

/-- Exponents below this are written out. -/
def leastPositional : Int := -4

def dropTrailingZeros (ds : List Char) : List Char :=
  (ds.reverse.dropWhile (· == '0')).reverse

/-- The number `coeff * 10 ^ k`, for a positive `coeff`. -/
def ofScaled (coeff : Nat) (k : Int) : Decimal :=
  let ds := Nat.toDigits 10 coeff
  ⟨dropTrailingZeros ds, k + (ds.length : Int) - 1⟩

/-- A point and the digits behind it, or nothing if there are none. -/
def fraction (ds : List Char) : List Char := if ds.isEmpty then [] else '.' :: ds

def exponentText (x : Int) : List Char :=
  'e' :: (if x < 0 then '-' else '+') :: List.leftpad 2 '0' (Nat.toDigits 10 x.natAbs)

/-- The text of a positive decimal. -/
def text (d : Decimal) : List Char :=
  if d.exponent < leastPositional ∨ firstLarge ≤ d.exponent then
    d.digits.take 1 ++ fraction (d.digits.drop 1) ++ exponentText d.exponent
  else if d.exponent < 0 then
    '0' :: '.' :: (List.replicate (d.exponent.natAbs - 1) '0' ++ d.digits)
  else
    let whole := d.exponent.toNat + 1
    d.digits.take whole ++ List.replicate (whole - d.digits.length) '0' ++
      fraction (d.digits.drop whole)

def render (neg : Bool) (d : Decimal) : String :=
  String.ofList ((if neg then ['-'] else []) ++ d.text)

end Decimal
end StackCode
