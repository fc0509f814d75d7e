import StackCode.Binary64.Basic
import StackCode.Decimal.Basic

/-!
# Decimals of doubles

Two ways to write the number `m * 2 ^ e`. `shortest` takes the fewest digits that
read back as the same double, and of those the decimal nearest to it. `rounded`
takes a fixed count of digits, correctly rounded from the exact value. Both work in
exact arithmetic on naturals; a half goes to the even digit.
-/
namespace StackCode.Decimal

/-- A non-negative rational, the denominator positive. -/
structure Ratio where
  num : Nat
  den : Nat
deriving DecidableEq, Repr

namespace Ratio

/-- The ratio `m * 2 ^ e`. -/
def scaled (m : Nat) (e : Int) : Ratio :=
  if 0 ≤ e then ⟨m * Nat.pow 2 e.toNat, 1⟩ else ⟨m, Nat.pow 2 (-e).toNat⟩

/-- The ratio `r / 10 ^ k`. -/
def shift (r : Ratio) (k : Int) : Ratio :=
  if 0 ≤ k then ⟨r.num, r.den * Nat.pow 10 k.toNat⟩ else ⟨r.num * Nat.pow 10 (-k).toNat, r.den⟩

def floor (r : Ratio) : Nat := r.num / r.den

/-- Is `c` at most `r`? -/
def geNat (r : Ratio) (c : Nat) : Bool := c * r.den ≤ r.num

end Ratio

/-- Decimal exponent of the first digit of `v`, given the binary exponent `l` of its
first bit. The guess from `l` is off by at most one. -/
def leadingExponent (v : Ratio) (l : Int) : Int :=
  let guess := Int.fdiv (l * 30103) 100000
  if (v.shift (guess + 1)).geNat 1 then guess + 1
  else if (v.shift guess).geNat 1 then guess
  else guess - 1

/-- The reals that read back as `m * 2 ^ e`, in quarters of the last place. The gap
below a power of two is half as wide as the gap above it. -/
structure Interval where
  low : Ratio
  high : Ratio
  /-- Do the ends read back too? They do for an even significand. -/
  closed : Bool
deriving DecidableEq, Repr

namespace Interval

def around (m : Nat) (e : Int) : Interval :=
  let below := if m = Binary64.implicitBit ∧ Binary64.minExp < e then 1 else 2
  ⟨Ratio.scaled (4 * m - below) (e - 2), Ratio.scaled (4 * m + 2) (e - 2), m % 2 = 0⟩

/-- Does `c * 10 ^ k` lie in the interval? -/
def contains (i : Interval) (c : Nat) (k : Int) : Bool :=
  let lo := i.low.shift k
  let hi := i.high.shift k
  if i.closed then lo.num ≤ c * lo.den && c * hi.den ≤ hi.num
  else lo.num < c * lo.den && c * hi.den < hi.num

end Interval

/-- The decimal of the grid `10 ^ k` that reads back as `v` and is nearest to it. -/
def onGrid (v : Ratio) (i : Interval) (k : Int) : Option Nat :=
  let r := v.shift k
  let c := r.floor
  let nearest := Binary64.roundDiv r.num r.den
  let other := if nearest = c then c + 1 else c
  if i.contains nearest k then some nearest
  else if i.contains other k then some other
  else none

/-- Tries grids of `digits`, `digits + 1`, … significant digits, `tries` of them. -/
def searchGrids (v : Ratio) (i : Interval) (lead : Int) : Nat → Nat → Decimal
  | 0, digits =>
      let k := lead - (digits : Int) + 1
      let r := v.shift k
      ofScaled (Binary64.roundDiv r.num r.den) k
  | tries + 1, digits =>
      let k := lead - (digits : Int) + 1
      match onGrid v i k with
      | some c => ofScaled c k
      | none => searchGrids v i lead tries (digits + 1)

/-- The shortest decimal that reads back as the positive double `m * 2 ^ e`. -/
def shortest (m : Nat) (e : Int) : Decimal :=
  let v := Ratio.scaled m e
  searchGrids v (Interval.around m e) (leadingExponent v ((m.log2 : Int) + e)) 16 1

/-- The number `m * 2 ^ e` to `count` significant digits, trailing zeros left out. -/
def rounded (count : Nat) (m : Nat) (e : Int) : Decimal :=
  let v := Ratio.scaled m e
  let k := leadingExponent v ((m.log2 : Int) + e) - (count : Int) + 1
  let r := v.shift k
  ofScaled (Binary64.roundDiv r.num r.den) k

/-- How a word is written as text: the digits of a finite number, the names of the
others. -/
structure Spelling where
  digits : Nat → Int → Decimal
  posInf : String
  negInf : String
  posNaN : String
  negNaN : String

/-- Literals in listings: shortest digits, one name for all NaNs. -/
def literal : Spelling := ⟨shortest, "+Inf", "-Inf", "NaN", "NaN"⟩

/-- Numbers a program prints: six digits, NaNs told apart by sign. -/
def printed : Spelling := ⟨rounded 6, "inf", "-inf", "nan", "-nan"⟩

namespace Spelling

/-- The text of a double. -/
def spell (s : Spelling) (bits : UInt64) : String :=
  match Binary64.decode bits with
  | .nan neg => if neg then s.negNaN else s.posNaN
  | .inf neg => if neg then s.negInf else s.posInf
  | .finite neg 0 _ => if neg then "-0" else "0"
  | .finite neg m e => render neg (s.digits m e)

end Spelling
end StackCode.Decimal
