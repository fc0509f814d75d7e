/-!
# Double-precision words

A double is held as its 64 bits. `decode` says which number the bits stand for,
and `round` finds the double nearest to a quotient of naturals, ties going to the
even significand. Numbers too large become infinite, numbers too small subnormal
or zero.
-/
namespace StackCode.Binary64

/-- What a bit pattern stands for: `finite neg m e` is `m * 2 ^ e`, negated if
`neg`. -/
inductive Value where
  | nan (neg : Bool)
  | inf (neg : Bool)
  | finite (neg : Bool) (m : Nat) (e : Int)
deriving DecidableEq, Repr

/-- Exponent of the last place of a subnormal number. -/
def minExp : Int := -1074

/-- The leading bit of a normal significand, which is not stored. -/
def implicitBit : Nat := 0x10000000000000

/-- Bits of positive infinity. -/
def infBits : UInt64 := 0x7ff0000000000000

/-- The sign bit. -/
def signBit : UInt64 := 0x8000000000000000

/-- The bit that tells a quiet NaN. -/
def quietBit : UInt64 := 0x0008000000000000

/-- The NaN an invalid operation gives. -/
def invalid : UInt64 := 0xfff8000000000000

def isNegative (bits : UInt64) : Bool := bits &&& signBit != 0

def isNaN (bits : UInt64) : Bool := infBits < (bits &&& 0x7fffffffffffffff)

def isInf (bits : UInt64) : Bool := (bits &&& 0x7fffffffffffffff) == infBits

/-- The same magnitude with the given sign. -/
def withSign (neg : Bool) (magnitude : UInt64) : UInt64 :=
  if neg then magnitude ||| signBit else magnitude

def decode (bits : UInt64) : Value :=
  let neg := isNegative bits
  let field : Nat := bits.toNat / implicitBit % 2048
  let frac : Nat := bits.toNat % implicitBit
  if field = 2047 then
    if frac = 0 then .inf neg else .nan neg
  else if field = 0 then .finite neg frac minExp
  else .finite neg (frac + implicitBit) ((field : Int) - 1075)

/-- The quotient of `num` by `den * 2 ^ e`, as a numerator and a denominator. -/
def scale (num den : Nat) (e : Int) : Nat × Nat :=
  if 0 ≤ e then (num, den * Nat.pow 2 e.toNat) else (num * Nat.pow 2 (-e).toNat, den)

/-- The integer nearest to `num / den`, a half going to the even neighbour. -/
def roundDiv (num den : Nat) : Nat :=
  let q := num / den
  let twice := 2 * (num % den)
  if den < twice ∨ (twice = den ∧ q % 2 = 1) then q + 1 else q

/-- Exponent of the last place that a double near `num / den` has. -/
def lastPlace (num den : Nat) : Int :=
  let guess : Int := (num.log2 : Int) - (den.log2 : Int) - 52
  let (n, d) := scale num den guess
  let e := if n < d * implicitBit then guess - 1 else guess
  max e minExp

/-- The double nearest to `num / den`. Since the significand carries into the
exponent field, one sum packs normal and subnormal numbers alike. -/
def round (neg : Bool) (num den : Nat) : UInt64 :=
  if num = 0 then withSign neg 0
  else
    let e := lastPlace num den
    let (n, d) := scale num den e
    let packed := (e - minExp).toNat * implicitBit + roundDiv n d
    withSign neg (if infBits.toNat ≤ packed then infBits else UInt64.ofNat packed)

/-- The double nearest to `m * 2 ^ e`. -/
def roundScaled (neg : Bool) (m : Nat) (e : Int) : UInt64 :=
  let (n, d) := scale m 1 (-e)
  round neg n d

end StackCode.Binary64
