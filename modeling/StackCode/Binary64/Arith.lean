import StackCode.Binary64.Basic

/-!
# Arithmetic on doubles

`Arithmetic` names the five operations on 64-bit words that programs use, so that a
machine can be told which ones to take. `ieee` is the usual choice: exact results are
rounded to nearest, a NaN operand comes out quieted, the left one first, and an
operation without a result gives `invalid`.
-/
namespace StackCode

/-- Operations on words that hold doubles. -/
structure Arithmetic where
  add : UInt64 → UInt64 → UInt64
  sub : UInt64 → UInt64 → UInt64
  mul : UInt64 → UInt64 → UInt64
  div : UInt64 → UInt64 → UInt64
  sqrt : UInt64 → UInt64

namespace Binary64

def quiet (a : UInt64) : UInt64 := a ||| quietBit

/-- The NaN that an operation passes on, if an operand is one. -/
def passed? (a b : UInt64) : Option UInt64 :=
  if isNaN a then some (quiet a) else if isNaN b then some (quiet b) else none

def negate (a : UInt64) : UInt64 := a ^^^ signBit

def infinity (neg : Bool) : UInt64 := withSign neg infBits

def zero (neg : Bool) : UInt64 := withSign neg 0

/-- A signed number of units of size `2 ^ e`. -/
def units (neg : Bool) (m : Nat) (e : Int) (low : Int) : Int :=
  let n : Int := (m * Nat.pow 2 (e - low).toNat : Nat)
  if neg then -n else n

/-- The sum of two words of which none is NaN. A sum of zero is negative only if both
terms are. -/
def sumOf (a b : UInt64) : UInt64 :=
  match decode a, decode b with
  | .inf s, .inf t => if s = t then infinity s else invalid
  | .inf s, _ => infinity s
  | _, .inf t => infinity t
  | .finite s m e, .finite t n f =>
      let low := min e f
      let total := units s m e low + units t n f low
      if total = 0 then zero (s && t) else roundScaled (total < 0) total.natAbs low
  | _, _ => invalid

/-- The product of two words of which none is NaN. -/
def productOf (a b : UInt64) : UInt64 :=
  match decode a, decode b with
  | .inf s, .inf t => infinity (s != t)
  | .inf s, .finite t n _ => if n = 0 then invalid else infinity (s != t)
  | .finite s m _, .inf t => if m = 0 then invalid else infinity (s != t)
  | .finite s m e, .finite t n f => roundScaled (s != t) (m * n) (e + f)
  | _, _ => invalid

/-- The quotient of two words of which none is NaN. -/
def quotientOf (a b : UInt64) : UInt64 :=
  match decode a, decode b with
  | .inf _, .inf _ => invalid
  | .inf s, .finite t _ _ => infinity (s != t)
  | .finite s _ _, .inf t => zero (s != t)
  | .finite s m e, .finite t n f =>
      if n = 0 then if m = 0 then invalid else infinity (s != t)
      else
        let (num, den) := scale m n (f - e)
        round (s != t) num den
  | _, _ => invalid

/-- Decides the bits of a square root from bit `i - 1` down. -/
def isqrtFrom : Nat → Nat → Nat → Nat
  | 0, _, r => r
  | i + 1, n, r =>
      let c := r + Nat.pow 2 i
      isqrtFrom i n (if c * c ≤ n then c else r)

/-- The integer part of a square root. -/
def isqrt (n : Nat) : Nat := isqrtFrom (n.log2 / 2 + 1) n 0

/-- The root of `m * 2 ^ e`. The significand is widened until its root has more places
than a double; one more bit says whether anything is left over. -/
def rootOf (m : Nat) (e : Int) : UInt64 :=
  let k : Nat := if (e - 120) % 2 = 0 then 120 else 121
  let wide := m * Nat.pow 2 k
  let r := isqrt wide
  let sticky := if r * r = wide then 0 else 1
  roundScaled false (2 * r + sticky) ((e - k) / 2 - 1)

def add (a b : UInt64) : UInt64 := (passed? a b).getD (sumOf a b)

def sub (a b : UInt64) : UInt64 := (passed? a b).getD (sumOf a (negate b))

def mul (a b : UInt64) : UInt64 := (passed? a b).getD (productOf a b)

def div (a b : UInt64) : UInt64 := (passed? a b).getD (quotientOf a b)

def sqrt (a : UInt64) : UInt64 :=
  match decode a with
  | .nan _ => quiet a
  | .inf neg => if neg then invalid else a
  | .finite neg m e => if m = 0 then a else if neg then invalid else rootOf m e

def ieee : Arithmetic := ⟨add, sub, mul, div, sqrt⟩

end Binary64
end StackCode
