import StackCode.Binary64.Basic
import StackCode.Bytes

/-!
# Doubles in a text

`scan` takes one number off the front of a text. It skips blanks, then takes every
character that can still belong to a number. What was taken need not be a number in the
end. Decimal and hexadecimal numerals, infinities and NaN are known, in either case. An
exponent mark without digits is taken and ignored. The character that ends a numeral
stays; the one that breaks a word off is taken with it.
-/
namespace StackCode.Binary64

/-- The byte of an ASCII character. -/
def ascii (c : Char) : UInt8 := UInt8.ofNat c.toNat

/-- Space, tab, line feed, vertical tab, form feed and carriage return. -/
def isBlank (b : UInt8) : Bool := b == 32 || (9 ≤ b && b ≤ 13)

/-- ASCII letters in lower case, all else as it is. -/
def lower (b : UInt8) : UInt8 := if ascii 'A' ≤ b ∧ b ≤ ascii 'Z' then b + 32 else b

/-- The value of a digit in base ten or sixteen. -/
def digit? (base : Nat) (b : UInt8) : Option Nat :=
  let c := lower b
  let v :=
    if ascii '0' ≤ c ∧ c ≤ ascii '9' then c.toNat - 48
    else if ascii 'a' ≤ c ∧ c ≤ ascii 'f' then c.toNat - 87
    else 16
  if v < base then some v else none

def isDigit (base : Nat) (b : UInt8) : Bool := (digit? base b).isSome

/-- The number that digits spell. -/
def spelled (base : Nat) (ds : Bytes) : Nat :=
  ds.foldl (fun n d => base * n + (digit? base d).getD 0) 0

/-- The leading digits and what follows them. -/
def digits (base : Nat) (bs : Bytes) : Bytes × Bytes :=
  (bs.takeWhile (isDigit base), bs.dropWhile (isDigit base))

/-- A sign, which may be missing. -/
def signed : Bytes → Bool × Bytes
  | b :: bs => if b = ascii '-' then (true, bs) else if b = ascii '+' then (false, bs) else (false, b :: bs)
  | [] => (false, [])

/-- Takes characters as long as they spell the word, and the first one that does not;
says whether the word is complete. -/
def follow : Bytes → Bytes → Bool × Bytes
  | [], bs => (true, bs)
  | w :: ws, b :: bs => if lower b = w then follow ws bs else (false, bs)
  | _ :: _, [] => (false, [])

/-- Whether the next character is the given letter. -/
def starts (c : Char) : Bytes → Bool
  | b :: _ => lower b == ascii c
  | [] => false

/-- A numeral: `mantissa` has `places` digits behind the point, and `exponent` counts
powers of ten, or of two in base sixteen. -/
structure Numeral where
  base : Nat
  length : Nat
  mantissa : Nat
  places : Nat
  exponent : Int
deriving DecidableEq, Repr

namespace Numeral

/-- Base ten. Exponents beyond all doubles are cut short. -/
def ofDecimal (neg : Bool) (n : Numeral) : UInt64 :=
  let scale := n.exponent - n.places
  let top := scale + n.length
  if n.mantissa = 0 ∨ top < -400 then withSign neg 0
  else if 400 < scale + (n.mantissa.log2 / 4 : Nat) then withSign neg infBits
  else if 0 ≤ scale then round neg (n.mantissa * Nat.pow 10 scale.toNat) 1
  else round neg n.mantissa (Nat.pow 10 (-scale).toNat)

/-- Base sixteen. -/
def ofHexadecimal (neg : Bool) (n : Numeral) : UInt64 :=
  let scale := n.exponent - 4 * n.places
  let top := scale + n.mantissa.log2
  if n.mantissa = 0 ∨ top < -1200 then withSign neg 0
  else if 1200 < top then withSign neg infBits
  else roundScaled neg n.mantissa scale

def value (neg : Bool) (n : Numeral) : UInt64 :=
  if n.base = 16 then n.ofHexadecimal neg else n.ofDecimal neg

/-- The exponent behind a mark, zero if there are no digits. -/
def exponentOf (bs : Bytes) : Int × Bytes :=
  let (neg, bs) := signed bs
  let (ds, rest) := digits 10 bs
  let n : Int := spelled 10 ds
  (if neg then -n else n, rest)

/-- Takes a numeral in the given base. Without any digit it stands for nothing, except
that a lone point behind the mark of base sixteen counts as zero. -/
def take (base : Nat) (mark : Char) (bs : Bytes) : Option Numeral × Bytes :=
  let (whole, bs) := digits base bs
  let point := starts '.' bs
  let (fraction, bs) := if point then digits base (bs.drop 1) else ([], bs)
  let all := whole ++ fraction
  if all = [] then
    (if base = 16 ∧ point then some ⟨base, 0, 0, 0, 0⟩ else none, bs)
  else
    let (exponent, rest) := if starts mark bs then exponentOf (bs.drop 1) else (0, bs)
    (some ⟨base, all.length, spelled base all, fraction.length, exponent⟩, rest)

end Numeral

/-- The quiet NaN that the word stands for. -/
def nanBits : UInt64 := 0x7ff8000000000000

/-- Takes a number without blanks before it and without a sign. -/
def scanUnsigned (neg : Bool) (bs : Bytes) : Option UInt64 × Bytes :=
  if starts 'n' bs then
    let (whole, rest) := follow ("nan".toList.map ascii) bs
    (if whole then some (withSign neg nanBits) else none, rest)
  else if starts 'i' bs then
    let (short, rest) := follow ("inf".toList.map ascii) bs
    let (whole, rest) :=
      if short && starts 'i' rest then follow ("inity".toList.map ascii) rest
      else (short, rest)
    (if whole then some (withSign neg infBits) else none, rest)
  else
    let (n, rest) :=
      if starts '0' bs && starts 'x' (bs.drop 1) then Numeral.take 16 'p' (bs.drop 2)
      else Numeral.take 10 'e' bs
    (n.map (·.value neg), rest)

/-- Takes one number off the front of a text. -/
def scan (bs : Bytes) : Option UInt64 × Bytes :=
  let (neg, rest) := signed (bs.dropWhile isBlank)
  scanUnsigned neg rest

end StackCode.Binary64
