/-!
# Integers on a command line

An integer may be written in base ten, or with a mark in base two, eight or sixteen; a
leading zero means base eight. Underscores may stand between digits and behind a mark.
Digits are looked at from left to right, so a number that grows too large is reported
before a later character that is no digit.
-/
namespace StackCode.Settings

/-- Why a text is no integer of a kind. -/
inductive IntegerFault where
  | malformed
  | tooLarge
deriving DecidableEq, Repr

namespace IntegerFault

def message : IntegerFault → String
  | .malformed => "parse error"
  | .tooLarge => "value out of range"

end IntegerFault

namespace Integer

/-- The value of a digit or letter, up to thirty-five. -/
def digit? (c : Char) : Option Nat :=
  if '0' ≤ c ∧ c ≤ '9' then some (c.toNat - 48)
  else if 'a' ≤ c ∧ c ≤ 'z' then some (c.toNat - 87)
  else if 'A' ≤ c ∧ c ≤ 'Z' then some (c.toNat - 55)
  else none

/-- The base that a mark letter stands for. -/
def marked? (c : Char) : Option Nat :=
  if c = 'b' ∨ c = 'B' then some 2
  else if c = 'o' ∨ c = 'O' then some 8
  else if c = 'x' ∨ c = 'X' then some 16
  else none

/-- The base of a numeral, and its digits. A mark needs something behind it. -/
def split : List Char → Nat × List Char
  | '0' :: c :: d :: rest =>
      match marked? c with
      | some base => (base, d :: rest)
      | none => (8, c :: d :: rest)
  | '0' :: rest => (8, rest)
  | cs => (10, cs)

/-- Reads digits below `limit`. Underscores are passed over. -/
def accumulate (base limit : Nat) : Nat → List Char → Except IntegerFault Nat
  | n, [] => .ok n
  | n, c :: cs =>
      if c = '_' then accumulate base limit n cs
      else
        match digit? c with
        | none => .error .malformed
        | some d =>
            if base ≤ d then .error .malformed
            else if limit ≤ base * n + d then .error .tooLarge
            else accumulate base limit (base * n + d) cs

/-- What stands before an underscore, as far as it matters. -/
inductive Before where
  | start
  | digit
  | underscore
  | other
deriving DecidableEq, Repr

/-- Whether every underscore stands between digits. -/
def separated (isDigit : Char → Bool) : Before → List Char → Bool
  | before, [] => before != .underscore
  | before, c :: cs =>
      if isDigit c then separated isDigit .digit cs
      else if c = '_' then before == .digit && separated isDigit .underscore cs
      else before != .underscore && separated isDigit .other cs

/-- Whether underscores stand where they may; a mark counts as a digit. -/
def underscoresFit (cs : List Char) : Bool :=
  let decimal (c : Char) : Bool := (digit? c).any (· < 10)
  match cs with
  | '0' :: c :: rest =>
      match marked? c with
      | some base => separated (fun c => (digit? c).any (· < max base 10)) .digit rest
      | none => separated decimal .start cs
  | _ => separated decimal .start cs

/-- A natural number below `limit`. -/
def readBelow (limit : Nat) (cs : List Char) : Except IntegerFault Nat :=
  if cs.isEmpty then .error .malformed
  else
    let (base, digits) := split cs
    match accumulate base limit 0 digits with
    | .error f => .error f
    | .ok n => if cs.contains '_' && !underscoresFit cs then .error .malformed else .ok n

/-- The first number that 64 bits cannot hold. -/
def wordLimit : Nat := 0x10000000000000000

/-- The first number that 63 bits cannot hold. -/
def signedLimit : Nat := 0x8000000000000000

/-- An unsigned 64-bit integer. -/
def word (s : String) : Except IntegerFault UInt64 :=
  (readBelow wordLimit s.toList).map UInt64.ofNat

/-- A signed 64-bit integer; either sign may be written. -/
def signed (s : String) : Except IntegerFault Int64 :=
  let (neg, cs) :=
    match s.toList with
    | '+' :: cs => (false, cs)
    | '-' :: cs => (true, cs)
    | cs => (false, cs)
  match readBelow wordLimit cs with
  | .error f => .error f
  | .ok n =>
      if neg then if signedLimit < n then .error .tooLarge else .ok (Int64.ofInt (-n))
      else if signedLimit ≤ n then .error .tooLarge
      else .ok (Int64.ofNat n)

end Integer
end StackCode.Settings
