/-!
# Reading JSON

A reader for the data format in which settings are kept. Numbers stay as they are
written. An escape for half of a pair that is not followed by the other half stands for
the replacement character. Nesting is limited.
-/
namespace StackCode.Settings

inductive Json where
  | null
  | bool (b : Bool)
  | number (text : String)
  | string (s : String)
  | array (items : List Json)
  | object (members : List (String × Json))
deriving Repr

namespace Json

def maxNesting : Nat := 10000

def isSpace (c : Char) : Bool := c == ' ' || c == '\t' || c == '\n' || c == '\r'

def skipSpace (cs : List Char) : List Char := cs.dropWhile isSpace

/-- What follows a given word. -/
def expect? : List Char → List Char → Option (List Char)
  | [], cs => some cs
  | w :: ws, c :: cs => if w = c then expect? ws cs else none
  | _ :: _, [] => none

def isDigit (c : Char) : Bool := '0' ≤ c && c ≤ '9'

/-- At least one digit. -/
def readDigits? (cs : List Char) : Option (List Char × List Char) :=
  match cs.takeWhile isDigit with
  | [] => none
  | ds => some (ds, cs.dropWhile isDigit)

/-- The whole part: a zero stands alone. -/
def readWhole? : List Char → Option (List Char × List Char)
  | '0' :: cs => some (['0'], cs)
  | cs => readDigits? cs

def readFraction? : List Char → Option (List Char × List Char)
  | '.' :: cs => (readDigits? cs).map fun (ds, rest) => ('.' :: ds, rest)
  | cs => some ([], cs)

def readExponent? : List Char → Option (List Char × List Char)
  | c :: cs =>
      if c = 'e' ∨ c = 'E' then
        match cs with
        | s :: ds =>
            if s = '+' ∨ s = '-' then
              (readDigits? ds).map fun (ds, rest) => (c :: s :: ds, rest)
            else (readDigits? (s :: ds)).map fun (ds, rest) => (c :: ds, rest)
        | [] => none
      else some ([], c :: cs)
  | [] => some ([], [])

/-- A number behind its sign. -/
def readUnsigned? (cs : List Char) : Option (List Char × List Char) := do
  let (whole, cs) ← readWhole? cs
  let (fraction, cs) ← readFraction? cs
  let (exponent, cs) ← readExponent? cs
  return (whole ++ fraction ++ exponent, cs)

def readNumber? : List Char → Option (Json × List Char)
  | '-' :: cs => (readUnsigned? cs).map fun (ds, rest) => (.number (.ofList ('-' :: ds)), rest)
  | cs => (readUnsigned? cs).map fun (ds, rest) => (.number (.ofList ds), rest)

def hexDigit? (c : Char) : Option Nat :=
  if '0' ≤ c ∧ c ≤ '9' then some (c.toNat - 48)
  else if 'a' ≤ c ∧ c ≤ 'f' then some (c.toNat - 87)
  else if 'A' ≤ c ∧ c ≤ 'F' then some (c.toNat - 55)
  else none

/-- A unit of a text: a character, or the number of an escape. -/
inductive TextUnit where
  | char (c : Char)
  | escape (n : Nat)
deriving DecidableEq, Repr

def simpleEscape? (c : Char) : Option Char :=
  [('"', '"'), ('\\', '\\'), ('/', '/'), ('b', '\x08'), ('f', '\x0c'), ('n', '\n'),
    ('r', '\r'), ('t', '\t')].lookup c

/-- The units up to the closing quote. -/
def readUnits? : List Char → Option (List TextUnit × List Char)
  | [] => none
  | '"' :: cs => some ([], cs)
  | '\\' :: 'u' :: a :: b :: c :: d :: cs => do
      let n := 4096 * (← hexDigit? a) + 256 * (← hexDigit? b) + 16 * (← hexDigit? c) + (← hexDigit? d)
      let (us, rest) ← readUnits? cs
      return (.escape n :: us, rest)
  | '\\' :: e :: cs => do
      let c ← simpleEscape? e
      let (us, rest) ← readUnits? cs
      return (.char c :: us, rest)
  | c :: cs =>
      if c.toNat < 0x20 ∨ c = '\\' then none
      else (readUnits? cs).map fun (us, rest) => (.char c :: us, rest)

def isHigh (n : Nat) : Bool := 0xd800 ≤ n && n < 0xdc00

def isLow (n : Nat) : Bool := 0xdc00 ≤ n && n < 0xe000

/-- The character of a pair of halves. -/
def joined (high low : Nat) : Char :=
  Char.ofNat (0x10000 + 1024 * (high - 0xd800) + (low - 0xdc00))

/-- The character of an escape by itself; half of a pair is replaced. -/
def single (n : Nat) : Char := if isHigh n || isLow n then Char.ofNat 0xfffd else Char.ofNat n

/-- The text that units spell. -/
def spelled : List TextUnit → List Char
  | [] => []
  | .char c :: us => c :: spelled us
  | .escape h :: .escape l :: us =>
      if isHigh h && isLow l then joined h l :: spelled us
      else single h :: spelled (.escape l :: us)
  | .escape n :: us => single n :: spelled us

/-- A text behind its opening quote. -/
def readText? (cs : List Char) : Option (String × List Char) :=
  (readUnits? cs).map fun (us, rest) => (.ofList (spelled us), rest)

mutual

/-- Reads a value at a nesting depth. -/
def readValue? : Nat → Nat → List Char → Option (Json × List Char)
  | 0, _, _ => none
  | fuel + 1, depth, cs =>
      match skipSpace cs with
      | '"' :: cs => (readText? cs).map fun (s, rest) => (.string s, rest)
      | 'n' :: cs => (expect? ['u', 'l', 'l'] cs).map fun rest => (.null, rest)
      | 't' :: cs => (expect? ['r', 'u', 'e'] cs).map fun rest => (.bool true, rest)
      | 'f' :: cs => (expect? ['a', 'l', 's', 'e'] cs).map fun rest => (.bool false, rest)
      | '[' :: cs =>
          if maxNesting ≤ depth then none
          else
            match skipSpace cs with
            | ']' :: rest => some (.array [], rest)
            | cs => (readItems? fuel (depth + 1) cs).map fun (is, rest) => (.array is, rest)
      | '\x7b' :: cs =>
          if maxNesting ≤ depth then none
          else
            match skipSpace cs with
            | '\x7d' :: rest => some (.object [], rest)
            | cs => (readMembers? fuel (depth + 1) cs).map fun (ms, rest) => (.object ms, rest)
      | cs => readNumber? cs

/-- Reads the items of an array up to its end. -/
def readItems? : Nat → Nat → List Char → Option (List Json × List Char)
  | 0, _, _ => none
  | fuel + 1, depth, cs =>
      match readValue? fuel depth cs with
      | none => none
      | some (i, cs) =>
          match skipSpace cs with
          | ',' :: cs => (readItems? fuel depth cs).map fun (is, rest) => (i :: is, rest)
          | ']' :: rest => some ([i], rest)
          | _ => none

/-- Reads the members of an object up to its end. -/
def readMembers? : Nat → Nat → List Char → Option (List (String × Json) × List Char)
  | 0, _, _ => none
  | fuel + 1, depth, cs =>
      match skipSpace cs with
      | '"' :: cs =>
          match readText? cs with
          | none => none
          | some (name, cs) =>
              match skipSpace cs with
              | ':' :: cs =>
                  match readValue? fuel depth cs with
                  | none => none
                  | some (v, cs) =>
                      match skipSpace cs with
                      | ',' :: cs =>
                          (readMembers? fuel depth cs).map fun (ms, rest) => ((name, v) :: ms, rest)
                      | '\x7d' :: rest => some ([(name, v)], rest)
                      | _ => none
              | _ => none
      | _ => none

end

/-- The value that makes up a whole text. Every step of reading takes a character or
enters a value, so the fuel is enough. -/
def read? (cs : List Char) : Option Json :=
  match readValue? (2 * cs.length + 2) 0 cs with
  | some (v, rest) => if (skipSpace rest).isEmpty then some v else none
  | none => none

end Json
end StackCode.Settings
