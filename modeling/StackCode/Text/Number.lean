/-!
# Numbers as text

Decimal and hexadecimal spellings of integers, padded with zeros on the left
where a column asks for it. Nothing is ever cut: a number wider than its column
keeps all its digits.
-/
namespace StackCode.Text

/-- Digits of `n` in base `base`, zero-padded to at least `width` of them. -/
def digits (base width n : Nat) : String :=
  String.ofList (List.leftpad width '0' (Nat.toDigits base n))

/-- Four-column decimal, the spelling of source offsets in listings. -/
def offset4 (n : Nat) : String := digits 10 4 n

/-- Lower-case hexadecimal without a mark. -/
def hex (width n : Nat) : String := digits 16 width n

/-- The two lower-case hexadecimal digits of a byte. -/
def hexByte (b : UInt8) : String := hex 2 b.toNat

/-- The two upper-case hexadecimal digits of a byte. -/
def hexByteUpper (b : UInt8) : String :=
  String.ofList ((hexByte b).toList.map Char.toUpper)

/-- Hexadecimal with the mark `0x`; the sign stands before the mark. -/
def markedHex (n : Int) : String :=
  if n < 0 then "-0x" ++ hex 0 n.natAbs else "0x" ++ hex 0 n.natAbs

/-- The hexadecimal digits of a byte string, two to a byte. -/
def hexBytes (bs : List UInt8) : String := String.join (bs.map hexByte)

end StackCode.Text
