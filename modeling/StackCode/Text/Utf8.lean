import StackCode.Bytes

/-!
# Characters in byte strings

A byte string is read as text from left to right. Where no character can be read, one
byte is passed over: it makes the text invalid, and stands for the replacement character
where the text is wanted all the same.
-/
namespace StackCode.Text

/-- The six bits of a byte that continues a character. -/
def tail? (b : UInt8) : Option Nat :=
  if 0x80 ≤ b ∧ b ≤ 0xbf then some (b.toNat - 0x80) else none

/-- The number that leading bits and following bytes spell. -/
def spell? (lead : Nat) : Bytes → Option Nat
  | [] => some lead
  | b :: bs => (tail? b).bind fun t => spell? (64 * lead + t) bs

/-- A character of a given width, which must not fit into a smaller one. -/
def wideChar? (lead least width : Nat) (bs : Bytes) : Option (Char × Nat) := do
  let following ← Bytes.take? (width - 1) bs
  let n ← spell? lead following
  if least ≤ n ∧ n.isValidChar then return (Char.ofNat n, width) else none

/-- The character at the front, and its number of bytes. -/
def charAt? : Bytes → Option (Char × Nat)
  | [] => none
  | b :: bs =>
      let n := b.toNat
      if n < 0x80 then some (Char.ofNat n, 1)
      else if n < 0xc0 then none
      else if n < 0xe0 then wideChar? (n - 0xc0) 0x80 2 bs
      else if n < 0xf0 then wideChar? (n - 0xe0) 0x800 3 bs
      else if n < 0xf8 then wideChar? (n - 0xf0) 0x10000 4 bs
      else none

/-- Stands for what cannot be read. -/
def replacement : Char := Char.ofNat 0xfffd

/-- The characters behind `skip` bytes that were already read. -/
def charsFrom : Nat → Bytes → List (Option Char)
  | _, [] => []
  | skip + 1, _ :: bs => charsFrom skip bs
  | 0, b :: bs =>
      match charAt? (b :: bs) with
      | some (c, width) => some c :: charsFrom (width - 1) bs
      | none => none :: charsFrom 0 bs

/-- Whether the bytes are a text. -/
def isUtf8 (bs : Bytes) : Bool := (charsFrom 0 bs).all Option.isSome

/-- The text of the bytes, with replacements. -/
def chars (bs : Bytes) : List Char := (charsFrom 0 bs).map fun c => c.getD replacement

def ofUtf8 (bs : Bytes) : String := String.ofList (chars bs)

def toUtf8 (s : String) : Bytes := s.toUTF8.toList

end StackCode.Text
