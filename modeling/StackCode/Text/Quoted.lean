import StackCode.Text.Number
import StackCode.Text.Printable

/-!
# Quoted text

A quoted text stands between double quotes. The quote and the backslash are marked
by a backslash, printable characters stand for themselves, and every other character
has an escape: a letter for the common control characters, otherwise hexadecimal
digits, as many as the code point needs.
-/
namespace StackCode.Text

/-- The letter of a control character that has one. -/
def escapeLetter? (c : Char) : Option Char :=
  match c.toNat with
  | 7 => some 'a'
  | 8 => some 'b'
  | 12 => some 'f'
  | 10 => some 'n'
  | 13 => some 'r'
  | 9 => some 't'
  | 11 => some 'v'
  | _ => none

def quoteChar (c : Char) : String :=
  if c = '"' ∨ c = '\\' then String.ofList ['\\', c]
  else if isPrintable c then String.ofList [c]
  else
    match escapeLetter? c with
    | some l => String.ofList ['\\', l]
    | none =>
        let n := c.toNat
        if n < 0x20 ∨ n = 0x7f then "\\x" ++ hex 2 n
        else if n < 0x10000 then "\\u" ++ hex 4 n
        else "\\U" ++ hex 8 n

/-- The text between quotes, every character as `quoteChar` writes it. -/
def quoted (s : String) : String := "\"" ++ String.join (s.toList.map quoteChar) ++ "\""

end StackCode.Text
