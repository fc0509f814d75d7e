import StackCode.Binary64.Numeral
import StackCode.Decimal.OfBinary

/-!
# Input and output of a program

A program reads numbers from a text and prints numbers to a text, one to a line. A read
that finds no number gives zero.
-/
namespace StackCode

structure Streams where
  input : Bytes
  output : String
deriving DecidableEq, Repr

namespace Streams

def ofInput (input : Bytes) : Streams := ⟨input, ""⟩

/-- The next number. -/
def read (s : Streams) : UInt64 × Streams :=
  let (v, rest) := Binary64.scan s.input
  (v.getD 0, { s with input := rest })

/-- Prints a number and ends the line. -/
def print (s : Streams) (v : UInt64) : Streams :=
  { s with output := s.output ++ Decimal.printed.spell v ++ "\n" }

end Streams
end StackCode
