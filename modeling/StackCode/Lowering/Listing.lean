import StackCode.Lowering.Walk
import StackCode.X64.Text

/-!
# The native listing

The machine code of a program, grouped under the source instructions. Each line shows
an offset, the bytes of one machine instruction and its text; a byte that starts no
known instruction stands alone. A block is read without looking past its end.
-/
namespace StackCode.Lowering.Listing

open X64

/-- Pads a text with blanks on the right. -/
def padRight (width : Nat) (s : String) : String :=
  s ++ String.ofList (List.replicate (width - s.length) ' ')

def byteText (offset : Nat) (b : UInt8) : String :=
  "0x" ++ Text.hex 4 offset ++ ": db 0x" ++ Text.hexByte b ++ "\n"

def insnText (offset : Nat) (bytes : Bytes) (i : Insn) : String :=
  "0x" ++ Text.hex 4 offset ++ ": " ++
    padRight 32 (" ".intercalate (bytes.map Text.hexByte)) ++ " " ++
    i.text offset bytes.length ++ "\n"

/-- The lines of a piece of code at `offset`, at most `fuel` of them. -/
def lines : Nat → Nat → Bytes → List String
  | 0, _, _ => []
  | _ + 1, _, [] => []
  | fuel + 1, offset, b :: bs =>
      match Insn.read (b :: bs) with
      | some (i, rest) =>
          let size := bs.length + 1 - rest.length
          insnText offset ((b :: bs).take size) i :: lines fuel (offset + size) rest
      | none => byteText offset b :: lines fuel (offset + 1) bs

/-- The lines of one block. Every line takes at least one byte. -/
def blockLines (offset : Nat) (code : Bytes) : List String := lines code.length offset code

def sourceLine (s : Step) : String :=
  "; " ++ Text.offset4 s.ip ++ "  " ++ s.instr.text ++ "\n"

def cutImage (s : Step) (size : Nat) : Failure :=
  .report .invariantViolation s.ip
    ("image of " ++ toString size ++ " bytes ends inside " ++ s.desc.variant.text)

/-- The lines of the steps; `native` starts at the block of the first one. -/
def follow (size : Nat) : List Step → Bytes → Except Failure (List String)
  | [], _ => .ok []
  | s :: ss, native =>
      let n := s.desc.nativeLen
      if size < s.nativeIp + n then .error (cutImage s size)
      else
        (follow size ss (native.drop n)).map fun rest =>
          sourceLine s :: blockLines s.nativeIp (native.take n) ++ rest

/-- Lists an image of a program. -/
def ofCode (code : Option Bytes) (native : Bytes) : Except Failure String :=
  let w := Walk.ofCode code
  match follow native.length w.steps native with
  | .error f => .error f
  | .ok ls =>
      match w.fault with
      | some f => .error f
      | none => .ok (String.join ls)

end StackCode.Lowering.Listing
