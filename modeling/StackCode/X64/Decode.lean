import StackCode.X64.Insn

/-!
# Reading machine code

`Insn.read` takes one instruction off the front of a byte string by the rules of the
instruction set: an optional prefix byte, the opcode, the operand byte with its index
byte and displacement, and the immediate. It knows the instructions of `Insn` and
nothing else.
-/
namespace StackCode.X64

/-- What an operand byte can designate. -/
inductive RegMem where
  | reg (r : Reg)
  | abs (disp : Int32)
  | base (r : Reg)
  | baseDisp8 (r : Reg) (disp : Int8)
  | baseDisp32 (r : Reg) (disp : Int32)
deriving DecidableEq, Repr

/-- The bits of a prefix byte: operand width and the extensions of three register
numbers. -/
structure Extension where
  w : Bool
  r : Bool
  x : Bool
  b : Bool
deriving DecidableEq, Repr

namespace Extension

def none : Extension := ⟨false, false, false, false⟩

def ofByte (p : UInt8) : Extension :=
  ⟨p &&& 8 != 0, p &&& 4 != 0, p &&& 2 != 0, p &&& 1 != 0⟩

end Extension

/-- The register number with low bits `low`. -/
def extend (high : Bool) (low : UInt8) : Reg := (if high then 8 else 0) ||| (low &&& 7)

def readDisp8 : Bytes → Option (Int8 × Bytes)
  | b :: bs => some (b.toInt8, bs)
  | [] => none

def readDisp32 (bs : Bytes) : Option (Int32 × Bytes) :=
  bs.word32?.map fun w => (w.toInt32, bs.drop 4)

/-- The operand with base register `r` and the displacement that `mode` asks for. -/
def readBase (mode : UInt8) (r : Reg) (bs : Bytes) : Option (RegMem × Bytes) :=
  if mode = modeNone then some (.base r, bs)
  else if mode = modeDisp8 then (readDisp8 bs).map fun (d, rest) => (.baseDisp8 r d, rest)
  else (readDisp32 bs).map fun (d, rest) => (.baseDisp32 r d, rest)

/-- Reads the index byte and what follows it. Only operands without an index are
known. -/
def readIndexed (ext : Extension) (mode : UInt8) : Bytes → Option (RegMem × Bytes)
  | [] => none
  | sib :: bs =>
      if (sib >>> 3) &&& 7 = 4 ∧ !ext.x then
        if sib &&& 7 = 5 ∧ mode = modeNone then
          (readDisp32 bs).map fun (d, rest) => (.abs d, rest)
        else readBase mode (extend ext.b sib) bs
      else none

/-- Reads an operand byte: the register field, the other operand, the rest. -/
def readModRM (ext : Extension) : Bytes → Option (Reg × RegMem × Bytes)
  | [] => none
  | m :: bs =>
      let reg := extend ext.r (m >>> 3)
      let mode := m &&& 0xc0
      let operand :=
        if mode = modeReg then some (.reg (extend ext.b m), bs)
        else if m &&& 7 = 4 then readIndexed ext mode bs
        else if m &&& 7 = 5 ∧ mode = modeNone then none
        else readBase mode (extend ext.b m) bs
      operand.map fun (rm, rest) => (reg, rm, rest)

namespace Insn

/-- Instructions with 64-bit operands, behind a prefix byte. -/
def readWide (ext : Extension) (op : UInt8) (bs : Bytes) : Option (Insn × Bytes) :=
  if 0xb8 ≤ op ∧ op ≤ 0xbf then
    bs.word64?.map fun w => (.movImm64 (extend ext.b op) w, bs.drop 8)
  else
    match readModRM ext bs with
    | none => none
    | some (reg, rm, rest) =>
        match op, rm with
        | 0x8b, .abs d => some (.loadAbs reg d, rest)
        | 0x8b, .base r => some (.load reg r, rest)
        | 0x8b, .baseDisp32 r d => some (.loadDisp reg r d, rest)
        | 0x89, .abs d => some (.storeAbs d reg, rest)
        | 0x89, .base r => some (.store r reg, rest)
        | 0x89, .baseDisp32 r d => some (.storeDisp r d reg, rest)
        | 0x8d, .baseDisp8 r d => if r = .rsp then some (.leaRsp reg d, rest) else none
        | 0x31, .reg r => some (.xor r reg, rest)
        | 0x39, .reg r => some (.cmp r reg, rest)
        | 0x83, .reg r =>
            (readDisp8 rest).bind fun (imm, rest) =>
              if reg &&& 7 = 0 then some (.addImm r imm, rest)
              else if reg &&& 7 = 5 then some (.subImm r imm, rest)
              else none
        | _, _ => none

/-- Instructions whose operands need no widening. -/
def readNarrow (ext : Extension) (op : UInt8) (bs : Bytes) : Option (Insn × Bytes) :=
  if 0x50 ≤ op ∧ op ≤ 0x57 then some (.push (extend ext.b op), bs)
  else if 0x58 ≤ op ∧ op ≤ 0x5f then some (.pop (extend ext.b op), bs)
  else if 0xb8 ≤ op ∧ op ≤ 0xbf then
    (readDisp32 bs).map fun (imm, rest) => (.movImm32 (extend ext.b op) imm, rest)
  else if op = 0xff then
    match readModRM ext bs with
    | some (reg, .reg r, rest) => if reg &&& 7 = 2 then some (.callReg r, rest) else none
    | _ => none
  else none

/-- The stack slot that a scalar operation reads or writes. -/
def stackDisp? : RegMem → Option Int8
  | .base r => if r = .rsp then some 0 else none
  | .baseDisp8 r d => if r = .rsp then some d else none
  | _ => none

/-- Scalar operations on doubles. -/
def readScalar (op : UInt8) (bs : Bytes) : Option (Insn × Bytes) :=
  match readModRM .none bs with
  | none => none
  | some (x, rm, rest) =>
      if op = sseAdd ∨ op = sseMul ∨ op = sseSub ∨ op = sseDiv then
        match rm with
        | .reg src => some (.arithsd op x src, rest)
        | _ => none
      else
        (stackDisp? rm).bind fun disp =>
          if op = 0x10 then some (.movsdLoad x disp, rest)
          else if op = 0x11 then some (.movsdStore disp x, rest)
          else if op = 0x51 then some (.sqrtsd x disp, rest)
          else none

/-- Reads the instruction at the front of a byte string. -/
def read : Bytes → Option (Insn × Bytes)
  | 0xf2 :: 0x0f :: op :: bs => readScalar op bs
  | 0x0f :: op :: bs =>
      if op = 0x05 then some (.syscall, bs)
      else if op &&& 0xf0 = 0x80 then
        (readDisp32 bs).map fun (d, rest) => (.jcc (op &&& 0x0f) d, rest)
      else none
  | 0xe9 :: bs => (readDisp32 bs).map fun (d, rest) => (.jmp d, rest)
  | 0xe8 :: bs => (readDisp32 bs).map fun (d, rest) => (.call d, rest)
  | 0xc3 :: bs => some (.ret, bs)
  | b :: bs =>
      if 0x40 ≤ b ∧ b ≤ 0x4f then
        match bs with
        | op :: rest =>
            let ext := Extension.ofByte b
            if ext.w then readWide ext op rest else readNarrow ext op rest
        | [] => none
      else readNarrow .none b bs
  | [] => none

end Insn
end StackCode.X64
