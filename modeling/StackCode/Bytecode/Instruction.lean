import StackCode.Bytes
import StackCode.Bytecode.Opcode
import StackCode.Decimal.OfBinary
import StackCode.Failure

/-!
# Instructions: reading, writing, spelling

`Instr` holds exactly the instructions that have an encoding. `encode` writes one,
`read` takes one off the front of a byte string and otherwise says what is wrong
with it, and `text` spells it in assembler style. Reading looks at nothing but the
bytes in front of it.
-/
namespace StackCode.Bytecode

/-- A cell of the data window. -/
inductive Cell where
  /-- the cell at an address -/
  | abs (addr : Int32)
  /-- the cell a register points at -/
  | ptr (r : Register)
  /-- the cell at a distance from where a register points -/
  | off (r : Register) (disp : Int32)
deriving DecidableEq, Repr

/-- What `push` pushes. -/
inductive Source where
  | imm (bits : UInt64)
  | reg (r : Register)
  | mem (c : Cell)
deriving DecidableEq, Repr

/-- Where `pop` pops to. -/
inductive Dest where
  | discard
  | reg (r : Register)
  | mem (c : Cell)
deriving DecidableEq, Repr

inductive Instr where
  | hlt
  | push (src : Source)
  | pop (dst : Dest)
  | arith (op : Arith)
  | sqrt
  | input
  | output
  | branch (b : Branch) (target : Int32)
  | ret
deriving DecidableEq, Repr

namespace Cell

def form : Cell → Form
  | .abs _ => .memImm
  | .ptr _ => .memReg
  | .off _ _ => .memRegImm

def reg? : Cell → Option Register
  | .abs _ => none
  | .ptr r | .off r _ => some r

def disp : Cell → Int32
  | .abs d | .off _ d => d
  | .ptr _ => 0

def encode : Cell → Bytes
  | .abs d => [1, 0, 1] ++ Bytes.ofWord32 d.toUInt32
  | .ptr r => [1, r.toByte, 0]
  | .off r d => [1, r.toByte, 1] ++ Bytes.ofWord32 d.toUInt32

def text : Cell → String
  | .abs d => "[" ++ toString d.toInt ++ "]"
  | .ptr r => "[" ++ r.name ++ "]"
  | .off r d =>
      "[" ++ r.name ++ (if d.toInt < 0 then "" else "+") ++ toString d.toInt ++ "]"

end Cell

namespace Source

def form : Source → Form
  | .imm _ => .imm
  | .reg _ => .reg
  | .mem c => c.form

def encode : Source → Bytes
  | .imm bits => [0, 0, 1] ++ Bytes.ofWord64 bits
  | .reg r => [0, r.toByte, 0]
  | .mem c => c.encode

end Source

namespace Dest

def form : Dest → Form
  | .discard => .empty
  | .reg _ => .reg
  | .mem c => c.form

def encode : Dest → Bytes
  | .discard => [0, 0, 0]
  | .reg r => [0, r.toByte, 0]
  | .mem c => c.encode

end Dest

namespace Instr

def opcode : Instr → Opcode
  | .hlt => .hlt
  | .push _ => .push
  | .pop _ => .pop
  | .arith op => .arith op
  | .sqrt => .sqrt
  | .input => .input
  | .output => .output
  | .branch b _ => .branch b
  | .ret => .ret

def form : Instr → Form
  | .push src => src.form
  | .pop dst => dst.form
  | .branch _ _ => .target
  | .hlt | .arith _ | .sqrt | .input | .output | .ret => .none

def reg? : Instr → Option Register
  | .push (.reg r) | .pop (.reg r) => some r
  | .push (.mem c) | .pop (.mem c) => c.reg?
  | _ => none

/-- The bits of the literal, zero if there is none. -/
def imm : Instr → UInt64
  | .push (.imm bits) => bits
  | _ => 0

/-- The address or distance, zero if there is none. -/
def disp : Instr → Int32
  | .push (.mem c) | .pop (.mem c) => c.disp
  | _ => 0

/-- The jump target, if the instruction carries one. -/
def target? : Instr → Option Int32
  | .branch _ t => some t
  | _ => none

/-- Source bytes the instruction takes. -/
def len (i : Instr) : Nat := i.form.sourceLen

/-- The one encoding of an instruction. -/
def encode (i : Instr) : Bytes :=
  i.opcode.toByte ::
    match i with
    | .push src => src.encode
    | .pop dst => dst.encode
    | .branch _ t => Bytes.ofWord32 t.toUInt32
    | .hlt | .arith _ | .sqrt | .input | .output | .ret => []

/-- The operand as it is written, for instructions that show one. -/
def operandText? : Instr → Option String
  | .push (.imm bits) => some (Decimal.literal.spell bits)
  | .push (.reg r) | .pop (.reg r) => some r.name
  | .push (.mem c) | .pop (.mem c) => some c.text
  | .branch _ t => some (toString t.toInt)
  | _ => none

def text (i : Instr) : String :=
  match i.operandText? with
  | some o => i.opcode.name ++ " " ++ o
  | none => i.opcode.name

end Instr

/-- Why no instruction can be read. -/
inductive ReadFault where
  /-- there is no byte string at all -/
  | absent
  /-- the offset is not in the byte string -/
  | outside (size : Nat)
  | undefinedOpcode (byte : UInt8)
  /-- fewer than three bytes follow an opcode that needs a tag -/
  | cutTag (op : Opcode)
  /-- the tag has no meaning, or none for this opcode -/
  | badTag (op : Opcode) (m r i : UInt8)
  /-- the operand ends early; `left` bytes remain from the opcode on -/
  | cutOperand (op : Opcode) (form : Form) (left : Nat)
deriving DecidableEq, Repr

namespace ReadFault

def kind : ReadFault → FailureKind
  | .absent => .nullInput
  | .outside _ | .cutTag _ | .cutOperand _ _ _ => .truncatedInstruction
  | .undefinedOpcode _ => .undefinedOpcode
  | .badTag _ _ _ _ => .unexpectedOperandTag

def message : ReadFault → String
  | .absent => "no bytecode buffer"
  | .outside size => "ip outside buffer of " ++ toString size ++ " bytes"
  | .undefinedOpcode b => "byte 0x" ++ Text.hexByte b
  | .cutTag op => op.name ++ " needs a 3-byte operand tag"
  | .badTag op m r i =>
      op.name ++ " with tag " ++ toString m.toNat ++ "," ++ toString r.toNat ++ "," ++
        toString i.toNat
  | .cutOperand op form left =>
      op.name ++ " " ++ form.name ++ " needs " ++ toString form.sourceLen ++ " bytes, " ++
        toString left ++ " left"

/-- The report of a fault at a source offset. -/
def report (f : ReadFault) (ip : Int) : Failure := .report f.kind ip f.message

end ReadFault

namespace Instr

/-- Reads the 32-bit operand of `op` from `bs`; `left` bytes remain in all. -/
def readWord32 (op : Opcode) (form : Form) (left : Nat) (bs : Bytes) :
    Except ReadFault Int32 :=
  match bs.word32? with
  | some w => .ok w.toInt32
  | none => .error (.cutOperand op form left)

/-- Reads the cell a tag with its memory flag set names. -/
def readCell (op : Opcode) (reg : Option Register) (imm : Bool) (left : Nat) (bs : Bytes) :
    Option (Except ReadFault Cell) :=
  match reg, imm with
  | none, true => some ((readWord32 op .memImm left bs).map .abs)
  | some r, false => some (.ok (.ptr r))
  | some r, true => some ((readWord32 op .memRegImm left bs).map (.off r))
  | none, false => none

/-- Reads what `push` pushes. `none` stands for a tag without a meaning here. -/
def readSource (t : Tag) (left : Nat) (bs : Bytes) : Option (Except ReadFault Source) :=
  match t with
  | ⟨true, reg, imm⟩ => (readCell .push reg imm left bs).map (·.map .mem)
  | ⟨false, none, true⟩ =>
      some (match bs.word64? with
        | some w => .ok (.imm w)
        | none => .error (.cutOperand .push .imm left))
  | ⟨false, some r, false⟩ => some (.ok (.reg r))
  | _ => none

/-- Reads where `pop` pops to. `none` stands for a tag without a meaning here. -/
def readDest (t : Tag) (left : Nat) (bs : Bytes) : Option (Except ReadFault Dest) :=
  match t with
  | ⟨true, reg, imm⟩ => (readCell .pop reg imm left bs).map (·.map .mem)
  | ⟨false, none, false⟩ => some (.ok .discard)
  | ⟨false, some r, false⟩ => some (.ok (.reg r))
  | _ => none

/-- Reads the tag behind the opcode byte, then the operand it asks for. -/
def readTagged {α : Type} (op : Opcode) (left : Nat) (bs : Bytes)
    (operand : Tag → Nat → Bytes → Option (Except ReadFault α)) : Except ReadFault α :=
  match bs with
  | m :: r :: i :: rest =>
      match (Tag.ofBytes? m r i).bind fun t => operand t left rest with
      | some result => result
      | none => .error (.badTag op m r i)
  | _ => .error (.cutTag op)

/-- Reads the instruction at the front of a byte string. -/
def read : Bytes → Except ReadFault Instr
  | [] => .error (.outside 0)
  | b :: bs =>
      match Opcode.ofByte? b with
      | none => .error (.undefinedOpcode b)
      | some .hlt => .ok .hlt
      | some .push => (readTagged .push (bs.length + 1) bs readSource).map .push
      | some .pop => (readTagged .pop (bs.length + 1) bs readDest).map .pop
      | some (.arith op) => .ok (.arith op)
      | some .sqrt => .ok .sqrt
      | some .input => .ok .input
      | some .output => .ok .output
      | some (.branch j) =>
          (readWord32 (.branch j) .target (bs.length + 1) bs).map (.branch j)
      | some .ret => .ok .ret

/-- Reads the instruction at offset `ip` of a byte string. -/
def readAt (code : Bytes) (ip : Int) : Except ReadFault Instr :=
  if 0 ≤ ip ∧ ip < code.length then read (code.drop ip.toNat)
  else .error (.outside code.length)

/-- Reads at an offset of a byte string that may be missing; a failure names the offset. -/
def decode (code : Option Bytes) (ip : Int) : Except Failure Instr :=
  match code with
  | none => .error (ReadFault.absent.report ip)
  | some c => (readAt c ip).mapError (·.report ip)

end Instr
end StackCode.Bytecode
