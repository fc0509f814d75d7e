import StackCode.Bytecode.Instruction

/-!
# Instruction variants

A variant selects one lowering: an opcode, an operand form, a register, and whether
the code around a helper call carries an extra word for alignment. The parts are bare
numbers, so that any combination can be asked for; `less` orders all of them.
-/
namespace StackCode.Lowering

open Bytecode

structure Variant where
  op : UInt8
  form : Int
  reg : UInt8
  padded : Bool
deriving DecidableEq, Repr

namespace Variant

def text (v : Variant) : String :=
  Opcode.describe v.op ++
    (if v.form = Form.none.code ∨ v.form = Form.target.code then ""
      else " " ++ Form.describe v.form) ++
    (if v.reg = 0 then "" else " " ++ Register.describe v.reg) ++
    (if v.padded then " (padded)" else "")

/-- Opcode first, then form, then register, then plain before padded. -/
def less (a b : Variant) : Bool :=
  if a.op ≠ b.op then a.op < b.op
  else if a.form ≠ b.form then a.form < b.form
  else if a.reg ≠ b.reg then a.reg < b.reg
  else !a.padded && b.padded

/-- The variant of an opcode whose operand, if any, is a target. -/
def plain (op : Opcode) (padded : Bool) : Variant :=
  ⟨op.toByte, op.operand.code, 0, padded⟩

/-- The variant of a stack operation. -/
def stack (op : Opcode) (form : Form) (reg : Option Register) : Variant :=
  ⟨op.toByte, form.code, Register.byteOf reg, false⟩

/-- Does the helper call of an instruction need an extra word, `depth` words into the
program? The stack is 8 modulo 16 at entry, so after `depth` words it is aligned exactly
when `depth` is odd. Reading a number adds five words before its call, printing one adds
four. -/
def needsPadding (i : Instr) (depth : Int) : Bool :=
  match i with
  | .input => depth % 2 = 1
  | .output => depth % 2 = 0
  | _ => false

/-- The variant of an instruction met at `depth`. -/
def ofInstr (i : Instr) (depth : Int) : Variant :=
  ⟨i.opcode.toByte, i.form.code, Register.byteOf i.reg?, needsPadding i depth⟩

end Variant
end StackCode.Lowering
