import StackCode.Bytecode.Instruction
import StackCode.Text.Quoted

/-!
# Programs under construction

A draft grows by calls that append instructions or bind labels to the current
offset. Jumps may name labels that are bound later; their target fields stay zero
until the draft is finished. A call that cannot be honoured changes nothing but the
record of the first refusal, and a draft with a refusal never finishes.
-/
namespace StackCode.Bytecode

/-- An operand as a caller describes it. Form and register are bare numbers, and
fields that the form has no use for are ignored. -/
structure Operand where
  form : Int
  reg : UInt8
  imm : UInt64
  disp : Int32
deriving DecidableEq, Repr

namespace Operand

def nothing : Operand := ⟨Form.empty.code, 0, 0, 0⟩

def literal (bits : UInt64) : Operand := ⟨Form.imm.code, 0, bits, 0⟩

def absolute (addr : Int32) : Operand := ⟨Form.memImm.code, 0, 0, addr⟩

def register (r : UInt8) : Operand := ⟨Form.reg.code, r, 0, 0⟩

def pointer (r : UInt8) : Operand := ⟨Form.memReg.code, r, 0, 0⟩

def offset (r : UInt8) (disp : Int32) : Operand := ⟨Form.memRegImm.code, r, 0, disp⟩

/-- The bytes that follow the tag. -/
def payload (o : Operand) : Bytes :=
  match Form.ofCode? o.form with
  | some .imm => Bytes.ofWord64 o.imm
  | some .memImm | some .memRegImm => Bytes.ofWord32 o.disp.toUInt32
  | _ => []

end Operand

/-- Why a call is not honoured. -/
inductive Refusal where
  | labelTwice (name : String)
  | notPlain (op : UInt8)
  | wrongForm (op : UInt8) (form : Int)
  | noTag (f : TagFault)
  | notJump (op : UInt8)
deriving DecidableEq, Repr

namespace Refusal

def message : Refusal → String
  | .labelTwice n => "label " ++ Text.quoted n ++ " defined twice"
  | .notPlain op => Opcode.describe op ++ " is not an operand-less instruction"
  | .wrongForm op f =>
      Opcode.describe op ++ " does not accept a " ++ Form.describe f ++ " operand"
  | .noTag f => f.message
  | .notJump op => Opcode.describe op ++ " is not a jump"

end Refusal

/-- Why a draft does not finish. -/
inductive Unfinished where
  | refused (r : Refusal)
  | unboundLabel (name : String)
deriving DecidableEq, Repr

namespace Unfinished

def message : Unfinished → String
  | .refused r => r.message
  | .unboundLabel n => "undefined label " ++ Text.quoted n

end Unfinished

structure Draft where
  code : Bytes
  /-- labels and the offsets they are bound to -/
  labels : List (String × Nat)
  /-- target fields to fill in, in the order of their jumps -/
  pending : List (Nat × String)
  refusal : Option Refusal
deriving DecidableEq, Repr

/-- The calls that build a draft. -/
inductive Call where
  | label (name : String)
  | emit (op : UInt8)
  | push (o : Operand)
  | pop (o : Operand)
  | jump (op : UInt8) (label : String)
  | jumpTo (op : UInt8) (target : Int32)
  | raw (bytes : Bytes)
deriving DecidableEq, Repr

namespace Draft

def empty : Draft := ⟨[], [], [], none⟩

/-- The offset of the next instruction. -/
def offset (d : Draft) : Nat := d.code.length

/-- Records a refusal unless there was one before. -/
def refuse (d : Draft) (r : Refusal) : Draft := { d with refusal := d.refusal.or (some r) }

def append (d : Draft) (bs : Bytes) : Draft := { d with code := d.code ++ bs }

def bind (d : Draft) (name : String) : Except Refusal Draft :=
  if (d.labels.lookup name).isSome then .error (.labelTwice name)
  else .ok { d with labels := (name, d.offset) :: d.labels }

def emit (d : Draft) (op : UInt8) : Except Refusal Draft :=
  match Opcode.ofByte? op with
  | some o => if o.operand = .none then .ok (d.append [op]) else .error (.notPlain op)
  | none => .error (.notPlain op)

def stackOp (d : Draft) (op : Opcode) (o : Operand) : Except Refusal Draft :=
  if Opcode.accepts op.toByte o.form then
    match encodeTag o.form o.reg with
    | (_, some f) => .error (.noTag f)
    | (tag, none) => .ok (d.append (op.toByte :: tag ++ o.payload))
  else .error (.wrongForm op.toByte o.form)

def jump (d : Draft) (op : UInt8) (label : String) : Except Refusal Draft :=
  if (Opcode.branch? op).isSome then
    .ok { d.append [op, 0, 0, 0, 0] with pending := d.pending ++ [(d.offset + 1, label)] }
  else .error (.notJump op)

def jumpTo (d : Draft) (op : UInt8) (target : Int32) : Except Refusal Draft :=
  if (Opcode.branch? op).isSome then .ok (d.append (op :: Bytes.ofWord32 target.toUInt32))
  else .error (.notJump op)

/-- What a call does to a draft, or why it is refused. -/
def attempt (d : Draft) : Call → Except Refusal Draft
  | .label n => d.bind n
  | .emit op => d.emit op
  | .push o => d.stackOp .push o
  | .pop o => d.stackOp .pop o
  | .jump op l => d.jump op l
  | .jumpTo op t => d.jumpTo op t
  | .raw bs => .ok (d.append bs)

/-- Carries out a call. A refused one leaves only its refusal behind. -/
def apply (d : Draft) (c : Call) : Draft :=
  match d.attempt c with
  | .ok d' => d'
  | .error r => d.refuse r

/-- Fills in target fields, in order. -/
def resolve (labels : List (String × Nat)) : List (Nat × String) → Bytes →
    Except Unfinished Bytes
  | [], code => .ok code
  | (pos, name) :: rest, code =>
      match labels.lookup name with
      | some target =>
          resolve labels rest (code.overwrite pos (Bytes.ofWord32 (UInt32.ofNat target)))
      | none => .error (.unboundLabel name)

/-- The finished program. Finishing does not change the draft. -/
def finish (d : Draft) : Except Unfinished Bytes :=
  match d.refusal with
  | some r => .error (.refused r)
  | none => resolve d.labels d.pending d.code

/-- The text with which a draft that must finish gives up. -/
def abortText (u : Unfinished) : String := "bytecode: " ++ u.message

end Draft
end StackCode.Bytecode
