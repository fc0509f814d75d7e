import StackCode.Text.Number

/-!
# Operand forms, registers and operand tags

An instruction has one of nine operand forms. `push` and `pop` name theirs by a
three-byte tag: a memory flag, a register number and an immediate flag. Forms and
registers are also met as bare numbers, some of them without a meaning; `describe`
spells any number.
-/
namespace StackCode.Bytecode

/-- The source registers. -/
inductive Register where
  | ax | bx | cx | dx
deriving DecidableEq, Repr

namespace Register

/-- All registers, in the order of their numbers. -/
def all : List Register := [.ax, .bx, .cx, .dx]

def toByte : Register → UInt8
  | .ax => 1
  | .bx => 2
  | .cx => 3
  | .dx => 4

def ofByte? : UInt8 → Option Register
  | 1 => some .ax
  | 2 => some .bx
  | 3 => some .cx
  | 4 => some .dx
  | _ => none

def name : Register → String
  | .ax => "ax"
  | .bx => "bx"
  | .cx => "cx"
  | .dx => "dx"

/-- The number of an optional register; zero stands for none. -/
def byteOf (r : Option Register) : UInt8 := (r.map toByte).getD 0

/-- Spells a register number. -/
def describe (b : UInt8) : String :=
  match ofByte? b with
  | some r => r.name
  | none => if b = 0 then "none" else "reg(" ++ toString b.toNat ++ ")"

theorem ofByte?_toByte (r : Register) : ofByte? r.toByte = some r := by
  cases r <;> rfl

end Register

/-- The shape of an instruction's operand. -/
inductive Form where
  /-- no operand -/
  | none
  /-- a four-byte jump target -/
  | target
  /-- a tag that has not been read yet -/
  | tagged
  /-- a tag that names nothing -/
  | empty
  /-- an eight-byte literal -/
  | imm
  /-- the cell at a four-byte address -/
  | memImm
  /-- a register -/
  | reg
  /-- the cell a register points at -/
  | memReg
  /-- the cell at a four-byte distance from a register -/
  | memRegImm
deriving DecidableEq, Repr

namespace Form

def code : Form → Int
  | .none => 0
  | .target => 1
  | .tagged => 2
  | .empty => 3
  | .imm => 4
  | .memImm => 5
  | .reg => 6
  | .memReg => 7
  | .memRegImm => 8

/-- All forms, in the order of their numbers. -/
def all : List Form :=
  [.none, .target, .tagged, .empty, .imm, .memImm, .reg, .memReg, .memRegImm]

def ofCode? (c : Int) : Option Form := all.find? fun f => f.code == c

def name : Form → String
  | .none => "none"
  | .target => "target"
  | .tagged => "tagged"
  | .empty => "empty"
  | .imm => "imm"
  | .memImm => "[imm]"
  | .reg => "reg"
  | .memReg => "[reg]"
  | .memRegImm => "[reg+imm]"

/-- Spells a form number. -/
def describe (c : Int) : String :=
  match ofCode? c with
  | some f => f.name
  | Option.none => "form(" ++ toString c ++ ")"

/-- Bytes taken by an instruction of this form, the opcode included. A tag that
has not been read has no length yet. -/
def sourceLen : Form → Nat
  | .none => 1
  | .target => 5
  | .tagged => 0
  | .empty => 4
  | .imm => 12
  | .memImm => 8
  | .reg => 4
  | .memReg => 4
  | .memRegImm => 8

def hasRegister : Form → Bool
  | .reg | .memReg | .memRegImm => true
  | _ => false

/-- Whether a form number names a form with a register. -/
def codeHasRegister (c : Int) : Bool := (ofCode? c).any hasRegister

/-- The source length of the form that a number names. -/
def codeSourceLen (c : Int) : Nat := ((ofCode? c).map sourceLen).getD 0

/-- The forms a tag can name. -/
def stackForms : List Form := [.empty, .imm, .memImm, .reg, .memReg, .memRegImm]

theorem ofCode?_code (f : Form) : ofCode? f.code = some f := by
  cases f <;> decide

end Form

/-- A tag whose three bytes are each in range. -/
structure Tag where
  mem : Bool
  reg : Option Register
  imm : Bool
deriving DecidableEq, Repr

namespace Tag

/-- The tag of three zero bytes. -/
def zero : Tag := ⟨false, none, false⟩

/-- Reads three tag bytes. The flags are zero or one, the register number at most
four. -/
def ofBytes? (m r i : UInt8) : Option Tag :=
  if 1 < m ∨ 4 < r ∨ 1 < i then none
  else some ⟨m == 1, Register.ofByte? r, i == 1⟩

/-- The form a tag names. Two combinations of flags name none. -/
def form? : Tag → Option Form
  | ⟨false, none, false⟩ => some .empty
  | ⟨false, none, true⟩ => some .imm
  | ⟨true, none, true⟩ => some .memImm
  | ⟨false, some _, false⟩ => some .reg
  | ⟨true, some _, false⟩ => some .memReg
  | ⟨true, some _, true⟩ => some .memRegImm
  | ⟨true, none, false⟩ => none
  | ⟨false, some _, true⟩ => none

/-- The three bytes of a tag. -/
def bytes (t : Tag) : List UInt8 :=
  [if t.mem then 1 else 0, Register.byteOf t.reg, if t.imm then 1 else 0]

end Tag

/-- Why an operand has no tag. -/
inductive TagFault where
  | noTag (form : Int)
  | noRegister (form : Int) (reg : UInt8)
deriving DecidableEq, Repr

namespace TagFault

def message : TagFault → String
  | .noTag f => "form " ++ Form.describe f ++ " has no operand tag"
  | .noRegister f r =>
      "form " ++ Form.describe f ++ " needs a register, got " ++ Register.describe r

end TagFault

/-- The tag bytes of a form number and a register number. The bytes are given even
when they are refused, as far as the form determines them. -/
def encodeTag (form : Int) (reg : UInt8) : List UInt8 × Option TagFault :=
  let checked (bs : List UInt8) : List UInt8 × Option TagFault :=
    (bs, if (Register.ofByte? reg).isSome then none else some (.noRegister form reg))
  match Form.ofCode? form with
  | some .empty => ([0, 0, 0], none)
  | some .imm => ([0, 0, 1], none)
  | some .memImm => ([1, 0, 1], none)
  | some .reg => checked [0, reg, 0]
  | some .memReg => checked [1, reg, 0]
  | some .memRegImm => checked [1, reg, 1]
  | _ => ([0, 0, 0], some (.noTag form))

end StackCode.Bytecode
