import StackCode.X64.Buffer
import StackCode.X64.Text

/-!
# Templates

A template is ready-made machine code with named slots: fields that are filled in
after copying. Templates are frozen from a scratch buffer of fixed size. `ofBlock`
freezes a block directly: its bytes are the encodings in order, and the slot of a
marked instruction is where its field stands.
-/
namespace StackCode.Lowering

open X64

/-- The name of a field. Slots are known by their numbers. -/
structure Slot where
  code : Int
deriving DecidableEq, Repr

namespace Slot

/-- The literal of a push. -/
def imm64 : Slot := ⟨0⟩

/-- An address or a distance from a register. -/
def disp32 : Slot := ⟨1⟩

/-- A branch distance, filled in last. -/
def rel32 : Slot := ⟨2⟩

/-- The address of a host helper. -/
def helper : Slot := ⟨3⟩

/-- The slots with a name, in the order of their numbers. -/
def all : List Slot := [imm64, disp32, rel32, helper]

def name (s : Slot) : String :=
  if s = imm64 then "imm64"
  else if s = disp32 then "disp32"
  else if s = rel32 then "rel32"
  else if s = helper then "helper"
  else "Slot(" ++ toString s.code ++ ")"

/-- Bytes the field takes. -/
def width (s : Slot) : Nat := if s = imm64 ∨ s = helper then 8 else 4

end Slot

structure Template where
  code : Bytes
  /-- slots and where their fields start, one entry to a slot -/
  slots : List (Slot × Int)
deriving DecidableEq, Repr

/-- Why no template comes out of assembly. -/
inductive AssemblyFault where
  /-- the code does not fit the scratch buffer -/
  | outOfRange
  | slotOverrun (slot : Slot) (pos : Int) (size : Nat)
deriving DecidableEq, Repr

namespace AssemblyFault

/-- The text of a fault that has one. -/
def message? : AssemblyFault → Option String
  | .outOfRange => none
  | .slotOverrun s pos size =>
      some ("jit: " ++ s.name ++ " slot at " ++ toString pos ++ " overruns " ++
        toString size ++ "-byte template")

end AssemblyFault

/-- An instruction of a block, and the slot its field is, if it is to be filled. -/
structure Item where
  insn : Insn
  slot : Option Slot
deriving DecidableEq, Repr

/-- The code of one instruction variant. -/
abbrev Block := List Item

namespace Item

def fixed (i : Insn) : Item := ⟨i, none⟩

end Item

namespace Template

/-- No template is longer than this. -/
def scratchSize : Nat := 64

def slot? (t : Template) (s : Slot) : Option Int := t.slots.lookup s

/-- Marks a slot; a later mark of a slot takes the place of an earlier one. -/
def mark (slots : List (Slot × Int)) (s : Slot) (pos : Int) : List (Slot × Int) :=
  slots.filter (fun m => m.1 ≠ s) ++ [(s, pos)]

def markAll (marks : List (Slot × Int)) : List (Slot × Int) :=
  marks.foldl (fun slots m => mark slots m.1 m.2) []

/-- Does the field of a mark end within `size` bytes? The sum is one of signed 64-bit
words, which wraps around. -/
def inside (size : Nat) (m : Slot × Int) : Bool :=
  (Int64.ofInt m.2 + Int64.ofNat m.1.width).toInt ≤ size

/-- Assembles in the scratch buffer, freezes the result and checks its marks. -/
def assemble (ds : List Directive) (marks : List (Slot × Int)) :
    Except AssemblyFault Template :=
  match ((Buffer.ofSize scratchSize).performAll ds).bind Buffer.written? with
  | none => .error .outOfRange
  | some code =>
      let slots := markAll marks
      match slots.find? fun m => !inside code.length m with
      | some (s, pos) => .error (.slotOverrun s pos code.length)
      | none => .ok ⟨code, slots⟩

/-- Marks of a block that starts at offset `pos`. -/
def blockMarks (pos : Nat) : Block → List (Slot × Int)
  | [] => []
  | i :: rest =>
      let later := blockMarks (pos + i.insn.encode.length) rest
      match i.slot, i.insn.fieldAt? with
      | some s, some at_ => (s, ((pos + at_ : Nat) : Int)) :: later
      | _, _ => later

/-- The template of a block. -/
def ofBlock (b : Block) : Template :=
  ⟨Insn.encodeAll (b.map Item.insn), markAll (blockMarks 0 b)⟩

end Template
end StackCode.Lowering
