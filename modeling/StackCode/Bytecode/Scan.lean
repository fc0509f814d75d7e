import StackCode.Bytecode.Instruction

/-!
# The linear decoding of a program

A program is read front to back, each instruction starting where the one before it
ends, until the bytes run out or no instruction can be read. Both the listing and
the lowering passes look at programs through this one decoding.
-/
namespace StackCode.Bytecode

/-- An instruction and the offset it starts at. -/
structure Located where
  ip : Nat
  instr : Instr
deriving DecidableEq, Repr

namespace Located

/-- The offset behind the instruction. -/
def next (l : Located) : Nat := l.ip + l.instr.len

end Located

/-- The instructions read, and where and why reading stopped short of the end. -/
structure Scan where
  instrs : List Located
  fault : Option (Nat × ReadFault)
deriving DecidableEq, Repr

namespace Scan

def cons (l : Located) (s : Scan) : Scan := ⟨l :: s.instrs, s.fault⟩

/-- Decodes bytes that start at offset `ip`, of which the first `skip` belong to the
instruction before. -/
def ofBytes (ip : Nat) : Nat → Bytes → Scan
  | _, [] => ⟨[], none⟩
  | skip + 1, _ :: bs => ofBytes (ip + 1) skip bs
  | 0, b :: bs =>
      match Instr.read (b :: bs) with
      | .error f => ⟨[], some (ip, f)⟩
      | .ok i => (ofBytes (ip + 1) (i.len - 1) bs).cons ⟨ip, i⟩

/-- The linear decoding of a program. -/
def ofCode (code : Bytes) : Scan := ofBytes 0 0 code

/-- Where the instructions start. -/
def starts (s : Scan) : List Nat := s.instrs.map Located.ip

/-- Does an instruction start at `t`? -/
def isStart (s : Scan) (t : Int) : Bool := s.instrs.any fun l => (l.ip : Int) == t

/-- The jumps of the program, each with its target. -/
def jumps (s : Scan) : List (Located × Int) :=
  s.instrs.filterMap fun l => l.instr.target?.map fun t => (l, t.toInt)

end Scan

/-- The whole program, if it decodes to its end. -/
def Scan.complete? (s : Scan) : Except Failure (List Located) :=
  match s.fault with
  | some (ip, f) => .error (f.report ip)
  | none => .ok s.instrs

end StackCode.Bytecode
