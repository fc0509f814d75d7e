import StackCode.Bytecode.Scan
import StackCode.Lowering.Catalog

/-!
# The walk along a program

Every pass follows the same walk: the linear decoding of the program, each instruction
with its descriptor, its native offset and the simulated stack depth in front of it.
A walk ends early where an instruction cannot be read or has no lowering.
-/
namespace StackCode.Lowering

open Bytecode

/-- The walk in front of one instruction. -/
structure Step where
  ip : Nat
  instr : Instr
  desc : Descriptor
  nativeIp : Nat
  depth : Int
deriving DecidableEq, Repr

structure Walk where
  steps : List Step
  /-- native offset behind the last step -/
  nativeLen : Nat
  /-- stack depth behind the last step -/
  depth : Int
  /-- why the walk did not reach the end of the program -/
  fault : Option Failure
deriving DecidableEq, Repr

namespace Walk

def cons (s : Step) (w : Walk) : Walk := { w with steps := s :: w.steps }

/-- Follows instructions from a native offset and a stack depth on. `stop` says why
there are no more of them. -/
def follow (stop : Option Failure) (native : Nat) (depth : Int) : List Located → Walk
  | [] => ⟨[], native, depth, stop⟩
  | l :: ls =>
      match Catalog.lookup (Variant.ofInstr l.instr depth) with
      | .error f => ⟨[], native, depth, some (f.report l.ip)⟩
      | .ok d =>
          (follow stop (native + d.nativeLen) (depth + d.stackDelta) ls).cons
            ⟨l.ip, l.instr, d, native, depth⟩

/-- The walk along a program. A missing or empty program is a fault of its own. -/
def ofCode : Option Bytes → Walk
  | none => ⟨[], 0, 0, some (.report .nullInput (-1) "no bytecode buffer")⟩
  | some [] => ⟨[], 0, 0, some (.report .nullInput 0 "empty bytecode buffer")⟩
  | some code =>
      let s := Scan.ofCode code
      follow (s.fault.map fun (ip, f) => f.report ip) 0 0 s.instrs

end Walk
end StackCode.Lowering
