import StackCode.Memory.Pages

/-!
# The kernel

Memory comes from the kernel: it is asked for pages, for a change of what may be done to them,
and to take them back. What it answers is a matter of its own, so its answers come in from
outside. `Kernel.simple` is one kernel that answers.
-/
namespace StackCode.Memory

/-- Addresses in a row. -/
structure Span where
  base : UInt64
  length : Nat
deriving DecidableEq, Repr

/-- Whether two spans have an address in common. -/
def Span.meets (s t : Span) : Bool :=
  max s.base.toNat t.base.toNat < min (s.base.toNat + s.length) (t.base.toNat + t.length)

/-- The answers of a kernel. A refusal is the text of its reason. -/
structure Kernel where
  /-- where it finds so many bytes -/
  map : Nat → Except String UInt64
  /-- where it puts so many bytes that are wanted at an address -/
  mapAt : UInt64 → UInt64 → Except String UInt64
  /-- why it does not make pages executable -/
  protect : Option String
  /-- why it does not take pages back -/
  unmap : Option String

namespace Kernel

/-- A kernel that puts code at one address and other memory where it is wanted, unless that is
past the end of the addresses or taken. -/
def simple (code : UInt64) (taken : List Span) : Kernel where
  map length := if addressSpace < length then .error outOfMemory else .ok code
  mapAt base length :=
    if addressSpace < base.toNat + length.toNat then .error outOfMemory
    else if taken.any (·.meets ⟨base, length.toNat⟩) then .error occupied
    else .ok base
  protect := none
  unmap := none

end Kernel
end StackCode.Memory
