import StackCode.Memory.Window

/-!
# Memory as a program sees it

A region is a run of mapped bytes somewhere in the address space. A running program has
two: its stack and its data. An access that is not wholly inside one of them has no
result.
-/
namespace StackCode.Memory

structure Region where
  base : UInt64
  bytes : Array UInt8
deriving DecidableEq, Repr

namespace Region

def empty : Region := ⟨0, #[]⟩

def ofWindow (w : Window) : Region := ⟨w.base.toUInt64, w.bytes⟩

/-- The index of the word at `addr`. An address in front of the base is a large distance
away, so one comparison decides. -/
def index? (r : Region) (addr : UInt64) : Option Nat :=
  let i := (addr - r.base).toNat
  if i + 8 ≤ r.bytes.size then some i else none

def load? (r : Region) (addr : UInt64) : Option UInt64 :=
  (r.index? addr).map (wordAt r.bytes)

/-- Stores a word at an index that is known to be inside. -/
def put (r : Region) (i : Nat) (v : UInt64) : Region :=
  match r with
  | ⟨base, bytes⟩ => ⟨base, store bytes i (Bytes.ofWord64 v)⟩

end Region

/-- The memory of a running program. -/
structure Space where
  stack : Region
  data : Region
deriving DecidableEq, Repr

namespace Space

def load? (m : Space) (addr : UInt64) : Option UInt64 :=
  (m.stack.load? addr).or (m.data.load? addr)

def store? (m : Space) (addr v : UInt64) : Option Space :=
  match m with
  | ⟨stack, data⟩ =>
      match stack.index? addr with
      | some i => some ⟨stack.put i v, data⟩
      | none =>
          match data.index? addr with
          | some i => some ⟨stack, data.put i v⟩
          | none => none

end Space
end StackCode.Memory
