import StackCode.X64.Insn

/-!
# Writing into a fixed buffer

A buffer has a fixed length and a position that only moves forward. A plain chunk is
copied as far as it fits, and the position moves past all of it even so; a field
must fit as a whole. Nothing can be written once the position is past the end, and
then there is no finished text either. What was written before a chunk that cannot be
written stays.
-/
namespace StackCode.X64

structure Buffer where
  bytes : Bytes
  offset : Nat
deriving DecidableEq, Repr

namespace Buffer

/-- A buffer of `size` zero bytes. -/
def ofSize (size : Nat) : Buffer := ⟨List.replicate size 0, 0⟩

/-- How much room is left; negative once the position is past the end. -/
def remaining (b : Buffer) : Int := (b.bytes.length : Int) - b.offset

/-- What has been written, unless some of it was dropped. -/
def written? (b : Buffer) : Option Bytes :=
  if b.offset ≤ b.bytes.length then some (b.bytes.take b.offset) else none

/-- The room a chunk insists on. -/
def need : Chunk → Nat
  | .plain _ => 0
  | .field bs => bs.length

/-- Writes a chunk at the position. -/
def put (b : Buffer) (c : Chunk) : Option Buffer :=
  if b.offset + need c ≤ b.bytes.length then
    some ⟨b.bytes.overwrite b.offset c.bytes, b.offset + c.bytes.length⟩
  else none

/-- Writes chunks until one cannot be written; says whether all could be. -/
def putAll (b : Buffer) : List Chunk → Buffer × Bool
  | [] => (b, true)
  | c :: cs =>
      match b.put c with
      | some b' => b'.putAll cs
      | none => (b, false)

/-- Writes an instruction. -/
def write (b : Buffer) (i : Insn) : Buffer × Bool := b.putAll i.chunks

/-- Lays `field` over the bytes from `pos` on, wherever the position is. -/
def patch (b : Buffer) (pos : Int) (field : Bytes) : Option Buffer :=
  if 0 ≤ pos ∧ pos + field.length ≤ b.bytes.length then
    some { b with bytes := b.bytes.overwrite pos.toNat field }
  else none

end Buffer

/-- What can be asked of a buffer. -/
inductive Directive where
  | insn (i : Insn)
  /-- a copy of ready-made code -/
  | copy (code : Bytes)
  | patch (pos : Int) (field : Bytes)
deriving DecidableEq, Repr

/-- The answer to a directive: the buffer afterwards, where the field or copy starts,
and whether all of it could be carried out. -/
structure Written where
  buffer : Buffer
  field : Option Nat
  complete : Bool
deriving DecidableEq, Repr

namespace Buffer

def perform (b : Buffer) : Directive → Written
  | .insn i =>
      let (b', ok) := b.write i
      ⟨b', if ok then i.fieldAt?.map (b.offset + ·) else none, ok⟩
  | .copy code =>
      match b.put (.plain code) with
      | some b' => ⟨b', some b.offset, true⟩
      | none => ⟨b, none, false⟩
  | .patch pos field =>
      match b.patch pos field with
      | some b' => ⟨b', none, true⟩
      | none => ⟨b, none, false⟩

/-- Carries out directives in order; gives up at the first that is incomplete. -/
def performAll (b : Buffer) : List Directive → Option Buffer
  | [] => some b
  | d :: ds =>
      let w := b.perform d
      if w.complete then w.buffer.performAll ds else none

end Buffer
end StackCode.X64
