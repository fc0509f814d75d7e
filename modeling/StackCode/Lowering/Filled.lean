import StackCode.Lowering.Layout

/-!
# Filling an image

The second pass writes into the front of a buffer, as far as the layout says, one block for
each instruction: its template is copied, and then literals, displacements and helper
addresses are laid over the fields of the copy. Branch fields stay zero. A block that does
not fit is not begun. On a fault what was written so far stays in the buffer.
-/
namespace StackCode.Lowering

open Bytecode X64

/-- How a pass ended. -/
inductive Outcome where
  | done
  | failed (f : Failure)
  /-- an access outside a buffer -/
  | outOfRange
deriving DecidableEq, Repr

namespace Step

/-- The fields that are filled in, with their bytes: the literal or displacement of the
operand, then the address of the helper. -/
def fields (h : Helpers) (s : Step) : List (Slot × Bytes) :=
  (match s.instr.form with
    | .imm => [(.imm64, Bytes.ofWord64 s.instr.imm)]
    | .memImm | .memRegImm => [(.disp32, Bytes.ofWord32 s.instr.disp.toUInt32)]
    | _ => []) ++
  match s.helper? with
  | some helper => [(.helper, Bytes.ofWord64 (h.addr helper))]
  | none => []

/-- Lays fields over the step's template, which was copied to `start`. -/
def fill (s : Step) (start : Nat) : List (Slot × Bytes) → Buffer → Buffer × Outcome
  | [], b => (b, .done)
  | (slot, field) :: rest, b =>
      match s.desc.template.slot? slot with
      | none => (b, .failed (s.missingSlot slot))
      | some pos =>
          match b.patch (start + pos) field with
          | some b' => s.fill start rest b'
          | none => (b, .outOfRange)

def misplaced (s : Step) (offset : Nat) : Failure :=
  .report .invariantViolation s.ip
    ("emitter at native " ++ Text.markedHex offset ++ ", walk at " ++ Text.markedHex s.nativeIp)

def overrun (s : Step) (size : Nat) : Failure :=
  .report .invariantViolation s.ip
    (s.desc.variant.text ++ " overruns the " ++ toString size ++ "-byte layout")

/-- Writes the block of the step at the position of the buffer. -/
def emit (h : Helpers) (s : Step) (b : Buffer) : Buffer × Outcome :=
  if b.offset ≠ s.nativeIp then (b, .failed (s.misplaced b.offset))
  else if b.remaining < s.desc.nativeLen then (b, .failed (s.overrun b.bytes.length))
  else
    match b.put (.plain s.desc.template.code) with
    | some b' => s.fill b.offset (s.fields h) b'
    | none => (b, .outOfRange)

end Step

/-- The answer of the second pass: bytes counted, the buffer afterwards, and how it
ended. -/
structure Filled where
  emitted : Nat
  native : Option Bytes
  outcome : Outcome
deriving DecidableEq, Repr

namespace Filled

/-- Writes the blocks of steps, up to the first that cannot be written. -/
def follow (h : Helpers) : List Step → Buffer → Buffer × Outcome
  | [], b => (b, .done)
  | s :: ss, b =>
      match s.emit h b with
      | (b', .done) => follow h ss b'
      | stopped => stopped

def tooShort (have_ : Nat) (need : Int) : Failure :=
  .report .invariantViolation (-1)
    ("native buffer holds " ++ toString have_ ++ " bytes, layout needs " ++ toString need)

def wrongLength (emitted size : Nat) : Failure :=
  .report .invariantViolation (-1)
    ("emitted " ++ toString emitted ++ " bytes, layout says " ++ toString size)

/-- Fills the first `size` bytes of `dst`. -/
def into (w : Walk) (size : Nat) (dst : Bytes) (h : Helpers) : Filled :=
  let (b, stop) := follow h w.steps ⟨dst.take size, 0⟩
  let native := some (b.bytes ++ dst.drop size)
  match stop, w.fault with
  | .done, none =>
      if b.offset = size then ⟨b.offset, native, .done⟩
      else ⟨b.offset, native, .failed (wrongLength b.offset size)⟩
  | .done, some f => ⟨0, native, .failed f⟩
  | stop, _ => ⟨0, native, stop⟩

/-- The second pass, for a layout of which only the length matters. -/
def ofCode (code : Option Bytes) (layoutLen : Option Int) (dst : Option Bytes)
    (h : Helpers) : Filled :=
  match layoutLen, dst with
  | none, _ => ⟨0, dst, .failed (.report .nullInput (-1) "no layout")⟩
  | some _, none => ⟨0, dst, .failed (.report .nullInput (-1) "no native buffer")⟩
  | some size, some buf =>
      if buf.length < size then ⟨0, dst, .failed (tooShort buf.length size)⟩
      else if size < 0 then ⟨0, dst, .outOfRange⟩
      else into (Walk.ofCode code) size.toNat buf h

end Filled
end StackCode.Lowering
