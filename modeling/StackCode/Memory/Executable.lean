import StackCode.Bytes
import StackCode.Failure
import StackCode.Memory.Kernel

/-!
# Memory for code

Memory for code is written first and executed later. Its owner keeps where the pages are, how
many of their bytes are used, and whether they were sealed. What is in the pages and what may be
done to them is the kernel's part. Sealing asks the kernel to make the pages executable in place
of writable, and there is no way back but to give them back. An access that a page does not allow
ends the process.
-/
namespace StackCode.Memory

/-- What may be done to pages beside reading them. -/
structure Access where
  write : Bool
  execute : Bool
deriving DecidableEq, Repr

/-- Pages as the kernel has them. -/
structure Pages where
  bytes : Bytes
  access : Access
deriving DecidableEq, Repr

structure Executable where
  /-- where the pages are; nothing once they were given back -/
  buffer : Option Span
  /-- how many bytes are used -/
  size : Nat
  isSealed : Bool
  /-- the pages themselves; nothing once the kernel took them back -/
  pages : Option Pages
deriving DecidableEq, Repr

/-- Code that is entered: where it is, and its bytes. -/
structure Code where
  base : UInt64
  bytes : Bytes
deriving DecidableEq, Repr

inductive CodeFault where
  | nothingToMap (size : Int64)
  | refused (answer : String)
  | unprotected (answer : String)
  | sealAfterFree
  | unsealed
  | noEntryPoint
  /-- an access that a page does not allow -/
  | forbidden
deriving DecidableEq, Repr

namespace CodeFault

/-- The report of a fault. A forbidden access ends without one. -/
def failure? : CodeFault → Option Failure
  | .nothingToMap size =>
      some (.report .nullInput (-1) ("cannot map " ++ toString size.toInt ++ " bytes of code"))
  | .refused answer =>
      some (.wrapped .allocationFailure (-1) "mmap native buffer" (.plain answer))
  | .unprotected answer =>
      some (.wrapped .protectionChangeFailure (-1) "mprotect native buffer read+exec"
        (.plain answer))
  | .sealAfterFree => some (.report .invariantViolation (-1) "seal after free")
  | .unsealed => some (.report .invariantViolation (-1) "call into unsealed native buffer")
  | .noEntryPoint => some (.report .nullInput (-1) "no native entry point")
  | .forbidden => none

end CodeFault

namespace Executable

/-- Fresh memory: blank pages, writable. -/
def blank (base : UInt64) (capacity size : Nat) : Executable where
  buffer := some ⟨base, capacity⟩
  size := size
  isSealed := false
  pages := some ⟨List.replicate capacity 0, ⟨true, false⟩⟩

/-- Maps pages for `size` bytes where `answer` says, which is asked for whole pages. It is not
asked for a length that is not positive. -/
def map (answer : Nat → Except String UInt64) (size : Int64) : Except CodeFault Executable :=
  if size ≤ 0 then .error (.nothingToMap size)
  else
    let capacity := (size + pageSize - 1) / pageSize * pageSize
    if capacity ≤ 0 then .error (.refused badLength)
    else
      match answer capacity.toNatClampNeg with
      | .error reason => .error (.refused reason)
      | .ok base => .ok (blank base capacity.toNatClampNeg size.toNatClampNeg)

/-- The used part; nothing once given back. -/
def bytes? (m : Executable) : Option Bytes :=
  m.buffer.map fun _ => ((m.pages.map Pages.bytes).getD []).take m.size

def capacity (m : Executable) : Nat := (m.buffer.map Span.length).getD 0

/-- Where the pages are; zero if there are none. -/
def address (m : Executable) : UInt64 :=
  (m.buffer.map fun b => if b.length = 0 then 0 else b.base).getD 0

/-- How many bytes of `new` there is room for from `pos` on. -/
def room (m : Executable) (pos : Nat) (new : Bytes) : Nat :=
  min new.length ((m.bytes?.getD []).length - pos)

/-- Copies `new` over the used part from `pos` on, as far as there is room. A copy of no bytes
touches no page: behind the used part, and once the pages were given back, nothing happens. -/
def write (m : Executable) (pos : Nat) (new : Bytes) : Except CodeFault Executable :=
  if m.room pos new = 0 then .ok m
  else
    match m.pages with
    | none => .error .forbidden
    | some p =>
        if p.access.write then
          .ok { m with
            pages := some { p with bytes := p.bytes.overwrite pos (new.take (m.room pos new)) } }
        else .error .forbidden

/-- Asks the kernel to make the pages executable; `refusal` is its answer if it does not do
so. Memory that was sealed already is left alone. -/
def protect (m : Executable) (refusal : Option String) : Except CodeFault Executable :=
  match m.buffer with
  | none => .error .sealAfterFree
  | some _ =>
      if m.isSealed then .ok m
      else
        match refusal with
        | some answer => .error (.unprotected answer)
        | none =>
            .ok { m with
              isSealed := true
              pages := m.pages.map fun p => { p with access := ⟨false, true⟩ } }

/-- Enters the code by its address. There is none at address zero. -/
def call (m : Executable) : Except CodeFault Code :=
  if m.isSealed then
    if m.address = 0 then .error .noEntryPoint
    else
      match m.pages with
      | none => .error .forbidden
      | some p =>
          if p.access.execute then .ok ⟨m.address, p.bytes.take m.size⟩ else .error .forbidden
  else .error .unsealed

/-- Gives the pages back. If the kernel refuses, its answer is handed on; it keeps the pages
then, but they are lost to the owner all the same. -/
def release (m : Executable) (refusal : Option String) : Option String × Executable :=
  match m.buffer with
  | none => (none, m)
  | some _ =>
      let left := refusal.bind fun _ => m.pages
      (refusal, { buffer := none, size := 0, isSealed := false, pages := left })

end Executable
end StackCode.Memory
