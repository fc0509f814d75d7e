import StackCode.Bytes
import StackCode.Failure
import StackCode.Memory.Kernel

/-!
# The data window

Absolute operands are 32-bit addresses, so the data that they reach lies in a window
at a fixed address below two gibibytes. `Placement.check` says which windows can be
reached; `Window.map` makes one, filled with zeros, if the kernel gives the pages. Reads and
writes move whole words, least significant byte first, and are refused unless all eight bytes
lie inside.
-/
namespace StackCode.Memory

/-- The word stored from index `i` on. -/
def wordAt (bytes : Array UInt8) (i : Nat) : UInt64 :=
  UInt64.ofNat (Bytes.toNat (bytes.extract i (i + 8)).toList)

/-- Stores bytes from index `i` on. What does not fit is dropped. -/
def store (bytes : Array UInt8) (i : Nat) : Bytes → Array UInt8
  | [] => bytes
  | b :: bs => store (bytes.setIfInBounds i b) (i + 1) bs

/-- Why a window cannot be where it is asked for. -/
inductive PlacementFault where
  | notPositive (size : Int64)
  | unaligned (base : UInt64)
  | unreachable (base : UInt64) (size : Int64)
deriving DecidableEq, Repr

namespace PlacementFault

def message : PlacementFault → String
  | .notPositive size => "ram: window size must be positive, got " ++ toString size.toInt
  | .unaligned base => "ram: base " ++ Text.markedHex base.toNat ++ " is not page aligned"
  | .unreachable base size =>
      "ram: window [" ++ Text.markedHex base.toNat ++ ", +" ++ Text.markedHex size.toInt ++
        ") not addressable by 32-bit operands"

end PlacementFault

/-- Where a window is asked for. -/
structure Placement where
  base : UInt64
  size : Int64
deriving DecidableEq, Repr

namespace Placement

/-- The first address that an absolute operand cannot reach. -/
def limit : UInt64 := 0x80000000

/-- The address behind the last page. -/
def stop (p : Placement) : UInt64 := p.base + (pageRounded p.size).toUInt64

def check (p : Placement) : Except PlacementFault Unit :=
  if p.size ≤ 0 then .error (.notPositive p.size)
  else if p.base % 4096 ≠ 0 then .error (.unaligned p.base)
  else if p.base = 0 ∨ limit < p.stop then .error (.unreachable p.base p.size)
  else .ok ()

/-- Where a window is put unless something else is asked for. -/
def standard : Placement := ⟨0x10000000, 65536⟩

end Placement

structure Window where
  base : UInt32
  bytes : Array UInt8
deriving DecidableEq, Repr

/-- Why a window did not come about. -/
inductive MapFault where
  | placement (fault : PlacementFault)
  | refused (base : UInt64) (answer : String)
  | misplaced (landed base : UInt64)
  /-- more bytes than there are addresses from the base on -/
  | outOfRange
deriving DecidableEq, Repr

namespace MapFault

/-- The report of a fault. A window out of range ends without one. -/
def failure? : MapFault → Option Failure
  | .placement f => some (.wrapped .allocationFailure (-1) "data window" (.plain f.message))
  | .refused base answer =>
      some (.wrapped .allocationFailure (-1)
        ("mmap data window at " ++ Text.markedHex base.toNat) (.plain answer))
  | .misplaced landed base =>
      some (.report .allocationFailure (-1)
        ("data window landed at " ++ Text.markedHex landed.toNat ++ " instead of " ++
          Text.markedHex base.toNat))
  | .outOfRange => none

end MapFault

/-- Why a word could not be moved. -/
inductive AccessFault where
  | read (addr : UInt32)
  | write (addr : UInt32)
  /-- let through, but not in the bytes of the window -/
  | outOfRange
deriving DecidableEq, Repr

namespace AccessFault

/-- The report of a refused access. An access out of range ends without one. -/
def failure? : AccessFault → Option Failure
  | .read a =>
      some (.plain ("ram: read of 8 bytes at " ++ Text.markedHex a.toNat ++ " outside window"))
  | .write a =>
      some (.plain ("ram: write of 8 bytes at " ++ Text.markedHex a.toNat ++ " outside window"))
  | .outOfRange => none

end AccessFault

namespace Window

def size (w : Window) : Nat := w.bytes.size

/-- Where the window is. -/
def span (w : Window) : Span := ⟨w.base.toUInt64, w.size⟩

/-- Maps a window of zeros. `answer` says where the kernel puts that many bytes that are wanted
at an address. Pages elsewhere are of no use, and neither are more of them than a length can
say or than there are addresses left. -/
def map (answer : UInt64 → UInt64 → Except String UInt64) (p : Placement) :
    Except MapFault Window := do
  let length := pageRounded p.size
  p.check.mapError .placement
  let landed ← (answer p.base length.toUInt64).mapError (.refused p.base)
  if landed ≠ p.base then .error (.misplaced landed p.base)
  else if length < 0 ∨ 0x10000000000000000 < p.base.toNat + length.toUInt64.toNat then
    .error .outOfRange
  else .ok ⟨p.base.toUInt32, Array.replicate length.toUInt64.toNat 0⟩

/-- Whether the `n` bytes from `addr` on lie inside, by sums of 64-bit words. -/
def contains (w : Window) (addr : UInt32) (n : UInt64) : Bool :=
  w.base ≤ addr && addr.toUInt64 + n ≤ w.base.toUInt64 + UInt64.ofNat w.size

def read (w : Window) (addr : UInt32) : Except AccessFault UInt64 :=
  if w.contains addr 8 then
    let i := (addr - w.base).toNat
    if i + 8 ≤ w.size then .ok (wordAt w.bytes i) else .error .outOfRange
  else .error (.read addr)

def write (w : Window) (addr : UInt32) (v : UInt64) : Except AccessFault Window :=
  if w.contains addr 8 then
    let i := (addr - w.base).toNat
    if i + 8 ≤ w.size then .ok ⟨w.base, store w.bytes i (Bytes.ofWord64 v)⟩
    else .error .outOfRange
  else .error (.write addr)

/-- The `n` bytes from index `pos` on, if there are as many. -/
def slice? (w : Window) (pos n : Nat) : Option Bytes :=
  if pos + n ≤ w.size then some (w.bytes.extract pos (pos + n)).toList else none

/-- Gives the pages back. The base stays. -/
def unmap (w : Window) : Window := ⟨w.base, #[]⟩

/-- Writes words at distances from the base, in order. -/
def writeAll (w : Window) : List (UInt32 × UInt64) → Except AccessFault Window
  | [] => .ok w
  | (offset, v) :: rest =>
      match w.write (w.base + offset) v with
      | .ok w' => w'.writeAll rest
      | .error f => .error f

/-- Reads words at distances from the base, in order. -/
def readAll (w : Window) : List UInt32 → Except AccessFault (List UInt64)
  | [] => .ok []
  | offset :: rest =>
      match w.read (w.base + offset) with
      | .ok v => (w.readAll rest).map (v :: ·)
      | .error f => .error f

end Window
end StackCode.Memory
