import StackCode.Lowering.Filled

/-!
# Patching branches

The third pass writes branch distances. Relocations are taken in the order of their
targets; as the walk reaches a target, the distance from behind the field to there is
written into each field that waits for it. Targets that the walk never reaches are
reported together. The field guard adds the width of the field in 64-bit arithmetic,
which wraps around.
-/
namespace StackCode.Lowering

/-- The value of `n` in wrapping signed 64-bit arithmetic. -/
def wrap64 (n : Int) : Int := (n + 0x8000000000000000) % 0x10000000000000000 - 0x8000000000000000

/-- The bytes of a branch distance, of which the low 32 bits are kept. -/
def distance (n : Int) : Bytes := Bytes.ofNat 4 (n % 0x100000000).toNat

namespace Relocation

/-- Puts a relocation before the first one with a larger or equal target. -/
def insert (r : Relocation) : List Relocation → List Relocation
  | [] => [r]
  | s :: ss => if r.sourceTo ≤ s.sourceTo then r :: s :: ss else s :: insert r ss

/-- Relocations in the order of their targets; equal targets keep their order. -/
def sortByTarget (rs : List Relocation) : List Relocation := rs.foldr insert []

def outside (r : Relocation) (size : Nat) : Failure :=
  .report .invariantViolation r.sourceFrom
    ("rel32 field at " ++ Text.markedHex r.nativeFrom ++ " outside " ++ toString size ++
      "-byte image")

def unreached (r : Relocation) (count : Nat) : Failure :=
  .report .undefinedJumpTarget r.sourceFrom
    ("target " ++ toString r.sourceTo ++ " never reached (" ++ toString count ++
      " unresolved)")

end Relocation

/-- The third pass on its way: the image, how many fields were written, and the
relocations whose target was passed by. -/
structure Patching where
  native : Bytes
  patched : Nat
  missed : List Relocation
deriving DecidableEq, Repr

namespace Patching

/-- Writes the field of a relocation whose target is at `nativeIp`. -/
def apply (p : Patching) (nativeIp : Nat) (r : Relocation) : Except Outcome Patching :=
  if r.nativeFrom < 0 ∨ (p.native.length : Int) < wrap64 (r.nativeFrom + 4) then
    .error (.failed (r.outside p.native.length))
  else if (p.native.length : Int) < r.nativeFrom + 4 then .error .outOfRange
  else
    .ok { p with
      native := p.native.overwrite r.nativeFrom.toNat
        (distance ((nativeIp : Int) - (r.nativeFrom + 4)))
      patched := p.patched + 1 }

/-- Takes all relocations up to target `ip` off the queue. -/
def drain (ip nativeIp : Nat) : List Relocation → Patching →
    List Relocation × Patching × Option Outcome
  | [], p => ([], p, none)
  | r :: rs, p =>
      if r.sourceTo < ip then drain ip nativeIp rs { p with missed := p.missed ++ [r] }
      else if r.sourceTo = ip then
        match p.apply nativeIp r with
        | .ok p' => drain ip nativeIp rs p'
        | .error o => (r :: rs, p, some o)
      else (r :: rs, p, none)

/-- Follows the walk, draining the queue at every step. -/
def follow : List Step → List Relocation → Patching →
    List Relocation × Patching × Option Outcome
  | [], queue, p => (queue, p, none)
  | s :: ss, queue, p =>
      match drain s.ip s.nativeIp queue p with
      | (queue, p, none) => follow ss queue p
      | stopped => stopped

end Patching

/-- The answer of the third pass. -/
structure Patched where
  patched : Nat
  native : Option Bytes
  outcome : Outcome
deriving DecidableEq, Repr

namespace Patched

/-- Patches the relocations of a walk into an image. -/
def into (w : Walk) (relocs : List Relocation) (native : Bytes) : Patched :=
  let (queue, p, stop) :=
    Patching.follow w.steps (Relocation.sortByTarget relocs) ⟨native, 0, []⟩
  let outcome :=
    match stop, w.fault, p.missed ++ queue with
    | some o, _, _ => o
    | none, some f, _ => .failed f
    | none, none, [] => .done
    | none, none, r :: rs => .failed (r.unreached (rs.length + 1))
  ⟨p.patched, some p.native, outcome⟩

/-- The third pass. -/
def ofCode (code : Option Bytes) (relocs : List Relocation) (native : Option Bytes) :
    Patched :=
  match native with
  | none => ⟨0, none, .failed (.report .nullInput (-1) "no native buffer")⟩
  | some image => into (Walk.ofCode code) relocs image

end Patched
end StackCode.Lowering
