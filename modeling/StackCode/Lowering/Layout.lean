import StackCode.Lowering.Walk

/-!
# Layouts

The first pass over a program: how long its machine code is, where each instruction
goes, which branch fields have to be patched and which fields hold helper addresses.
It accepts a program exactly if it decodes to its end and every jump lands on the
start of an instruction.
-/
namespace StackCode.Lowering

open Bytecode

/-- Does a branch always jump? Kinds are known by their numbers. -/
inductive RelocKind where
  | direct
  | conditional
deriving DecidableEq, Repr

namespace RelocKind

/-- The kind of a number; every number but one is direct. -/
def ofCode (c : Int) : RelocKind := if c = 1 then .conditional else .direct

def name : RelocKind → String
  | .direct => "direct"
  | .conditional => "conditional"

end RelocKind

/-- A branch distance to be filled in: the jump, its target, and the native offset of
the field. -/
structure Relocation where
  sourceFrom : Int
  sourceTo : Int
  nativeFrom : Int
  kind : RelocKind
deriving DecidableEq, Repr

namespace Relocation

def text (r : Relocation) : String :=
  r.kind.name ++ " " ++ toString r.sourceFrom ++ " -> " ++ toString r.sourceTo ++
    " (native field at " ++ Text.markedHex r.nativeFrom ++ ")"

end Relocation

/-- A field that holds the address of a helper. -/
structure HelperField where
  nativeAt : Int
  helper : Helper
deriving DecidableEq, Repr

structure Layout where
  sourceLen : Nat
  nativeLen : Nat
  instructions : Nat
  finalDepth : Int
  /-- source and native offset of every instruction, ascending, and of the end -/
  offsets : List (Nat × Nat)
  /-- in source order -/
  relocations : List Relocation
  /-- in source order -/
  helperFields : List HelperField
deriving DecidableEq, Repr

namespace Step

/-- A template without a slot that its instruction needs. -/
def missingSlot (s : Step) (slot : Slot) : Failure :=
  .report .invariantViolation s.ip
    (s.desc.variant.text ++ " template has no " ++ slot.name ++ " field")

/-- The native offset of a slot's field. -/
def fieldOf (s : Step) (slot : Slot) : Except Failure Int :=
  match s.desc.template.slot? slot with
  | some pos => .ok ((s.nativeIp : Int) + pos)
  | none => .error (s.missingSlot slot)

/-- The relocation of a jump. -/
def relocation? (s : Step) : Except Failure (Option Relocation) :=
  match s.instr with
  | .branch b t =>
      let kind := match b with
        | .cond _ => RelocKind.conditional
        | _ => .direct
      (s.fieldOf .rel32).map fun field => some ⟨s.ip, t.toInt, field, kind⟩
  | _ => .ok none

/-- The helper an instruction calls. -/
def helper? (s : Step) : Option Helper :=
  match s.instr with
  | .input => some .input
  | .output => some .output
  | _ => none

/-- The helper field of an instruction that calls one. -/
def helperField? (s : Step) : Except Failure (Option HelperField) :=
  match s.helper? with
  | some h => (s.fieldOf .helper).map fun field => some ⟨field, h⟩
  | none => .ok none

end Step

namespace Layout

/-- The native offset of an instruction, or of the end. -/
def offset? (l : Layout) (ip : Int) : Option Nat :=
  (l.offsets.find? fun p => (p.1 : Int) == ip).map Prod.snd

/-- Does an instruction start at `ip`? The end of the program has an offset but is no
start. -/
def isBoundary (l : Layout) (ip : Int) : Bool := ip < l.sourceLen && (l.offset? ip).isSome

def badTarget (r : Relocation) : Failure :=
  .report .undefinedJumpTarget r.sourceFrom
    ("target " ++ toString r.sourceTo ++ " is not an instruction boundary")

/-- What the steps of a walk contribute, in order. -/
def collect : List Step → Except Failure (List Relocation × List HelperField)
  | [] => .ok ([], [])
  | s :: ss =>
      match s.relocation?, s.helperField? with
      | .error f, _ => .error f
      | _, .error f => .error f
      | .ok r, .ok h =>
          (collect ss).map fun (rs, hs) => (r.toList ++ rs, h.toList ++ hs)

/-- The layout of a walk that reached the end of a program of `sourceLen` bytes. -/
def ofWalk (sourceLen : Nat) (w : Walk) (relocs : List Relocation)
    (fields : List HelperField) : Layout :=
  ⟨sourceLen, w.nativeLen, w.steps.length, w.depth,
    w.steps.map (fun s => (s.ip, s.nativeIp)) ++ [(sourceLen, w.nativeLen)], relocs, fields⟩

/-- The first relocation in source order whose target is no instruction decides. -/
def checkTargets (l : Layout) : Except Failure Layout :=
  match l.relocations.find? fun r => !l.isBoundary r.sourceTo with
  | some r => .error (badTarget r)
  | none => .ok l

/-- The layout of a program. -/
def ofCode (code : Option Bytes) : Except Failure Layout :=
  let w := Walk.ofCode code
  match collect w.steps with
  | .error f => .error f
  | .ok (relocs, fields) =>
      match w.fault with
      | some f => .error f
      | none => (ofWalk (code.getD []).length w relocs fields).checkTargets

end Layout
end StackCode.Lowering
