import StackCode.Blake2b
import StackCode.Lowering.Block
import StackCode.Lowering.Variant

/-!
# The catalog of lowerings

One descriptor per variant: its class, its effect on the stack depth and its template.
Descriptors are registered opcode by opcode and kept in the order of their variants.
The fingerprint is a digest of everything a descriptor says, so that images made with
another catalog can be told apart.
-/
namespace StackCode.Lowering

open Bytecode

structure Descriptor where
  variant : Variant
  /-- a class, by its number -/
  opClass : Int
  stackDelta : Int
  template : Template
deriving DecidableEq, Repr

namespace Descriptor

/-- Source bytes an instruction of the variant takes. -/
def sourceLen (d : Descriptor) : Nat := Form.codeSourceLen d.variant.form

/-- Machine code bytes it becomes. -/
def nativeLen (d : Descriptor) : Nat := d.template.code.length

/-- The descriptor of an opcode's variant with the given code. -/
def make (op : Opcode) (v : Variant) (b : Block) : Descriptor :=
  ⟨v, op.opClass.code, op.stackDelta, Template.ofBlock b⟩

/-- A 64-bit word of the serialisation, negative numbers in two's complement. -/
def word (n : Int) : Bytes := Bytes.ofNat 8 (n % 0x10000000000000000).toNat

/-- Everything a descriptor says, as bytes: words for the parts of the variant, the
class, the stack effect and the code length, then the code, then where each slot is,
with -1 for a slot it does not have. -/
def serialize (d : Descriptor) : Bytes :=
  word d.variant.op.toNat ++ word d.variant.form ++ word d.variant.reg.toNat ++
    word (if d.variant.padded then 1 else 0) ++ word d.opClass ++ word d.stackDelta ++
    word d.nativeLen ++ d.template.code ++
    Slot.all.flatMap fun s => word ((d.template.slot? s).getD (-1))

/-- Puts a descriptor into its place in an ordered list. -/
def insert (d : Descriptor) : List Descriptor → List Descriptor
  | [] => [d]
  | e :: es => if d.variant.less e.variant then d :: e :: es else e :: insert d es

/-- Descriptors in the order of their variants. -/
def sort (ds : List Descriptor) : List Descriptor := ds.foldl (fun acc d => insert d acc) []

end Descriptor

namespace Catalog

/-- The descriptors of a stack operation: one per form it accepts, and one per register
where the form names one. -/
def ofStackOp (op : Opcode) (block : Form → Option Register → Option Block) :
    List Descriptor :=
  Form.stackForms.flatMap fun form =>
    let regs := if form.hasRegister then Register.all.map some else [none]
    regs.filterMap fun r => (block form r).map (Descriptor.make op (Variant.stack op form r))

/-- The descriptors of an opcode. -/
def ofOpcode (op : Opcode) : List Descriptor :=
  let one (padded : Bool) (b : Block) := Descriptor.make op (Variant.plain op padded) b
  match op with
  | .hlt => [one false .halt]
  | .push => ofStackOp .push Block.push
  | .pop => ofStackOp .pop Block.pop
  | .arith a => [one false (.arith a)]
  | .sqrt => [one false .sqrt]
  | .input => [one false (.host .input false), one true (.host .input true)]
  | .output => [one false (.host .output false), one true (.host .output true)]
  | .branch b => [one false (.branch b)]
  | .ret => [one false .ret]

/-- All descriptors, ordered by variant. -/
def descriptors : List Descriptor := Descriptor.sort (Opcode.all.flatMap ofOpcode)

def find? (v : Variant) : Option Descriptor := descriptors.find? fun d => d.variant == v

/-- The bytes the fingerprint is taken of. -/
def serialize (ds : List Descriptor) : Bytes := ds.flatMap Descriptor.serialize

/-- Identifies the contents of the catalog. -/
def fingerprint : Bytes := Blake2b.digest (serialize descriptors)

end Catalog

/-- Why a variant has no descriptor. -/
inductive LookupFault where
  | undefinedOpcode (op : UInt8)
  | noLowering (v : Variant)
deriving DecidableEq, Repr

namespace LookupFault

def kind : LookupFault → FailureKind
  | .undefinedOpcode _ => .undefinedOpcode
  | .noLowering _ => .unexpectedOperandTag

def message : LookupFault → String
  | .undefinedOpcode op => "byte 0x" ++ Text.hexByte op
  | .noLowering v => "no lowering for " ++ v.text

def report (f : LookupFault) (ip : Int) : Failure := .report f.kind ip f.message

end LookupFault

/-- The descriptor of a variant. -/
def Catalog.lookup (v : Variant) : Except LookupFault Descriptor :=
  match Opcode.ofByte? v.op with
  | none => .error (.undefinedOpcode v.op)
  | some _ =>
      match find? v with
      | some d => .ok d
      | none => .error (.noLowering v)

end StackCode.Lowering
