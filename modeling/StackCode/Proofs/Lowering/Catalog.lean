import Mathlib.Data.List.Nodup
import StackCode.Lowering.Catalog
import StackCode.Proofs.Bytecode.Decoding
import StackCode.Proofs.Keyed
import StackCode.Proofs.X64.Encoding

/-!
# What the catalog holds

The catalog holds one descriptor to a variant, whatever order they were registered in, so
a descriptor is found under its own variant. Every instruction has a descriptor at every
stack depth: that of its opcode and of the code of the instruction. Its template has the
one field that the instruction has to fill in, if there is one, and has it inside its
code; with the field filled in it encodes the same machine instructions, one of them with
another value.
-/
namespace StackCode.Lowering

open Bytecode X64

namespace Descriptor

theorem insert_perm (d : Descriptor) (ds : List Descriptor) : (insert d ds).Perm (d :: ds) := by
  induction ds with
  | nil => exact .refl _
  | cons e es ih =>
      unfold insert
      split
      next => exact .refl _
      next => exact (ih.cons e).trans (.swap d e es)

theorem sort_perm (ds : List Descriptor) : (sort ds).Perm ds := by
  have step : ∀ acc : List Descriptor,
      (ds.foldl (fun acc d => insert d acc) acc).Perm (ds ++ acc) := by
    induction ds with
    | nil => exact fun acc => .refl _
    | cons d ds ih =>
        intro acc
        have hd := (insert_perm d acc).append_left ds
        exact (ih (insert d acc)).trans (hd.trans List.perm_middle)
  simpa [sort] using step []

end Descriptor

namespace Catalog

theorem mem_descriptors {d : Descriptor} {op : Opcode} (h : d ∈ ofOpcode op) :
    d ∈ descriptors :=
  (Descriptor.sort_perm _).mem_iff.mpr (List.mem_flatMap.mpr ⟨op, op.mem_all, h⟩)

theorem nativeLen_bounds {d : Descriptor} (h : d ∈ descriptors) :
    0 < d.nativeLen ∧ d.nativeLen ≤ 32 := by
  have hall : (Opcode.all.flatMap ofOpcode).all
      (fun d => 0 < d.nativeLen && d.nativeLen ≤ 32) = true := by decide +kernel
  have hd := List.all_eq_true.mp hall d ((Descriptor.sort_perm _).mem_iff.mp h)
  simpa using hd

theorem nodup_variants : (descriptors.map Descriptor.variant).Nodup := by
  have h : ((Opcode.all.flatMap ofOpcode).map Descriptor.variant).Nodup := by decide +kernel
  exact ((Descriptor.sort_perm _).map _).nodup_iff.mpr h

theorem find?_variant {d : Descriptor} (h : d ∈ descriptors) : find? d.variant = some d :=
  Keyed.find?_key nodup_variants h

theorem mem_ofStackOp {op : Opcode} {block : Form → Option Register → Option Block}
    {form : Form} {r : Option Register} {b : Block} (hf : form ∈ Form.stackForms)
    (hr : form.hasRegister = r.isSome) (hb : block form r = some b) :
    Descriptor.make op (Variant.stack op form r) b ∈ ofStackOp op block := by
  refine List.mem_flatMap.mpr ⟨form, hf, List.mem_filterMap.mpr ⟨r, ?_, by rw [hb]; rfl⟩⟩
  cases r with
  | none => simp [hr]
  | some r => simp [hr, r.mem_all]

end Catalog

/-- The code of an instruction; `padded` decides whether a helper call carries an extra
word. -/
def Block.ofInstr (i : Instr) (padded : Bool) : Block :=
  match i with
  | .hlt => halt
  | .push _ => (push i.form i.reg?).getD []
  | .pop _ => (pop i.form i.reg?).getD []
  | .arith op => arith op
  | .sqrt => sqrt
  | .input => host .input padded
  | .output => host .output padded
  | .branch b _ => branch b
  | .ret => ret

def Descriptor.ofInstr (i : Instr) (depth : Int) : Descriptor :=
  make i.opcode (Variant.ofInstr i depth) (Block.ofInstr i (Variant.needsPadding i depth))

/-- The field of code that reaches a cell. -/
def Slot.ofCell? : Cell → Option Slot
  | .abs _ | .off _ _ => some .disp32
  | .ptr _ => none

def Slot.ofInstr? : Instr → Option Slot
  | .push (.imm _) => some .imm64
  | .push (.reg _) => none
  | .push (.mem c) | .pop (.mem c) => ofCell? c
  | .pop .discard | .pop (.reg _) => none
  | .branch _ _ => some .rel32
  | .input | .output => some .helper
  | .hlt | .arith _ | .sqrt | .ret => none

theorem form_mem_stackForms (c : Cell) : c.form ∈ Form.stackForms := by
  cases c <;> simp [Cell.form, Form.stackForms]

namespace Descriptor

theorem ofInstr_mem (i : Instr) (depth : Int) : ofInstr i depth ∈ Catalog.ofOpcode i.opcode := by
  cases i with
  | push src =>
      have hf : (Instr.push src).form ∈ Form.stackForms := by
        cases src with
        | mem c => exact form_mem_stackForms c
        | _ => simp [Instr.form, Source.form, Form.stackForms]
      cases src with
      | mem c => cases c <;> exact Catalog.mem_ofStackOp hf rfl rfl
      | _ => exact Catalog.mem_ofStackOp hf rfl rfl
  | pop dst =>
      have hf : (Instr.pop dst).form ∈ Form.stackForms := by
        cases dst with
        | mem c => exact form_mem_stackForms c
        | _ => simp [Instr.form, Dest.form, Form.stackForms]
      cases dst with
      | mem c => cases c <;> exact Catalog.mem_ofStackOp hf rfl rfl
      | _ => exact Catalog.mem_ofStackOp hf rfl rfl
  | input =>
      unfold ofInstr Variant.ofInstr
      cases Variant.needsPadding .input depth
      · exact .head _
      · exact .tail _ (.head _)
  | output =>
      unfold ofInstr Variant.ofInstr
      cases Variant.needsPadding .output depth
      · exact .head _
      · exact .tail _ (.head _)
  | _ => exact .head _

theorem nativeLen_ofInstr (i : Instr) (depth : Int) :
    0 < (ofInstr i depth).nativeLen ∧ (ofInstr i depth).nativeLen ≤ 32 :=
  Catalog.nativeLen_bounds (Catalog.mem_descriptors (ofInstr_mem i depth))

end Descriptor

namespace Catalog

theorem find?_ofInstr (i : Instr) (depth : Int) :
    find? (Variant.ofInstr i depth) = some (Descriptor.ofInstr i depth) :=
  find?_variant (mem_descriptors (Descriptor.ofInstr_mem i depth))

/-- Every instruction has a lowering at every depth. -/
theorem lookup_ofInstr (i : Instr) (depth : Int) :
    lookup (Variant.ofInstr i depth) = .ok (Descriptor.ofInstr i depth) := by
  have ho : Opcode.ofByte? (Variant.ofInstr i depth).op = some i.opcode :=
    Opcode.ofByte?_toByte i.opcode
  rw [lookup, ho]
  simp only [find?_ofInstr]

end Catalog

/-! ## Templates of instructions -/

namespace Template

theorem blockMarks_append (pos : Nat) (a b : Block) :
    blockMarks pos (a ++ b) =
      blockMarks pos a ++ blockMarks (pos + (Insn.encodeAll (a.map Item.insn)).length) b := by
  induction a generalizing pos with
  | nil => simp [blockMarks, Insn.encodeAll]
  | cons i a ih =>
      simp only [List.cons_append, blockMarks, ih, List.map_cons, Insn.encodeAll,
        List.flatMap_cons, List.length_append, Nat.add_assoc]
      split <;> rfl

theorem blockMarks_fixed (pos : Nat) (is : List Insn) : blockMarks pos (Block.fixed is) = [] := by
  induction is generalizing pos with
  | nil => rfl
  | cons i is ih => exact ih _

theorem map_insn_fixed (is : List Insn) : (Block.fixed is).map Item.insn = is := by
  simp [Block.fixed, Item.fixed, Function.comp_def]

theorem ofBlock_fixed (is : List Insn) : ofBlock (Block.fixed is) = ⟨Insn.encodeAll is, []⟩ := by
  rw [ofBlock, blockMarks_fixed, map_insn_fixed]
  rfl

theorem ofBlock_marked (lead rest : List Insn) (m : Insn) (s : Slot) {pos : Nat}
    (h : m.fieldAt? = some pos) :
    ofBlock (Block.fixed lead ++ ⟨m, some s⟩ :: Block.fixed rest) =
      ⟨Insn.encodeAll lead ++ (m.encode ++ Insn.encodeAll rest),
        [(s, (((Insn.encodeAll lead).length + pos : Nat) : Int))]⟩ := by
  simp only [ofBlock, List.map_append, List.map_cons, map_insn_fixed, blockMarks_append,
    blockMarks_fixed, blockMarks, h]
  simp [Insn.encodeAll, markAll, mark]

end Template

namespace Block

/-- The machine instructions of a block, its marked ones with `f` in their field. -/
def fill (f : Field) (b : Block) : List Insn :=
  b.map fun i => if i.slot.isSome then i.insn.withField f else i.insn

theorem fill_marked (f : Field) (lead rest : List Insn) (m : Insn) (s : Slot) :
    fill f (fixed lead ++ ⟨m, some s⟩ :: fixed rest) = lead ++ m.withField f :: rest := by
  simp [fill, fixed, Item.fixed, Function.comp_def]

theorem fill_fixed (f : Field) (is : List Insn) : fill f (fixed is) = is := by
  simp [fill, fixed, Item.fixed, Function.comp_def]

/-- The marked instruction of an instruction's code, and its slot. -/
def marked? : Instr → Option (Insn × Slot)
  | .push (.imm _) => some (.movImm64 .rdi 0, .imm64)
  | .push (.mem (.abs _)) => some (.loadAbs .rdi 0, .disp32)
  | .push (.mem (.off r _)) => some (.loadDisp .rdi (home r) 0, .disp32)
  | .pop (.mem (.abs _)) => some (.storeAbs 0 .rdi, .disp32)
  | .pop (.mem (.off r _)) => some (.storeDisp (home r) 0 .rdi, .disp32)
  | .branch .jmp _ => some (.jmp 0, .rel32)
  | .branch .call _ => some (.call 0, .rel32)
  | .branch (.cond c) _ => some (.jcc (condition c) 0, .rel32)
  | .input | .output => some (.movImm64 .r11 0, .helper)
  | .push (.reg _) | .push (.mem (.ptr _)) => none
  | .pop .discard | .pop (.reg _) | .pop (.mem (.ptr _)) => none
  | .hlt | .arith _ | .sqrt | .ret => none

theorem host_marked (h : Helper) (padded : Bool) :
    ∃ lead rest, host h padded = fixed lead ++ ⟨.movImm64 .r11 0, some .helper⟩ :: fixed rest := by
  refine ⟨(if h = .input then [.subImm .rsp 8] else []) ++ saved.map .push ++
      [.leaRsp .rdi 32] ++ (if padded then [.push .rdi] else []),
    [.callReg .r11] ++ (if padded then [.pop .rdi] else []) ++ saved.reverse.map .pop ++
      (if h = .output then [.addImm .rsp 8] else []), ?_⟩
  simp [host, fixed]

theorem exists_marked (i : Instr) (padded : Bool) :
    match marked? i with
    | none => ∃ is, ofInstr i padded = fixed is
    | some (m, s) => ∃ lead rest, ofInstr i padded = fixed lead ++ ⟨m, some s⟩ :: fixed rest := by
  cases i with
  | push src =>
      cases src with
      | imm bits => exact ⟨[], [.push .rdi], rfl⟩
      | reg r => exact ⟨_, rfl⟩
      | mem c =>
          cases c with
          | abs d => exact ⟨[], [.push .rdi], rfl⟩
          | ptr r => exact ⟨_, rfl⟩
          | off r d => exact ⟨[], [.push .rdi], rfl⟩
  | pop dst =>
      cases dst with
      | discard => exact ⟨_, rfl⟩
      | reg r => exact ⟨_, rfl⟩
      | mem c =>
          cases c with
          | abs d => exact ⟨[.pop .rdi], [], rfl⟩
          | ptr r => exact ⟨_, rfl⟩
          | off r d => exact ⟨[.pop .rdi], [], rfl⟩
  | input => exact host_marked .input padded
  | output => exact host_marked .output padded
  | branch b t =>
      cases b with
      | cond c => exact ⟨[.pop .rsi, .pop .rdi, .cmp .rdi .rsi], [], rfl⟩
      | _ => exact ⟨[], [], rfl⟩
  | _ => exact ⟨_, rfl⟩

/-- The marked instruction has a field of the slot's width, at its end. -/
theorem fieldAt?_marked {i : Instr} {m : Insn} {s : Slot} (h : marked? i = some (m, s)) :
    ∃ pos, m.fieldAt? = some pos ∧ pos + s.width = m.encode.length := by
  cases i with
  | push src =>
      cases src with
      | imm bits => cases h; exact ⟨2, rfl, rfl⟩
      | reg r => cases h
      | mem c =>
          cases c with
          | abs d => cases h; exact ⟨4, rfl, rfl⟩
          | ptr r => cases h
          | off r d => cases h; exact ⟨3, rfl, rfl⟩
  | pop dst =>
      cases dst with
      | mem c =>
          cases c with
          | abs d => cases h; exact ⟨4, rfl, rfl⟩
          | ptr r => cases h
          | off r d => cases h; exact ⟨3, rfl, rfl⟩
      | _ => cases h
  | branch b t =>
      cases b with
      | cond c => cases h; exact ⟨2, rfl, rfl⟩
      | _ => cases h; exact ⟨1, rfl, rfl⟩
  | input | output => cases h; exact ⟨2, rfl, rfl⟩
  | _ => cases h

theorem map_snd_marked (i : Instr) : (marked? i).map Prod.snd = Slot.ofInstr? i := by
  cases i with
  | push src =>
      cases src with
      | mem c => cases c <;> rfl
      | _ => rfl
  | pop dst =>
      cases dst with
      | mem c => cases c <;> rfl
      | _ => rfl
  | branch b t => cases b <;> rfl
  | _ => rfl

end Block

namespace Template

/-- An instruction without a field: its template is its code. -/
theorem ofBlock_unmarked {i : Instr} (padded : Bool) (h : Slot.ofInstr? i = none) :
    (ofBlock (Block.ofInstr i padded)).slots = [] ∧
      ∀ f, (ofBlock (Block.ofInstr i padded)).code =
        Insn.encodeAll ((Block.ofInstr i padded).fill f) := by
  have hm : Block.marked? i = none := by
    simpa [h] using Block.map_snd_marked i
  have hs := Block.exists_marked i padded
  rw [hm] at hs
  obtain ⟨is, hi⟩ := hs
  simp [hi, ofBlock_fixed, Block.fill_fixed]

/-- An instruction with a field: its template has that field and no other, inside its
code, and encodes the instruction's code for every value of the field. -/
theorem ofBlock_field {i : Instr} {s : Slot} (padded : Bool) (h : Slot.ofInstr? i = some s) :
    ∃ pos : Nat, (ofBlock (Block.ofInstr i padded)).slots = [(s, (pos : Int))] ∧
      pos + s.width ≤ (ofBlock (Block.ofInstr i padded)).code.length ∧
      ∀ f : Field, f.bytes.length = s.width →
        (ofBlock (Block.ofInstr i padded)).code.overwrite pos f.bytes =
          Insn.encodeAll ((Block.ofInstr i padded).fill f) := by
  obtain ⟨m, hm⟩ : ∃ m, Block.marked? i = some (m, s) := by
    have := Block.map_snd_marked i
    rw [h] at this
    obtain ⟨⟨m, s'⟩, hm, rfl⟩ := Option.map_eq_some_iff.mp this
    exact ⟨m, hm⟩
  obtain ⟨pos, hpos, hwidth⟩ := Block.fieldAt?_marked hm
  have hs := Block.exists_marked i padded
  rw [hm] at hs
  obtain ⟨lead, rest, hi⟩ := hs
  rw [hi, ofBlock_marked lead rest m s hpos]
  refine ⟨(Insn.encodeAll lead).length + pos, rfl, ?_, fun f hf => ?_⟩
  · simp only [List.length_append]
    omega
  · have hl : pos + f.bytes.length = m.encode.length := by rw [hf, hwidth]
    rw [Bytes.overwrite_append_right, Bytes.overwrite_append_left (by omega),
      Insn.overwrite_field hpos hl, Block.fill_marked]
    simp [Insn.encodeAll]

end Template

end StackCode.Lowering
