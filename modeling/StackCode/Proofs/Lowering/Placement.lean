import StackCode.Proofs.Lowering.BlockMeaning
import StackCode.Proofs.Lowering.Image

/-!
# Where the code of each instruction stands

The image of a program, read as machine instructions: at the offset of every instruction
stand the instructions of its code, the next instruction of the program is behind them,
and where the image is shorter than two gibibytes the distance in a branch leads exactly
to the code of its target.
-/
namespace StackCode.Bytecode

/-- A place in a program cuts its instructions in two. -/
theorem Located.place_eq_append {ip : Nat} {is : List Instr} {before after : List Located}
    {l : Located} (h : place ip is = before ++ l :: after) :
    ∃ front rest, is = front ++ l.instr :: rest ∧ l.ip = ip + (front.flatMap Instr.encode).length ∧
      after = place l.next rest := by
  induction before generalizing ip is with
  | nil =>
      cases is with
      | nil => cases h
      | cons i is =>
          obtain ⟨rfl, rfl⟩ := List.cons.inj h
          exact ⟨[], is, rfl, rfl, rfl⟩
  | cons k before ih =>
      cases is with
      | nil => cases h
      | cons i is =>
          obtain ⟨rfl, htail⟩ := List.cons.inj h
          obtain ⟨front, rest, rfl, hip, hafter⟩ := ih htail
          refine ⟨i :: front, rest, rfl, ?_, hafter⟩
          rw [hip, List.flatMap_cons, List.length_append, Instr.length_encode, Nat.add_assoc]

namespace Scan

variable {code : Bytes} (hf : (ofCode code).fault = none) {before after : List Located}
  {l : Located} (hl : (ofCode code).instrs = before ++ l :: after)
include hf hl

theorem read_drop : Instr.read (code.drop l.ip) = .ok l.instr := by
  obtain ⟨is, hcode, hplace⟩ := exists_place hf
  obtain ⟨front, rest, rfl, hip, -⟩ := Located.place_eq_append (hplace.symm.trans hl)
  rw [Nat.zero_add] at hip
  rw [hcode, hip, List.flatMap_append, List.flatMap_cons, List.drop_left, Instr.read_encode]

theorem next_eq : (after = [] ∧ l.next = code.length) ∨
    ∃ k rest, after = k :: rest ∧ k.ip = l.next := by
  obtain ⟨is, hcode, hplace⟩ := exists_place hf
  obtain ⟨front, rest, rfl, hip, rfl⟩ := Located.place_eq_append (hplace.symm.trans hl)
  cases rest with
  | nil =>
      refine .inl ⟨rfl, ?_⟩
      rw [Located.next, hip, hcode, List.flatMap_append, List.length_append, List.flatMap_cons,
        List.flatMap_nil, List.append_nil, Instr.length_encode, Nat.zero_add]
  | cons i rest => exact .inr ⟨_, _, rfl, rfl⟩

end Scan

end StackCode.Bytecode

namespace StackCode.Lowering

open Bytecode X64

/-! ## Offsets -/

namespace Layout

variable {code : Bytes} (hf : (Scan.ofCode code).fault = none)
include hf

theorem offset?_end :
    (ofInstrs code.length (Scan.ofCode code).instrs).offset? code.length =
      some (span 0 (Scan.ofCode code).instrs) :=
  offset?_of_mem hf (p := (code.length, span 0 (Scan.ofCode code).instrs))
    (List.mem_append_right _ (.head _))

theorem offset?_append {before after : List Located} {l : Located}
    (hl : (Scan.ofCode code).instrs = before ++ l :: after) :
    (ofInstrs code.length (Scan.ofCode code).instrs).offset? l.ip = some (span 0 before) := by
  have hstep : (⟨l.ip, l.instr, .ofInstr l.instr (0 + rise before), 0 + span 0 before,
      0 + rise before⟩ : Step) ∈ Step.along 0 0 (Scan.ofCode code).instrs :=
    Step.mem_along.mpr ⟨before, after, hl, rfl, rfl, rfl⟩
  rw [offset?_step hf hstep, Nat.zero_add]

theorem offset?_next {s : Step} (hs : s ∈ Step.along 0 0 (Scan.ofCode code).instrs) :
    (ofInstrs code.length (Scan.ofCode code).instrs).offset? (s.ip + s.instr.len : Nat) =
      some (s.nativeIp + s.desc.nativeLen) := by
  obtain ⟨before, after, hl, hn, hd, he⟩ := Step.mem_along.mp hs
  have hspan : s.nativeIp + s.desc.nativeLen = span 0 (before ++ [⟨s.ip, s.instr⟩]) := by
    rw [span_append, hn, he, hd]
    simp [span]
  rcases Scan.next_eq hf hl with ⟨rfl, hend⟩ | ⟨k, rest, rfl, hk⟩
  · rw [hspan, ← hl, ← offset?_end hf, ← hend]
    rfl
  · have hnext : (Scan.ofCode code).instrs = (before ++ [⟨s.ip, s.instr⟩]) ++ k :: rest := by
      simpa using hl
    rw [hspan, ← offset?_append hf hnext, hk]
    rfl

omit hf in
theorem exists_step_of_offset? {n : Nat} {ls : List Located} {ip : Int} {native : Nat}
    (h : (ofInstrs n ls).offset? ip = some native) :
    (∃ s ∈ Step.along 0 0 ls, (s.ip : Int) = ip ∧ s.nativeIp = native) ∨ ip = n := by
  obtain ⟨p, hp, rfl⟩ := Option.map_eq_some_iff.mp h
  have hip : (p.1 : Int) = ip := by simpa using List.find?_some hp
  rcases List.mem_append.mp (List.mem_of_find?_eq_some hp) with hmem | hmem
  · obtain ⟨s, hs, rfl⟩ := List.mem_map.mp hmem
    exact .inl ⟨s, hs, hip, rfl⟩
  · obtain rfl := List.mem_singleton.mp hmem
    exact .inr hip.symm

omit hf in
theorem exists_target {layout : Layout} (hl : ofCode (some code) = .ok layout) {s : Step}
    (hs : s ∈ Step.along 0 0 (Scan.ofCode code).instrs) {b : Branch} {t : Int32}
    (hi : s.instr = .branch b t) :
    ∃ k ∈ Step.along 0 0 (Scan.ofCode code).instrs, (k.ip : Int) = t.toInt := by
  obtain ⟨-, -, hlayout, htargets⟩ := ofCode_eq_ok hl
  have hjump : s.jump? = some ⟨s.ip, t.toInt, s.fieldAt, .ofBranch b⟩ := by rw [Step.jump?, hi]
  have hmem : (⟨s.ip, t.toInt, s.fieldAt, .ofBranch b⟩ : Relocation) ∈ layout.relocations := by
    rw [hlayout]
    exact List.mem_filterMap.mpr ⟨s, hs, hjump⟩
  have hboundary := htargets _ hmem
  rw [hlayout] at hboundary
  exact exists_step_of_isBoundary hboundary

end Layout

/-! ## Distances -/

theorem distance_eq (n : Int) : distance n = Bytes.ofWord32 (Int32.ofInt n).toUInt32 := by
  rw [distance, Bytes.ofWord32]
  congr 1

theorem add_signed32 {stop target : Nat} (hlo : -2 ^ 31 ≤ (target : Int) - stop)
    (hhi : (target : Int) - stop < 2 ^ 31) :
    UInt64.ofNat stop + signed32 (.ofInt (target - stop)) = UInt64.ofNat target := by
  have hwide : (Int32.ofInt (target - stop)).toInt64 = Int64.ofInt (target - stop) :=
    Int32.toInt64_ofInt hlo (Int.le_of_lt_add_one hhi)
  have hnat (n : Nat) : UInt64.ofNat n = (Int64.ofInt n).toUInt64 := by
    apply UInt64.toBitVec_inj.mp
    simp
    rfl
  have hsum : (target : Int) = stop + (target - stop) := by omega
  rw [signed32, hwide, hnat, hnat target, ← Int64.toUInt64_add, ← Int64.ofInt_add, ← hsum]

/-! ## Blocks as machine instructions -/

namespace Block

theorem encodable_ofInstr (i : Instr) (padded : Bool) :
    (ofInstr i padded).all (fun it => it.insn.encodable) = true := by
  cases i with
  | push src =>
      cases src with
      | imm bits => rfl
      | reg r => cases r <;> rfl
      | mem c =>
          cases c with
          | abs d => rfl
          | ptr r | off r d => cases r <;> rfl
  | pop dst =>
      cases dst with
      | discard => rfl
      | reg r => cases r <;> rfl
      | mem c =>
          cases c with
          | abs d => rfl
          | ptr r | off r d => cases r <;> rfl
  | arith op => cases op <;> rfl
  | branch b t =>
      cases b with
      | cond c => cases c <;> rfl
      | _ => rfl
  | input | output => cases padded <;> rfl
  | _ => rfl

theorem length_field (h : Helpers) (rel : Int32) {i : Instr} {slot : Slot}
    (hslot : Slot.ofInstr? i = some slot) : (field h rel i).bytes.length = slot.width := by
  cases i with
  | push src =>
      cases src with
      | mem c => cases c <;> cases hslot <;> rfl
      | _ => cases hslot <;> rfl
  | pop dst =>
      cases dst with
      | mem c => cases c <;> cases hslot <;> rfl
      | _ => cases hslot
  | input | output | branch b t => cases hslot; rfl
  | _ => cases hslot

theorem encodable_fill (f : Field) (i : Instr) (padded : Bool) :
    ∀ insn ∈ (ofInstr i padded).fill f, insn.encodable := by
  intro insn hmem
  obtain ⟨it, hit, rfl⟩ := List.mem_map.mp hmem
  have he := List.all_eq_true.mp (encodable_ofInstr i padded) it hit
  split
  · rwa [Insn.encodable_withField]
  · exact he

end Block

namespace Step

def rel (ls : List Located) (s : Step) : Int32 :=
  match s.instr.target? with
  | some t => .ofInt ((Expected.offset ls t.toInt : Int) - (s.nativeIp + s.desc.nativeLen : Nat))
  | none => 0

def code (h : Helpers) (ls : List Located) (s : Step) : List Insn :=
  Block.code h (s.rel ls) s.instr (Variant.needsPadding s.instr s.depth)

section
variable {s : Step} (hs : s.desc = .ofInstr s.instr s.depth)
include hs

/-- The field of a branch is at the end of its code. -/
theorem field_end {b : Branch} {t : Int32} (hi : s.instr = .branch b t) :
    s.fieldPos + 4 = s.desc.nativeLen := by
  have hslot : Slot.ofInstr? s.instr = some .rel32 := by rw [hi]; rfl
  have hslots := (slots_eq hs hslot).1
  rw [hs, hi] at hslots ⊢
  cases b with
  | cond c =>
      have hpos : [(Slot.rel32, (7 : Int))] = [(Slot.rel32, (s.fieldPos : Int))] := by
        rw [← hslots]
        cases c <;> rfl
      have hlen : (Descriptor.ofInstr (.branch (.cond c) t) s.depth).nativeLen = 11 := by
        cases c <;> rfl
      simp only [List.cons.injEq, Prod.mk.injEq] at hpos
      omega
  | jmp | call =>
      have hpos : [(Slot.rel32, (1 : Int))] = [(Slot.rel32, (s.fieldPos : Int))] := hslots
      simp only [List.cons.injEq, Prod.mk.injEq] at hpos
      have : s.fieldPos = 1 := by omega
      rw [this]
      rfl

/-- The bytes of the field, as what the machine instructions hold. -/
theorem expected_field {ls : List Located} {slot : Slot} (h : Helpers)
    (hslot : Slot.ofInstr? s.instr = some slot) (ho : Expected.offset ls s.ip = s.nativeIp) :
    Expected.field h ls ⟨s.ip, s.instr⟩ s.fieldPos slot =
      (Block.field h (s.rel ls) s.instr).bytes := by
  have hdisp : Slot.disp32 ≠ .imm64 := by decide
  have hhelper : Slot.helper ≠ .imm64 ∧ Slot.helper ≠ .disp32 := by decide
  have hrel : Slot.rel32 ≠ .imm64 ∧ Slot.rel32 ≠ .disp32 ∧ Slot.rel32 ≠ .helper := by decide
  cases hi : s.instr with
  | push src =>
      rw [hi] at hslot
      cases src with
      | imm bits => cases hslot; rfl
      | reg r => cases hslot
      | mem c =>
          cases c with
          | ptr r => cases hslot
          | abs d | off r d =>
              cases hslot
              rw [Expected.field, if_neg hdisp, if_pos rfl]
              rfl
  | pop dst =>
      rw [hi] at hslot
      cases dst with
      | discard => cases hslot
      | reg r => cases hslot
      | mem c =>
          cases c with
          | ptr r => cases hslot
          | abs d | off r d =>
              cases hslot
              rw [Expected.field, if_neg hdisp, if_pos rfl]
              rfl
  | input | output =>
      rw [hi] at hslot
      cases hslot
      rw [Expected.field, if_neg hhelper.1, if_neg hhelper.2, if_pos rfl]
      rfl
  | branch b t =>
      have hend := field_end hs hi
      rw [hi] at hslot
      cases hslot
      have hsum : ((s.nativeIp + s.fieldPos : Nat) : Int) + 4 =
          (s.nativeIp + s.desc.nativeLen : Nat) := by omega
      rw [Expected.field, if_neg hrel.1, if_neg hrel.2.1, if_neg hrel.2.2, distance_eq, ho, hsum]
      simp only [rel, hi]
      rfl
  | _ =>
      rw [hi] at hslot
      cases hslot

/-- A block of the image encodes the machine instructions of its step. -/
theorem expected_code {ls : List Located} (h : Helpers)
    (ht : Expected.template? ls ⟨s.ip, s.instr⟩ = some s.desc.template)
    (ho : Expected.offset ls s.ip = s.nativeIp) :
    Expected.block h ls ⟨s.ip, s.instr⟩ = Insn.encodeAll (s.code h ls) := by
  rw [Expected.block, ht]
  cases hslot : Slot.ofInstr? s.instr with
  | none =>
      simp only [slots_eq_nil hs hslot, List.foldl_nil]
      rw [hs]
      exact (Template.ofBlock_unmarked _ hslot).2 _
  | some slot =>
      obtain ⟨hslots, -, -⟩ := slots_eq hs hslot
      obtain ⟨pos, hpos, -, hfill⟩ :=
        Template.ofBlock_field (Variant.needsPadding s.instr s.depth) hslot
      have hpos : s.desc.template.slots = [(slot, (pos : Int))] := by
        rw [hs]
        exact hpos
      obtain rfl : pos = s.fieldPos := by
        rw [hslots] at hpos
        simp only [List.cons.injEq, Prod.mk.injEq] at hpos
        omega
      simp only [hslots, List.foldl_cons, List.foldl_nil, Int.toNat_natCast,
        expected_field hs h hslot ho]
      rw [hs]
      exact hfill _ (Block.length_field h _ hslot)

end

end Step

section
variable {ls : List Located} (hasc : ls.Pairwise fun a b => a.ip < b.ip) {s : Step}
  (hs : s ∈ Step.along 0 0 ls)
include hasc hs

theorem Step.encodeAll_code (h : Helpers) :
    Expected.block h ls ⟨s.ip, s.instr⟩ = Insn.encodeAll (s.code h ls) :=
  Step.expected_code (Step.desc_of_mem_along hs) h (Expected.template?_step hasc hs)
    (Expected.offset_step hasc hs)

theorem Step.length_encodeAll_code (h : Helpers) :
    (Insn.encodeAll (s.code h ls)).length = s.desc.nativeLen := by
  rw [← Step.encodeAll_code hasc hs h, Expected.length_block, Expected.blockLen,
    Expected.template?_step hasc hs]
  rfl

omit hasc in
theorem Step.end_le : s.nativeIp + s.desc.nativeLen ≤ span 0 ls := by
  obtain ⟨before, after, rfl, hn, hd, he⟩ := Step.mem_along.mp hs
  rw [span_append, hn, he, hd, span]
  simp only
  omega

theorem Step.hasCode {host : Host} {h : Helpers} (hi : host.image.toList = Expected.image h ls) :
    host.HasCode (host.base + UInt64.ofNat s.nativeIp) (s.code h ls) := by
  obtain ⟨before, after, hl, hn, -, -⟩ := Step.mem_along.mp hs
  refine ⟨before.flatMap (Expected.block h ls), after.flatMap (Expected.block h ls), ?_, ?_⟩
  · rw [hi, ← Step.encodeAll_code hasc hs h, Expected.image_eq_append h hl]
  · rw [Expected.length_blocks hasc h hl, hn, Nat.zero_add]

end

end StackCode.Lowering
