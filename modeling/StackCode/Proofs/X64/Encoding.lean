import StackCode.Proofs.Bytes
import StackCode.X64.Decode

/-!
# Machine instructions are read back

`Insn.encodable` says which instructions have an encoding of their own: register numbers
and condition codes are in range, and a base register is not one whose low bits ask for
something else. Such an instruction is read back from in front of any bytes. Laying new
bytes over the field of an instruction gives the encoding of the instruction with another
value in its field.
-/
namespace StackCode.X64

/-! ## The bits of prefix and operand bytes -/

theorem exists_reg {r : Reg} (h : r < 16) : ∃ n < 16, r = UInt8.ofNat n :=
  ⟨r.toNat, UInt8.lt_iff_toNat_lt.mp h, UInt8.ofNat_toNat.symm⟩

theorem low_lt (r : Reg) : (r &&& 7).toNat < 8 := by
  rw [UInt8.toNat_and]
  exact Nat.lt_of_le_of_lt Nat.and_le_right (by decide)

theorem low_eq (r : Reg) : ∃ n < 8, r &&& 7 = UInt8.ofNat n :=
  ⟨(r &&& 7).toNat, low_lt r, UInt8.ofNat_toNat.symm⟩

theorem extend_low {r low : Reg} (h : r < 16) (hl : low &&& 7 = r &&& 7) :
    extend (8 ≤ r) low = r := by
  have table : ∀ n < 16, (if 8 ≤ UInt8.ofNat n then 8 else 0) ||| (UInt8.ofNat n &&& 7) =
      UInt8.ofNat n := by decide
  obtain ⟨n, hn, rfl⟩ := exists_reg h
  simpa [extend, hl] using table n hn

def modes : List UInt8 := [modeNone, modeDisp8, modeDisp32, modeReg]

theorem modRM_bits {mode : UInt8} (hm : mode ∈ modes) (reg rm : Reg) :
    modRM mode reg rm &&& 0xc0 = mode ∧ (modRM mode reg rm >>> 3) &&& 7 = reg &&& 7 ∧
      modRM mode reg rm &&& 7 = rm &&& 7 := by
  have table : ∀ mode ∈ modes, ∀ a < 8, ∀ b < 8,
      let m := mode ||| (UInt8.ofNat a <<< 3) ||| UInt8.ofNat b
      m &&& 0xc0 = mode ∧ (m >>> 3) &&& 7 = UInt8.ofNat a ∧ m &&& 7 = UInt8.ofNat b := by
    decide +kernel
  obtain ⟨a, ha, hreg⟩ := low_eq reg
  obtain ⟨b, hb, hrm⟩ := low_eq rm
  simpa [modRM, hreg, hrm] using table mode hm a ha b hb

/-! ## Operands -/

theorem readDisp32_ofWord32 (d : Int32) (rest : Bytes) :
    readDisp32 (Bytes.ofWord32 d.toUInt32 ++ rest) = some (d, rest) := by
  have hd : (Bytes.ofWord32 d.toUInt32 ++ rest).drop 4 = rest := by
    rw [← Bytes.length_ofWord32 d.toUInt32, List.drop_left]
  simp [readDisp32, hd]

section
variable {w x : Bool} {reg rm : Reg}

theorem readModRM_reg (hreg : reg < 16) (hrm : rm < 16) (bs : Bytes) :
    readModRM ⟨w, 8 ≤ reg, x, 8 ≤ rm⟩ (modRM modeReg reg rm :: bs) =
      some (reg, .reg rm, bs) := by
  obtain ⟨hmode, hr, hm⟩ := modRM_bits (show modeReg ∈ modes by decide) reg rm
  simp [readModRM, hmode, extend_low hreg hr, extend_low hrm hm]

theorem readModRM_base (hreg : reg < 16) (hrm : rm < 16) (h4 : rm &&& 7 ≠ 4)
    (h5 : rm &&& 7 ≠ 5) (bs : Bytes) :
    readModRM ⟨w, 8 ≤ reg, x, 8 ≤ rm⟩ (modRM modeNone reg rm :: bs) =
      some (reg, .base rm, bs) := by
  obtain ⟨hmode, hr, hm⟩ := modRM_bits (show modeNone ∈ modes by decide) reg rm
  have hne : modeNone ≠ modeReg := by decide
  simp [readModRM, hmode, hm, hne, h4, h5, readBase, extend_low hreg hr, extend_low hrm hm]

theorem readModRM_baseDisp32 (hreg : reg < 16) (hrm : rm < 16) (h4 : rm &&& 7 ≠ 4)
    (d : Int32) (bs : Bytes) :
    readModRM ⟨w, 8 ≤ reg, x, 8 ≤ rm⟩
        (modRM modeDisp32 reg rm :: (Bytes.ofWord32 d.toUInt32 ++ bs)) =
      some (reg, .baseDisp32 rm d, bs) := by
  obtain ⟨hmode, hr, hm⟩ := modRM_bits (show modeDisp32 ∈ modes by decide) reg rm
  have hreg' : modeDisp32 ≠ modeReg := by decide
  have hnone : modeDisp32 ≠ modeNone := by decide
  have hdisp8 : modeDisp32 ≠ modeDisp8 := by decide
  simp [readModRM, hmode, hm, hreg', hnone, hdisp8, h4, readBase, readDisp32_ofWord32,
    extend_low hreg hr, extend_low hrm hm]

theorem readModRM_abs (hreg : reg < 16) (b : Bool) (d : Int32) (bs : Bytes) :
    readModRM ⟨w, 8 ≤ reg, false, b⟩
        (modRM modeNone reg .rsp :: sibAbsolute :: (Bytes.ofWord32 d.toUInt32 ++ bs)) =
      some (reg, .abs d, bs) := by
  obtain ⟨hmode, hr, hm⟩ := modRM_bits (show modeNone ∈ modes by decide) reg .rsp
  have hne : modeNone ≠ modeReg := by decide
  have h4 : Reg.rsp &&& 7 = 4 := by decide
  have hi : (sibAbsolute >>> 3) &&& 7 = 4 := by decide
  have hb : sibAbsolute &&& 7 = 5 := by decide
  simp [readModRM, hmode, hm, hne, h4, readIndexed, hi, hb, readDisp32_ofWord32,
    extend_low hreg hr]

theorem readIndexed_stack (w r : Bool) (mode : UInt8) (bs : Bytes) :
    readIndexed ⟨w, r, false, false⟩ mode (sibStack :: bs) = readBase mode .rsp bs := by
  have hi : (sibStack >>> 3) &&& 7 = 4 := by decide
  have hb : sibStack &&& 7 ≠ 5 := by decide
  have he : extend false sibStack = .rsp := by decide
  simp [readIndexed, hi, hb, he]

/-- A stack slot is read back; a displacement of zero is left out. -/
theorem readModRM_slot (hreg : reg < 16) (disp : Int8) (bs : Bytes) :
    readModRM ⟨w, 8 ≤ reg, false, false⟩
        (modRM modeDisp8 reg .rsp :: sibStack :: disp.toUInt8 :: bs) =
      some (reg, .baseDisp8 .rsp disp, bs) := by
  obtain ⟨hmode, hr, hm⟩ := modRM_bits (show modeDisp8 ∈ modes by decide) reg .rsp
  have hreg' : modeDisp8 ≠ modeReg := by decide
  have hnone : modeDisp8 ≠ modeNone := by decide
  have h4 : Reg.rsp &&& 7 = 4 := by decide
  simp [readModRM, hmode, hm, hreg', hnone, h4, readIndexed_stack, readBase, readDisp8,
    extend_low hreg hr]

theorem readModRM_top (hreg : reg < 16) (bs : Bytes) :
    readModRM ⟨w, 8 ≤ reg, false, false⟩ (modRM modeNone reg .rsp :: sibStack :: bs) =
      some (reg, .base .rsp, bs) := by
  obtain ⟨hmode, hr, hm⟩ := modRM_bits (show modeNone ∈ modes by decide) reg .rsp
  have hne : modeNone ≠ modeReg := by decide
  have h4 : Reg.rsp &&& 7 = 4 := by decide
  simp [readModRM, hmode, hm, hne, h4, readIndexed_stack, readBase, extend_low hreg hr]

end

namespace Insn

/-! ## Instructions -/

def encodable : Insn → Bool
  | .movImm64 r _ | .movImm32 r _ | .loadAbs r _ | .storeAbs _ r | .leaRsp r _ => r < 16
  | .addImm r _ | .subImm r _ | .callReg r | .push r | .pop r => r < 16
  | .load r base | .store base r =>
      r < 16 && base < 16 && base &&& 7 != 4 && base &&& 7 != 5
  | .loadDisp r base _ | .storeDisp base _ r => r < 16 && base < 16 && base &&& 7 != 4
  | .xor a b | .cmp a b => a < 16 && b < 16
  | .jcc cc _ => cc < 16
  | .jmp _ | .call _ | .ret | .syscall => true
  | .movsdLoad x _ | .movsdStore _ x | .sqrtsd x _ => x < 8
  | .arithsd op dst src =>
      (op == sseAdd || op == sseMul || op == sseSub || op == sseDiv) && dst < 8 && src < 8

theorem read_wide (r b : Bool) (op : UInt8) (bs : Bytes) :
    read (rex true r false b :: op :: bs) = readWide ⟨true, r, false, b⟩ op bs := by
  cases r <;> cases b <;> rfl

/-- The first bytes that select a narrow instruction: those that are neither a prefix nor
an instruction of another kind. -/
def narrow (op : UInt8) : Bool :=
  op != 0xf2 && op != 0x0f && op != 0xe9 && op != 0xe8 && op != 0xc3 && (op < 0x40 || 0x4f < op)

theorem read_narrow {op : UInt8} (h : narrow op) (bs : Bytes) :
    read (op :: bs) = readNarrow .none op bs := by
  simp only [narrow, Bool.and_eq_true, bne_iff_ne, Bool.or_eq_true, decide_eq_true_eq] at h
  obtain ⟨⟨⟨⟨⟨hf2, h0f⟩, he9⟩, he8⟩, hc3⟩, hr⟩ := h
  have hrange : ¬ (0x40 ≤ op ∧ op ≤ 0x4f) := by
    rcases hr with hr | hr
    · exact fun hc => UInt8.not_le.mpr hr hc.1
    · exact fun hc => UInt8.not_le.mpr hr hc.2
  simp [read, hf2, h0f, hrange]

/-- A narrow instruction behind the extension byte that its register needs. -/
theorem read_extension {reg : Reg} {op : UInt8} (h : narrow op) (bs : Bytes) :
    read ((Chunk.extension reg).flatMap Chunk.bytes ++ op :: bs) =
      readNarrow ⟨false, false, false, 8 ≤ reg⟩ op bs := by
  by_cases hreg : 8 ≤ reg
  · have hx : (Chunk.extension reg).flatMap Chunk.bytes = [rex false false false true] := by
      simp [Chunk.extension, hreg, Chunk.bytes]
    rw [hx, decide_eq_true hreg]
    rfl
  · have hx : (Chunk.extension reg).flatMap Chunk.bytes = [] := by
      simp [Chunk.extension, hreg]
    rw [hx, decide_eq_false hreg]
    exact read_narrow h bs

theorem opcode_low (op : UInt8) (hop : op ∈ ([0x50, 0x58, 0xb8] : List UInt8)) (reg : Reg) :
    op ≤ op ||| (reg &&& 7) ∧ op ||| (reg &&& 7) ≤ op + 7 ∧
      (op ||| (reg &&& 7)) &&& 7 = reg &&& 7 ∧ narrow (op ||| (reg &&& 7)) := by
  have table : ∀ op ∈ ([0x50, 0x58, 0xb8] : List UInt8), ∀ a < 8,
      op ≤ op ||| UInt8.ofNat a ∧ op ||| UInt8.ofNat a ≤ op + 7 ∧
        (op ||| UInt8.ofNat a) &&& 7 = UInt8.ofNat a ∧ narrow (op ||| UInt8.ofNat a) := by
    decide +kernel
  obtain ⟨a, ha, hr⟩ := low_eq reg
  rw [hr]
  exact table op hop a ha

theorem encode_stackSlot (lead : Bytes) (x : Reg) (disp : Int8) :
    [Chunk.plain lead, Chunk.stackSlot x disp].flatMap Chunk.bytes =
      lead ++ (Chunk.stackSlot x disp).bytes := by
  simp [Chunk.bytes]

/-- The extension that no prefix byte stands for is that of two low registers. -/
theorem none_eq {r b : Reg} (hr : r < 8) (hb : b < 8) :
    Extension.none = ⟨false, 8 ≤ r, false, 8 ≤ b⟩ := by
  rw [decide_eq_false (UInt8.not_le.mpr hr), decide_eq_false (UInt8.not_le.mpr hb)]
  rfl

theorem readModRM_stackSlot {x : Reg} (hx : x < 8) (disp : Int8) (rest : Bytes) :
    ∃ rm, stackDisp? rm = some disp ∧
      readModRM .none ((Chunk.stackSlot x disp).bytes ++ rest) = some (x, rm, rest) := by
  have h16 : x < 16 := UInt8.lt_trans hx (by decide)
  rw [none_eq hx (show (0 : Reg) < 8 by decide)]
  by_cases h0 : disp = 0
  · refine ⟨.base .rsp, by rw [h0]; rfl, ?_⟩
    rw [Chunk.stackSlot, if_pos h0]
    exact readModRM_top h16 rest
  · refine ⟨.baseDisp8 .rsp disp, rfl, ?_⟩
    rw [Chunk.stackSlot, if_neg h0]
    exact readModRM_slot h16 disp rest

theorem not_le_of_le {a b op : UInt8} (h : a ≤ op) (hb : b < a) : ¬ op ≤ b :=
  UInt8.not_le.mpr (UInt8.lt_of_lt_of_le hb h)

/-- The conditions of a jump stand in the low half of the opcode byte. -/
theorem condition_low {cc : UInt8} (h : cc < 16) :
    0x80 ||| cc ≠ 0x05 ∧ (0x80 ||| cc) &&& 0xf0 = 0x80 ∧ (0x80 ||| cc) &&& 0x0f = cc := by
  have table : ∀ n < 16, 0x80 ||| UInt8.ofNat n ≠ 0x05 ∧
      (0x80 ||| UInt8.ofNat n) &&& 0xf0 = 0x80 ∧
        (0x80 ||| UInt8.ofNat n) &&& 0x0f = UInt8.ofNat n := by decide
  obtain ⟨n, hn, rfl⟩ := exists_reg h
  exact table n hn

def ReadsBack (i : Insn) : Prop := ∀ rest, read (i.encode ++ rest) = some (i, rest)

theorem readsBack_movImm64 {r : Reg} (h : r < 16) (imm : UInt64) : (movImm64 r imm).ReadsBack := by
  intro rest
  obtain ⟨hlo, hhi, hlow, -⟩ := opcode_low 0xb8 (by decide) r
  have hd : (Bytes.ofWord64 imm ++ rest).drop 8 = rest := by
    rw [← Bytes.length_ofWord64 imm, List.drop_left]
  have he : (movImm64 r imm).encode ++ rest =
      rex true false false (8 ≤ r) :: (0xb8 ||| (r &&& 7)) :: (Bytes.ofWord64 imm ++ rest) := by
    simp [encode, chunks, Chunk.bytes, Chunk.word64]
  rw [he, read_wide, readWide, if_pos ⟨hlo, hhi⟩, hd, extend_low h hlow]
  simp

theorem readsBack_movImm32 {r : Reg} (h : r < 16) (imm : Int32) : (movImm32 r imm).ReadsBack := by
  intro rest
  obtain ⟨hlo, hhi, hlow, hn⟩ := opcode_low 0xb8 (by decide) r
  have he : (movImm32 r imm).encode ++ rest =
      (Chunk.extension r).flatMap Chunk.bytes ++
        (0xb8 ||| (r &&& 7)) :: (Bytes.ofWord32 imm.toUInt32 ++ rest) := by
    simp [encode, chunks, Chunk.bytes, Chunk.word32]
  rw [he, read_extension hn, readNarrow,
    if_neg fun hc => not_le_of_le hlo (by decide) hc.2,
    if_neg fun hc => not_le_of_le hlo (by decide) hc.2, if_pos ⟨hlo, hhi⟩,
    readDisp32_ofWord32, extend_low h hlow]
  rfl

/-! Loads and stores differ in the opcode byte alone. -/

theorem readsBack_abs {r : Reg} (h : r < 16) (disp : Int32) :
    (loadAbs r disp).ReadsBack ∧ (storeAbs disp r).ReadsBack := by
  constructor <;> intro rest
  · have he : (loadAbs r disp).encode ++ rest =
        rexW r 0 :: 0x8b :: modRM modeNone r .rsp :: sibAbsolute ::
          (Bytes.ofWord32 disp.toUInt32 ++ rest) := by
      simp [encode, chunks, Chunk.bytes, Chunk.word32]
    rw [he, rexW, read_wide, readWide, if_neg (by decide), readModRM_abs h]
    rfl
  · have he : (storeAbs disp r).encode ++ rest =
        rexW r 0 :: 0x89 :: modRM modeNone r .rsp :: sibAbsolute ::
          (Bytes.ofWord32 disp.toUInt32 ++ rest) := by
      simp [encode, chunks, Chunk.bytes, Chunk.word32]
    rw [he, rexW, read_wide, readWide, if_neg (by decide), readModRM_abs h]
    rfl

theorem readsBack_base {r base : Reg} (hr : r < 16) (hb : base < 16) (h4 : base &&& 7 ≠ 4)
    (h5 : base &&& 7 ≠ 5) : (load r base).ReadsBack ∧ (store base r).ReadsBack := by
  constructor <;> intro rest
  · have he : (load r base).encode ++ rest =
        rexW r base :: 0x8b :: modRM modeNone r base :: rest := rfl
    rw [he, rexW, read_wide, readWide, if_neg (by decide), readModRM_base hr hb h4 h5]
    rfl
  · have he : (store base r).encode ++ rest =
        rexW r base :: 0x89 :: modRM modeNone r base :: rest := rfl
    rw [he, rexW, read_wide, readWide, if_neg (by decide), readModRM_base hr hb h4 h5]
    rfl

theorem readsBack_baseDisp32 {r base : Reg} (hr : r < 16) (hb : base < 16)
    (h4 : base &&& 7 ≠ 4) (disp : Int32) :
    (loadDisp r base disp).ReadsBack ∧ (storeDisp base disp r).ReadsBack := by
  constructor <;> intro rest
  · have he : (loadDisp r base disp).encode ++ rest =
        rexW r base :: 0x8b :: modRM modeDisp32 r base ::
          (Bytes.ofWord32 disp.toUInt32 ++ rest) := by
      simp [encode, chunks, Chunk.bytes, Chunk.word32]
    rw [he, rexW, read_wide, readWide, if_neg (by decide), readModRM_baseDisp32 hr hb h4]
    rfl
  · have he : (storeDisp base disp r).encode ++ rest =
        rexW r base :: 0x89 :: modRM modeDisp32 r base ::
          (Bytes.ofWord32 disp.toUInt32 ++ rest) := by
      simp [encode, chunks, Chunk.bytes, Chunk.word32]
    rw [he, rexW, read_wide, readWide, if_neg (by decide), readModRM_baseDisp32 hr hb h4]
    rfl

theorem readsBack_leaRsp {r : Reg} (h : r < 16) (disp : Int8) : (leaRsp r disp).ReadsBack := by
  intro rest
  have he : (leaRsp r disp).encode ++ rest =
      rex true (8 ≤ r) false false :: 0x8d :: modRM modeDisp8 r .rsp :: sibStack ::
        disp.toUInt8 :: rest := rfl
  rw [he, read_wide, readWide, if_neg (by decide), readModRM_slot h]
  rfl

theorem readsBack_imm8 {r : Reg} (h : r < 16) (imm : Int8) :
    (addImm r imm).ReadsBack ∧ (subImm r imm).ReadsBack := by
  -- the register field of the operand byte says which of the two it is
  constructor <;> intro rest
  · have he : (addImm r imm).encode ++ rest =
        rex true (8 ≤ (0 : Reg)) false (8 ≤ r) :: 0x83 :: modRM modeReg 0 r ::
          imm.toUInt8 :: rest := rfl
    rw [he, read_wide, readWide, if_neg (by decide), readModRM_reg (by decide) h]
    rfl
  · have he : (subImm r imm).encode ++ rest =
        rex true (8 ≤ (5 : Reg)) false (8 ≤ r) :: 0x83 :: modRM modeReg 5 r ::
          imm.toUInt8 :: rest := rfl
    rw [he, read_wide, readWide, if_neg (by decide), readModRM_reg (by decide) h]
    rfl

theorem readsBack_regs {a b : Reg} (ha : a < 16) (hb : b < 16) :
    (xor a b).ReadsBack ∧ (cmp a b).ReadsBack := by
  constructor <;> intro rest
  · have he : (xor a b).encode ++ rest = rexW b a :: 0x31 :: modRM modeReg b a :: rest := rfl
    rw [he, rexW, read_wide, readWide, if_neg (by decide), readModRM_reg hb ha]
    rfl
  · have he : (cmp a b).encode ++ rest = rexW b a :: 0x39 :: modRM modeReg b a :: rest := rfl
    rw [he, rexW, read_wide, readWide, if_neg (by decide), readModRM_reg hb ha]
    rfl

theorem readsBack_jcc {cc : UInt8} (h : cc < 16) (rel : Int32) : (jcc cc rel).ReadsBack := by
  intro rest
  obtain ⟨h5, hhigh, hlow⟩ := condition_low h
  have he : (jcc cc rel).encode ++ rest =
      0x0f :: (0x80 ||| cc) :: (Bytes.ofWord32 rel.toUInt32 ++ rest) := by
    simp [encode, chunks, Chunk.bytes, Chunk.word32]
  rw [he, read, if_neg h5, if_pos hhigh, readDisp32_ofWord32, hlow]
  rfl

theorem readsBack_rel32 (rel : Int32) : (jmp rel).ReadsBack ∧ (call rel).ReadsBack := by
  constructor <;> intro rest
  · have he : (jmp rel).encode ++ rest = 0xe9 :: (Bytes.ofWord32 rel.toUInt32 ++ rest) := by
      simp [encode, chunks, Chunk.bytes, Chunk.word32]
    rw [he, read, readDisp32_ofWord32]
    rfl
  · have he : (call rel).encode ++ rest = 0xe8 :: (Bytes.ofWord32 rel.toUInt32 ++ rest) := by
      simp [encode, chunks, Chunk.bytes, Chunk.word32]
    rw [he, read, readDisp32_ofWord32]
    rfl

theorem readsBack_callReg {r : Reg} (h : r < 16) : (callReg r).ReadsBack := by
  intro rest
  have he : (callReg r).encode ++ rest =
      (Chunk.extension r).flatMap Chunk.bytes ++ 0xff :: modRM modeReg 2 r :: rest := by
    simp [encode, chunks, Chunk.bytes]
  have hx : (⟨false, false, false, 8 ≤ r⟩ : Extension) = ⟨false, 8 ≤ (2 : Reg), false, 8 ≤ r⟩ :=
    rfl
  rw [he, read_extension (by decide), readNarrow, if_neg (by decide), if_neg (by decide),
    if_neg (by decide), if_pos rfl, hx, readModRM_reg (by decide) h]
  rfl

theorem readsBack_stack {r : Reg} (h : r < 16) : (push r).ReadsBack ∧ (pop r).ReadsBack := by
  constructor <;> intro rest
  · obtain ⟨hlo, hhi, hlow, hn⟩ := opcode_low 0x50 (by decide) r
    have he : (push r).encode ++ rest =
        (Chunk.extension r).flatMap Chunk.bytes ++ (0x50 ||| (r &&& 7)) :: rest := by
      simp [encode, chunks, Chunk.bytes]
    rw [he, read_extension hn, readNarrow, if_pos ⟨hlo, hhi⟩, extend_low h hlow]
  · obtain ⟨hlo, hhi, hlow, hn⟩ := opcode_low 0x58 (by decide) r
    have he : (pop r).encode ++ rest =
        (Chunk.extension r).flatMap Chunk.bytes ++ (0x58 ||| (r &&& 7)) :: rest := by
      simp [encode, chunks, Chunk.bytes]
    rw [he, read_extension hn, readNarrow, if_neg fun hc => not_le_of_le hlo (by decide) hc.2,
      if_pos ⟨hlo, hhi⟩, extend_low h hlow]

theorem readsBack_arithsd {op dst src : UInt8}
    (hop : op = sseAdd ∨ op = sseMul ∨ op = sseSub ∨ op = sseDiv) (hd : dst < 8)
    (hs : src < 8) : (arithsd op dst src).ReadsBack := by
  intro rest
  have he : (arithsd op dst src).encode ++ rest =
      0xf2 :: 0x0f :: op :: modRM modeReg dst src :: rest := rfl
  rw [he, read, readScalar, none_eq hd hs, readModRM_reg
    (UInt8.lt_trans hd (by decide)) (UInt8.lt_trans hs (by decide))]
  simp only [if_pos hop]

theorem read_encode {i : Insn} (h : i.encodable) : i.ReadsBack := by
  cases i with
  | movImm64 r imm => exact readsBack_movImm64 (of_decide_eq_true h) imm
  | movImm32 r imm => exact readsBack_movImm32 (of_decide_eq_true h) imm
  | loadAbs r disp => exact (readsBack_abs (of_decide_eq_true h) disp).1
  | storeAbs disp r => exact (readsBack_abs (of_decide_eq_true h) disp).2
  | load r base =>
      simp only [encodable, Bool.and_eq_true, decide_eq_true_eq, bne_iff_ne] at h
      obtain ⟨⟨⟨hr, hb⟩, h4⟩, h5⟩ := h
      exact (readsBack_base hr hb h4 h5).1
  | store base r =>
      simp only [encodable, Bool.and_eq_true, decide_eq_true_eq, bne_iff_ne] at h
      obtain ⟨⟨⟨hr, hb⟩, h4⟩, h5⟩ := h
      exact (readsBack_base hr hb h4 h5).2
  | loadDisp r base disp =>
      simp only [encodable, Bool.and_eq_true, decide_eq_true_eq, bne_iff_ne] at h
      obtain ⟨⟨hr, hb⟩, h4⟩ := h
      exact (readsBack_baseDisp32 hr hb h4 disp).1
  | storeDisp base disp r =>
      simp only [encodable, Bool.and_eq_true, decide_eq_true_eq, bne_iff_ne] at h
      obtain ⟨⟨hr, hb⟩, h4⟩ := h
      exact (readsBack_baseDisp32 hr hb h4 disp).2
  | leaRsp r disp => exact readsBack_leaRsp (of_decide_eq_true h) disp
  | addImm r imm => exact (readsBack_imm8 (of_decide_eq_true h) imm).1
  | subImm r imm => exact (readsBack_imm8 (of_decide_eq_true h) imm).2
  | xor dst src =>
      simp only [encodable, Bool.and_eq_true, decide_eq_true_eq] at h
      exact (readsBack_regs h.1 h.2).1
  | cmp left right =>
      simp only [encodable, Bool.and_eq_true, decide_eq_true_eq] at h
      exact (readsBack_regs h.1 h.2).2
  | jcc cc rel => exact readsBack_jcc (of_decide_eq_true h) rel
  | jmp rel => exact (readsBack_rel32 rel).1
  | call rel => exact (readsBack_rel32 rel).2
  | callReg r => exact readsBack_callReg (of_decide_eq_true h)
  | push r => exact (readsBack_stack (of_decide_eq_true h)).1
  | pop r => exact (readsBack_stack (of_decide_eq_true h)).2
  | ret | syscall => exact fun _ => rfl
  | movsdLoad x disp | movsdStore disp x | sqrtsd x disp =>
      intro rest
      obtain ⟨rm, hrm, hm⟩ := readModRM_stackSlot (of_decide_eq_true h) disp rest
      rw [encode, chunks, encode_stackSlot]
      simp [read, readScalar, hm, hrm, sseAdd, sseMul, sseSub, sseDiv]
  | arithsd op dst src =>
      simp only [encodable, Bool.and_eq_true, Bool.or_eq_true, beq_iff_eq, decide_eq_true_eq,
        or_assoc] at h
      exact readsBack_arithsd h.1.1 h.1.2 h.2

end Insn

/-! ## Fields -/

inductive Field where
  | word32 (v : Int32)
  | word64 (v : UInt64)
deriving DecidableEq, Repr

def Field.bytes : Field → Bytes
  | .word32 v => Bytes.ofWord32 v.toUInt32
  | .word64 v => Bytes.ofWord64 v

namespace Insn

/-- The instruction with another value in its field, if it has one of that width. -/
def withField (f : Field) (i : Insn) : Insn :=
  match i, f with
  | .movImm64 r _, .word64 v => .movImm64 r v
  | .movImm32 r _, .word32 v => .movImm32 r v
  | .loadAbs r _, .word32 v => .loadAbs r v
  | .storeAbs _ r, .word32 v => .storeAbs v r
  | .loadDisp r b _, .word32 v => .loadDisp r b v
  | .storeDisp b _ r, .word32 v => .storeDisp b v r
  | .jcc cc _, .word32 v => .jcc cc v
  | .jmp _, .word32 v => .jmp v
  | .call _, .word32 v => .call v
  | i, _ => i

@[simp] theorem encodable_withField (f : Field) (i : Insn) :
    (i.withField f).encodable = i.encodable := by
  cases i <;> cases f <;> rfl

/-- The field is the last chunk, the only one of its kind, and stays so with another value. -/
theorem exists_field {i : Insn} {pos : Nat} (hp : i.fieldAt? = some pos) :
    ∃ lead old, i.chunks = lead ++ [.field old] ∧ (∀ c ∈ lead, c.isField = false) ∧
      ∀ f : Field, f.bytes.length = old.length →
        (i.withField f).chunks = lead ++ [.field f.bytes] := by
  have plain : ∀ bs : Bytes, ∀ c ∈ [Chunk.plain bs], c.isField = false := by
    simp [Chunk.isField]
  -- A field of the other width is not as long as the old one.
  have word32 {old : Int32} {P : Field → Prop} (h : ∀ v, P (.word32 v)) :
      ∀ f : Field, f.bytes.length = (Bytes.ofWord32 old.toUInt32).length → P f := by
    intro f hf
    cases f with
    | word32 v => exact h v
    | word64 v => simp [Field.bytes] at hf
  cases i with
  | movImm64 r imm =>
      refine ⟨_, _, rfl, plain _, fun f hf => ?_⟩
      cases f with
      | word32 v => simp [Field.bytes] at hf
      | word64 v => rfl
  | movImm32 r imm =>
      refine ⟨Chunk.extension r ++ [.plain [0xb8 ||| (r &&& 7)]],
        Bytes.ofWord32 imm.toUInt32, ?_, ?_, word32 fun v => ?_⟩
      · rw [List.append_assoc]
        rfl
      · unfold Chunk.extension
        split <;> simp [Chunk.isField]
      · rw [List.append_assoc]
        rfl
  | loadAbs r d => exact ⟨_, _, rfl, plain _, word32 fun _ => rfl⟩
  | storeAbs d r => exact ⟨_, _, rfl, plain _, word32 fun _ => rfl⟩
  | loadDisp r b d => exact ⟨_, _, rfl, plain _, word32 fun _ => rfl⟩
  | storeDisp b d r => exact ⟨_, _, rfl, plain _, word32 fun _ => rfl⟩
  | jcc cc rel => exact ⟨_, _, rfl, plain _, word32 fun _ => rfl⟩
  | jmp rel => exact ⟨_, _, rfl, plain _, word32 fun _ => rfl⟩
  | call rel => exact ⟨_, _, rfl, plain _, word32 fun _ => rfl⟩
  | push r | pop r | callReg r =>
      simp only [fieldAt?, chunks, Chunk.extension] at hp
      split at hp <;> simp [Chunk.isField] at hp
  | movsdLoad x d | movsdStore d x | sqrtsd x d =>
      simp only [fieldAt?, chunks, Chunk.stackSlot] at hp
      split at hp <;> simp [Chunk.isField] at hp
  | _ => simp [fieldAt?, chunks, Chunk.isField] at hp

theorem overwrite_tail {lead old new : Bytes} (h : old.length = new.length) :
    (lead ++ old).overwrite lead.length new = lead ++ new := by
  simpa using Bytes.overwrite_middle lead old [] new h

theorem fieldAt?_of_chunks {i : Insn} {lead : List Chunk} {field : Bytes}
    (hi : i.chunks = lead ++ [.field field]) (hlead : ∀ c ∈ lead, c.isField = false) :
    i.fieldAt? = some (lead.flatMap Chunk.bytes).length := by
  have hany : i.chunks.any Chunk.isField = true := by
    rw [hi, List.any_append]
    simp [Chunk.isField]
  have htake : i.chunks.takeWhile (fun c => !c.isField) = lead := by
    rw [hi, List.takeWhile_append_of_pos (by simpa using hlead)]
    simp [Chunk.isField]
  rw [fieldAt?, if_pos hany, htake]

theorem overwrite_field {i : Insn} {f : Field} {pos : Nat} (hp : i.fieldAt? = some pos)
    (hl : pos + f.bytes.length = i.encode.length) :
    i.encode.overwrite pos f.bytes = (i.withField f).encode := by
  obtain ⟨lead, old, hi, hlead, hwith⟩ := exists_field hp
  have hpos : pos = (lead.flatMap Chunk.bytes).length :=
    Option.some.inj (hp.symm.trans (fieldAt?_of_chunks hi hlead))
  have he : i.encode = lead.flatMap Chunk.bytes ++ old := by
    simp [encode, hi, Chunk.bytes]
  have ho : f.bytes.length = old.length := by
    rw [he, List.length_append] at hl
    omega
  rw [he, hpos, overwrite_tail ho.symm, encode, hwith f ho]
  simp [Chunk.bytes]

end Insn

end StackCode.X64
