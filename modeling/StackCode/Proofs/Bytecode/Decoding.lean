import StackCode.Bytecode.Scan
import StackCode.Proofs.Bytes

/-!
# Reading undoes writing

An instruction is read back from in front of any bytes, and bytes from which an
instruction is read begin with its encoding. The linear decoding of a program therefore
cuts it into encodings in the one possible way: the encodings of a list of instructions
decode to that list, each at the sum of the lengths before it, and a program that decodes
to its end is the encodings of what it decodes to. `Decodes` states the linear decoding
one read at a time.
-/
namespace StackCode.Bytecode

namespace Register

theorem mem_all (r : Register) : r ∈ all := by
  cases r <;> decide

theorem toByte_of_ofByte? {b : UInt8} {r : Register} (h : ofByte? b = some r) :
    b = r.toByte := by
  unfold ofByte? at h
  split at h <;> cases h <;> rfl

end Register

namespace Form

theorem code_of_ofCode? {c : Int} {f : Form} (h : ofCode? c = some f) : c = f.code := by
  have hf := List.find?_some h
  simpa using (beq_iff_eq.mp hf).symm

end Form

namespace Opcode

theorem mem_all (op : Opcode) : op ∈ all := List.mem_of_getElem? (ofByte?_toByte op)

theorem toByte_of_ofByte? {b : UInt8} {op : Opcode} (h : ofByte? b = some op) :
    op.toByte = b := by
  have listed : ∀ n, ∀ op, all[n]? = some op → op.toByte = UInt8.ofNat n := by
    intro n op hn
    have hlt : n < 19 := (List.getElem?_eq_some_iff.mp hn).choose
    have table : ∀ n < 19, (all[n]?).map toByte = some (UInt8.ofNat n) := by decide
    have := table n hlt
    rw [hn] at this
    simpa using this
  have := listed b.toNat op h
  rwa [UInt8.ofNat_toNat] at this

end Opcode

theorem Cell.length_encode (c : Cell) : c.encode.length + 1 = c.form.sourceLen := by
  cases c <;> rfl

theorem Source.length_encode (src : Source) : src.encode.length + 1 = src.form.sourceLen := by
  cases src with
  | mem c => exact c.length_encode
  | _ => rfl

theorem Dest.length_encode (dst : Dest) : dst.encode.length + 1 = dst.form.sourceLen := by
  cases dst with
  | mem c => exact c.length_encode
  | _ => rfl

namespace Instr

@[simp] theorem length_encode (i : Instr) : i.encode.length = i.len := by
  cases i with
  | push src => exact src.length_encode
  | pop dst => exact dst.length_encode
  | _ => rfl

theorem encode_branch (b : Branch) (t : Int32) :
    (Instr.branch b t).encode = (Opcode.branch b).toByte :: Bytes.ofWord32 t.toUInt32 := rfl

theorem len_pos (i : Instr) : 0 < i.len := by
  rw [← length_encode]
  exact Nat.succ_pos _

theorem readWord32_ofWord32 (op : Opcode) (form : Form) (left : Nat) (v : Int32)
    (rest : Bytes) :
    readWord32 op form left (Bytes.ofWord32 v.toUInt32 ++ rest) = .ok v := by
  simp [readWord32]

/-- A cell is written as a tag with its memory flag set and what the tag asks for. -/
theorem readCell_encode (op : Opcode) (c : Cell) (rest : Bytes) :
    ∃ m r i bs, c.encode ++ rest = m :: r :: i :: bs ∧
      ∃ reg imm, Tag.ofBytes? m r i = some ⟨true, reg, imm⟩ ∧
        ∀ left, readCell op reg imm left bs = some (.ok c) := by
  cases c with
  | abs d =>
      refine ⟨1, 0, 1, Bytes.ofWord32 d.toUInt32 ++ rest, rfl, none, true, rfl, ?_⟩
      intro left
      simp [readCell, readWord32_ofWord32, Except.map]
  | ptr r =>
      refine ⟨1, r.toByte, 0, rest, rfl, some r, false, ?_, fun _ => rfl⟩
      cases r <;> rfl
  | off r d =>
      refine ⟨1, r.toByte, 1, Bytes.ofWord32 d.toUInt32 ++ rest, rfl, some r, true, ?_, ?_⟩
      · cases r <;> rfl
      · intro left
        simp [readCell, readWord32_ofWord32, Except.map]

theorem readTagged_of_tag {α : Type} {op : Opcode} {left : Nat} {m r i : UInt8} {rest : Bytes}
    {t : Tag} {operand : Tag → Nat → Bytes → Option (Except ReadFault α)}
    {result : Except ReadFault α} (ht : Tag.ofBytes? m r i = some t)
    (ho : operand t left rest = some result) :
    readTagged op left (m :: r :: i :: rest) operand = result := by
  simp only [readTagged, ht, Option.bind_some, ho]

theorem readSource_encode (src : Source) (left : Nat) (rest : Bytes) :
    readTagged .push left (src.encode ++ rest) readSource = .ok src := by
  cases src with
  | imm bits =>
      have ht : Tag.ofBytes? 0 0 1 = some ⟨false, none, true⟩ := rfl
      exact readTagged_of_tag ht (by simp [readSource])
  | reg r =>
      have ht : Tag.ofBytes? 0 r.toByte 0 = some ⟨false, some r, false⟩ := by cases r <;> rfl
      exact readTagged_of_tag ht rfl
  | mem c =>
      obtain ⟨m, r, i, bs, hb, reg, imm, ht, hc⟩ := readCell_encode .push c rest
      rw [Source.encode, hb]
      exact readTagged_of_tag ht (by simp [readSource, hc, Except.map])

theorem readDest_encode (dst : Dest) (left : Nat) (rest : Bytes) :
    readTagged .pop left (dst.encode ++ rest) readDest = .ok dst := by
  cases dst with
  | discard =>
      have ht : Tag.ofBytes? 0 0 0 = some ⟨false, none, false⟩ := rfl
      exact readTagged_of_tag ht rfl
  | reg r =>
      have ht : Tag.ofBytes? 0 r.toByte 0 = some ⟨false, some r, false⟩ := by cases r <;> rfl
      exact readTagged_of_tag ht rfl
  | mem c =>
      obtain ⟨m, r, i, bs, hb, reg, imm, ht, hc⟩ := readCell_encode .pop c rest
      rw [Dest.encode, hb]
      exact readTagged_of_tag ht (by simp [readDest, hc, Except.map])

theorem read_encode (i : Instr) (rest : Bytes) : read (i.encode ++ rest) = .ok i := by
  cases i with
  | push src =>
      simp [encode, read, opcode, Opcode.ofByte?_toByte, readSource_encode, Except.map]
  | pop dst =>
      simp [encode, read, opcode, Opcode.ofByte?_toByte, readDest_encode, Except.map]
  | branch b t =>
      simp [encode, read, opcode, Opcode.ofByte?_toByte, readWord32_ofWord32, Except.map]
  | _ => simp [encode, read, opcode, Opcode.ofByte?_toByte]

theorem eq_append_of_readWord32 {op : Opcode} {form : Form} {left : Nat} {bs : Bytes}
    {v : Int32} (h : readWord32 op form left bs = .ok v) :
    bs = Bytes.ofWord32 v.toUInt32 ++ bs.drop 4 := by
  unfold readWord32 at h
  split at h
  next w hw =>
    cases h
    simpa using Bytes.eq_ofWord32_append hw
  next => cases h

/-- What is read behind a tag is written as that tag and the bytes it asks for. -/
theorem eq_append_of_readCell {op : Opcode} {reg : Option Register} {imm : Bool} {left : Nat}
    {bs : Bytes} {c : Cell} (h : readCell op reg imm left bs = some (.ok c)) :
    Tag.bytes ⟨true, reg, imm⟩ ++ bs = c.encode ++ bs.drop (c.form.sourceLen - 4) := by
  unfold readCell at h
  split at h
  next =>
    cases hw : readWord32 op .memImm left bs with
    | error f => simp [hw, Except.map] at h
    | ok v =>
        simp only [hw, Except.map, Option.some.injEq, Except.ok.injEq] at h
        subst c
        have := eq_append_of_readWord32 hw
        simpa [Tag.bytes, Register.byteOf, Cell.encode, Cell.form, Form.sourceLen] using this
  next r =>
    cases h
    simp [Tag.bytes, Register.byteOf, Cell.encode, Cell.form, Form.sourceLen]
  next r =>
    cases hw : readWord32 op .memRegImm left bs with
    | error f => simp [hw, Except.map] at h
    | ok v =>
        simp only [hw, Except.map, Option.some.injEq, Except.ok.injEq] at h
        subst c
        have := eq_append_of_readWord32 hw
        simpa [Tag.bytes, Register.byteOf, Cell.encode, Cell.form, Form.sourceLen] using this
  next => cases h

end Instr

namespace Tag

theorem bytes_of_ofBytes? {m r i : UInt8} {t : Tag} (h : ofBytes? m r i = some t) :
    t.bytes = [m, r, i] := by
  have flag : ∀ b : UInt8, ¬ 1 < b → (if (b == 1) = true then 1 else 0) = b := by
    intro b hb
    rcases Nat.lt_or_ge b.toNat 1 with h0 | h1
    · have : b = 0 := UInt8.toNat_inj.mp (by simp; omega)
      subst b
      rfl
    · have : b = 1 := UInt8.toNat_inj.mp (by simp [UInt8.lt_iff_toNat_lt] at hb ⊢; omega)
      subst b
      rfl
  have number : ∀ n < 5, Register.byteOf (Register.ofByte? (UInt8.ofNat n)) = UInt8.ofNat n := by
    decide
  unfold ofBytes? at h
  split at h
  next => cases h
  next hin =>
    have hin := not_or.mp hin
    have hmi := not_or.mp hin.2
    have hr : r.toNat < 5 := by
      have := hmi.1
      simp [UInt8.lt_iff_toNat_lt] at this
      omega
    have hreg := number r.toNat hr
    rw [UInt8.ofNat_toNat] at hreg
    cases h
    simp only [bytes, flag m hin.1, flag i hmi.2, hreg]

end Tag

namespace Instr

theorem exists_tag_of_readTagged {α : Type} {op : Opcode} {left : Nat} {bs : Bytes}
    {operand : Tag → Nat → Bytes → Option (Except ReadFault α)} {a : α}
    (h : readTagged op left bs operand = .ok a) :
    ∃ t rest, bs = t.bytes ++ rest ∧ operand t left rest = some (.ok a) := by
  unfold readTagged at h
  split at h
  next m r i rest =>
    cases ht : Tag.ofBytes? m r i with
    | none => simp [ht] at h
    | some t =>
        cases ho : operand t left rest with
        | none => simp [ht, ho] at h
        | some result =>
            simp only [ht, Option.bind_some, ho] at h
            refine ⟨t, rest, ?_, by rw [ho, h]⟩
            simp [Tag.bytes_of_ofBytes? ht]
  next => cases h

theorem eq_append_of_readSource {t : Tag} {left : Nat} {bs : Bytes} {src : Source}
    (h : readSource t left bs = some (.ok src)) :
    t.bytes ++ bs = (Instr.push src).encode.tail ++ bs.drop ((Instr.push src).len - 4) := by
  unfold readSource at h
  split at h
  next reg imm =>
    cases hc : readCell .push reg imm left bs with
    | none => simp [hc] at h
    | some result =>
        cases result with
        | error f => simp [hc, Except.map] at h
        | ok c =>
            simp only [hc, Except.map, Option.map_some, Option.some.injEq, Except.ok.injEq] at h
            subst src
            exact eq_append_of_readCell hc
  next =>
    cases hw : bs.word64? with
    | none => simp [hw] at h
    | some w =>
        simp only [hw, Option.some.injEq, Except.ok.injEq] at h
        subst src
        have := Bytes.eq_ofWord64_append hw
        simpa [Tag.bytes, Register.byteOf, encode, Source.encode, len, form, Source.form,
          Form.sourceLen] using this
  next r =>
    cases h
    simp [Tag.bytes, Register.byteOf, encode, Source.encode, len, form, Source.form, Form.sourceLen]
  next => cases h

theorem eq_append_of_readDest {t : Tag} {left : Nat} {bs : Bytes} {dst : Dest}
    (h : readDest t left bs = some (.ok dst)) :
    t.bytes ++ bs = (Instr.pop dst).encode.tail ++ bs.drop ((Instr.pop dst).len - 4) := by
  unfold readDest at h
  split at h
  next reg imm =>
    cases hc : readCell .pop reg imm left bs with
    | none => simp [hc] at h
    | some result =>
        cases result with
        | error f => simp [hc, Except.map] at h
        | ok c =>
            simp only [hc, Except.map, Option.map_some, Option.some.injEq, Except.ok.injEq] at h
            subst dst
            exact eq_append_of_readCell hc
  next =>
    cases h
    simp [Tag.bytes, Register.byteOf, encode, Dest.encode, len, form, Dest.form, Form.sourceLen]
  next r =>
    cases h
    simp [Tag.bytes, Register.byteOf, encode, Dest.encode, len, form, Dest.form, Form.sourceLen]
  next => cases h

theorem exists_append_of_read {bs : Bytes} {i : Instr} (h : read bs = .ok i) :
    ∃ rest, bs = i.encode ++ rest := by
  cases bs with
  | nil => simp [read] at h
  | cons b bs =>
      cases ho : Opcode.ofByte? b with
      | none => simp [read, ho] at h
      | some op =>
          have hb := Opcode.toByte_of_ofByte? ho
          subst b
          simp only [read, ho] at h
          cases op with
          | push =>
              cases hr : readTagged .push (bs.length + 1) bs readSource with
              | error f => simp [hr, Except.map] at h
              | ok src =>
                  simp only [hr, Except.map, Except.ok.injEq] at h
                  subst i
                  obtain ⟨t, rest, rfl, hs⟩ := exists_tag_of_readTagged hr
                  exact ⟨_, congrArg (Opcode.push.toByte :: ·) (eq_append_of_readSource hs)⟩
          | pop =>
              cases hr : readTagged .pop (bs.length + 1) bs readDest with
              | error f => simp [hr, Except.map] at h
              | ok dst =>
                  simp only [hr, Except.map, Except.ok.injEq] at h
                  subst i
                  obtain ⟨t, rest, rfl, hs⟩ := exists_tag_of_readTagged hr
                  exact ⟨_, congrArg (Opcode.pop.toByte :: ·) (eq_append_of_readDest hs)⟩
          | branch j =>
              cases hr : readWord32 (.branch j) .target (bs.length + 1) bs with
              | error f => simp [hr, Except.map] at h
              | ok t =>
                  simp only [hr, Except.map, Except.ok.injEq] at h
                  subst i
                  exact ⟨_, congrArg ((Opcode.branch j).toByte :: ·)
                    (eq_append_of_readWord32 hr)⟩
          | _ =>
              cases h
              exact ⟨bs, rfl⟩

end Instr

/-! ## The linear decoding -/

/-- Instructions in a row, the first of them at `ip`. -/
def Located.place : Nat → List Instr → List Located
  | _, [] => []
  | ip, i :: is => ⟨ip, i⟩ :: place (ip + i.len) is

namespace Scan

theorem ofBytes_skip (ip skip : Nat) (bs : Bytes) :
    ofBytes ip skip bs = ofBytes (ip + skip) 0 (bs.drop skip) := by
  induction bs generalizing ip skip with
  | nil => simp [ofBytes]
  | cons b bs ih =>
      cases skip with
      | zero => simp
      | succ skip =>
          rw [ofBytes, ih, List.drop_succ_cons]
          congr 1
          omega

theorem ofBytes_of_read {ip : Nat} {bs : Bytes} {i : Instr} (h : Instr.read bs = .ok i) :
    ofBytes ip 0 bs = (ofBytes (ip + i.len) 0 (bs.drop i.len)).cons ⟨ip, i⟩ := by
  cases bs with
  | nil => simp [Instr.read] at h
  | cons b bs =>
      have hp := i.len_pos
      have hd : (b :: bs).drop i.len = bs.drop (i.len - 1) := by
        rw [← Nat.sub_add_cancel hp, List.drop_succ_cons, Nat.sub_add_cancel hp]
      rw [ofBytes, h, hd]
      simp only
      rw [ofBytes_skip]
      congr 2
      omega

/-- The encodings of instructions decode to the instructions. -/
theorem ofBytes_encodeAll (ip : Nat) (is : List Instr) :
    ofBytes ip 0 (is.flatMap Instr.encode) = ⟨Located.place ip is, none⟩ := by
  induction is generalizing ip with
  | nil => simp [ofBytes, Located.place]
  | cons i is ih =>
      have hr := i.read_encode (is.flatMap Instr.encode)
      rw [List.flatMap_cons, ofBytes_of_read hr, ← i.length_encode, List.drop_left, ih]
      simp [cons, Located.place]

/-- A program that decodes to its end is the encodings of what it decodes to. -/
theorem exists_encodeAll {ip : Nat} {bs : Bytes} (h : (ofBytes ip 0 bs).fault = none) :
    ∃ is : List Instr, bs = is.flatMap Instr.encode := by
  -- one read takes off as many bytes as its instruction has, so the induction is on the length
  induction hn : bs.length using Nat.strongRecOn generalizing ip bs with
  | ind n ih =>
      cases hr : Instr.read bs with
      | error f =>
          cases bs with
          | nil => exact ⟨[], rfl⟩
          | cons b bs => simp [ofBytes, hr] at h
      | ok i =>
          obtain ⟨rest, rfl⟩ := Instr.exists_append_of_read hr
          have hlt : rest.length < n := by
            have := i.len_pos
            simp only [List.length_append, Instr.length_encode] at hn
            omega
          rw [ofBytes_of_read hr, ← i.length_encode, List.drop_left] at h
          obtain ⟨is, rfl⟩ := ih rest.length hlt h rfl
          exact ⟨i :: is, rfl⟩

end Scan

/-- The linear decoding from an offset on, one read at a time: each instruction is read
where the one before it ends, and the last one ends with the program. -/
inductive Decodes (code : Bytes) : Nat → List Located → Prop
  | done : Decodes code code.length []
  | next {ip : Nat} {i : Instr} {ls : List Located} :
      Instr.decode (some code) ip = .ok i → Decodes code (ip + i.len) ls →
      Decodes code ip (⟨ip, i⟩ :: ls)

theorem Instr.decode_encode (before : Bytes) (i : Instr) (rest : Bytes) :
    Instr.decode (some (before ++ (i.encode ++ rest))) before.length = .ok i := by
  have hp := i.len_pos
  have hlt : (before.length : Int) < (before ++ (i.encode ++ rest)).length := by
    simp only [List.length_append, Instr.length_encode]
    omega
  have hr := i.read_encode rest
  have hat : readAt (before ++ (i.encode ++ rest)) before.length = .ok i := by
    rw [readAt, if_pos ⟨by omega, hlt⟩, Int.toNat_natCast, List.drop_left, hr]
  rw [decode, hat]
  rfl

theorem Decodes.of_encodeAll (before : Bytes) (is : List Instr) :
    Decodes (before ++ is.flatMap Instr.encode) before.length
      (Located.place before.length is) := by
  induction is generalizing before with
  | nil =>
      have hd : Decodes before before.length [] := .done
      simpa [Located.place] using hd
  | cons i is ih =>
      have hd := i.decode_encode before (is.flatMap Instr.encode)
      have hi := ih (before ++ i.encode)
      rw [List.append_assoc, List.length_append, Instr.length_encode] at hi
      exact .next hd hi

end StackCode.Bytecode
