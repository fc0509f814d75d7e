import Mathlib.InformationTheory.Coding.UniquelyDecodable
import StackCode.Proofs.Bytecode.DraftDecoding

/-!
# The grammar of instructions

`Encoding` says byte by byte which strings are one instruction, with no mention of the
reader: an opcode that stands alone, a jump with four bytes, or a stack operation with one
of its fourteen tags and as many bytes as the tag asks for. The reader accepts exactly what
starts with such a string, the string is found again by asking a draft for the instruction
that was read, and nothing else of the program matters. No encoding starts another one, so
a program falls into instructions in one way at most.
-/
namespace StackCode.Bytecode

namespace Grammar

/-- Opcode bytes that stand alone. -/
def plainOps : List UInt8 := [0x00, 0x03, 0x04, 0x05, 0x06, 0x07, 0x08, 0x09, 0x12]

def jumpOps : List UInt8 := [0x0a, 0x0b, 0x0c, 0x0d, 0x0e, 0x0f, 0x10, 0x11]

/-- The tags of registers and cells, each with the number of bytes behind it. -/
def sharedTags : List (Bytes × Nat) :=
  ([1, 0, 1], 4) ::
    [1, 2, 3, 4].flatMap fun r => [([0, r, 0], 0), ([1, r, 0], 0), ([1, r, 1], 4)]

def pushTags : List (Bytes × Nat) := ([0, 0, 1], 8) :: sharedTags

def popTags : List (Bytes × Nat) := ([0, 0, 0], 0) :: sharedTags

/-- The byte strings that are one instruction. -/
inductive Encoding : Bytes → Prop
  | plain {op : UInt8} : op ∈ plainOps → Encoding [op]
  | jump {op : UInt8} {target : Bytes} :
      op ∈ jumpOps → target.length = 4 → Encoding (op :: target)
  | push {tag operand : Bytes} :
      (tag, operand.length) ∈ pushTags → Encoding (0x01 :: (tag ++ operand))
  | pop {tag operand : Bytes} :
      (tag, operand.length) ∈ popTags → Encoding (0x02 :: (tag ++ operand))

end Grammar

open Grammar

/-! ## Encodings are what instructions are written as -/

theorem Register.mem_numbers (r : Register) : r.toByte ∈ [1, 2, 3, 4] := by
  cases r <;> decide

theorem Register.exists_of_mem_numbers {b : UInt8} (h : b ∈ [1, 2, 3, 4]) :
    ∃ r : Register, b = r.toByte := by
  simp only [List.mem_cons, List.not_mem_nil, or_false] at h
  rcases h with rfl | rfl | rfl | rfl
  · exact ⟨.ax, rfl⟩
  · exact ⟨.bx, rfl⟩
  · exact ⟨.cx, rfl⟩
  · exact ⟨.dx, rfl⟩

namespace Grammar

theorem mem_sharedTags {tag : Bytes} {n : Nat} :
    (tag, n) ∈ sharedTags ↔ tag = [1, 0, 1] ∧ n = 4 ∨ ∃ r : Register,
      tag = [0, r.toByte, 0] ∧ n = 0 ∨ tag = [1, r.toByte, 0] ∧ n = 0 ∨
        tag = [1, r.toByte, 1] ∧ n = 4 := by
  simp only [sharedTags, List.mem_cons, Prod.mk.injEq, List.mem_flatMap, List.not_mem_nil, or_false]
  refine or_congr Iff.rfl ⟨?_, ?_⟩
  · rintro ⟨b, hb, h⟩
    obtain ⟨r, rfl⟩ := Register.exists_of_mem_numbers (by simpa using hb)
    exact ⟨r, h⟩
  · rintro ⟨r, h⟩
    exact ⟨r.toByte, by simpa using r.mem_numbers, h⟩

theorem exists_tag_of_cell (c : Cell) :
    ∃ tag operand, c.encode = tag ++ operand ∧ (tag, operand.length) ∈ sharedTags := by
  cases c with
  | abs d => exact ⟨[1, 0, 1], Bytes.ofWord32 d.toUInt32, rfl, mem_sharedTags.mpr (.inl ⟨rfl, rfl⟩)⟩
  | ptr r =>
      refine ⟨[1, r.toByte, 0], [], rfl, mem_sharedTags.mpr (.inr ⟨r, .inr (.inl ⟨rfl, rfl⟩)⟩)⟩
  | off r d =>
      refine ⟨[1, r.toByte, 1], Bytes.ofWord32 d.toUInt32, rfl, ?_⟩
      exact mem_sharedTags.mpr (.inr ⟨r, .inr (.inr ⟨rfl, rfl⟩)⟩)

theorem mem_sharedTags_of_reg (r : Register) : ([0, r.toByte, 0], 0) ∈ sharedTags :=
  mem_sharedTags.mpr (.inr ⟨r, .inl ⟨rfl, rfl⟩⟩)

/-- A shared tag with its bytes is a register or a cell. -/
theorem exists_of_sharedTag {tag operand : Bytes} (h : (tag, operand.length) ∈ sharedTags) :
    (∃ r : Register, tag ++ operand = [0, r.toByte, 0]) ∨
      ∃ c : Cell, tag ++ operand = c.encode := by
  rcases mem_sharedTags.mp h with ⟨rfl, hn⟩ | ⟨r, ⟨rfl, hn⟩ | ⟨rfl, hn⟩ | ⟨rfl, hn⟩⟩
  · rw [← Bytes.ofWord32_toNat hn]
    exact .inr ⟨.abs (UInt32.ofNat (Bytes.toNat operand)).toInt32, rfl⟩
  · obtain rfl := List.length_eq_zero_iff.mp hn
    exact .inl ⟨r, rfl⟩
  · obtain rfl := List.length_eq_zero_iff.mp hn
    exact .inr ⟨.ptr r, rfl⟩
  · rw [← Bytes.ofWord32_toNat hn]
    exact .inr ⟨.off r (UInt32.ofNat (Bytes.toNat operand)).toInt32, rfl⟩

namespace Encoding

theorem of_instr (i : Instr) : Encoding i.encode := by
  cases i with
  | push src =>
      cases src with
      | imm bits => exact @push [0, 0, 1] _ (.head _)
      | reg r => exact @push [0, r.toByte, 0] [] (.tail _ (mem_sharedTags_of_reg r))
      | mem c =>
          obtain ⟨tag, operand, hc, hmem⟩ := exists_tag_of_cell c
          have he := Encoding.push (.tail _ hmem)
          rwa [← hc] at he
  | pop dst =>
      cases dst with
      | discard => exact @pop [0, 0, 0] [] (.head _)
      | reg r => exact @pop [0, r.toByte, 0] [] (.tail _ (mem_sharedTags_of_reg r))
      | mem c =>
          obtain ⟨tag, operand, hc, hmem⟩ := exists_tag_of_cell c
          have he := Encoding.pop (.tail _ hmem)
          rwa [← hc] at he
  | branch b t =>
      have hop : (Opcode.branch b).toByte ∈ jumpOps := by
        cases b with
        | cond c => cases c <;> decide
        | _ => decide
      exact .jump hop (Bytes.length_ofWord32 _)
  | arith op =>
      refine .plain ?_
      cases op <;> decide
  | _ => exact .plain (by decide)

theorem exists_instr {e : Bytes} (h : Encoding e) : ∃ i : Instr, i.encode = e := by
  cases h with
  | @plain op hop =>
      have table : plainOps.all fun op => (Opcode.ofByte? op).any (·.operand = .none) := by decide
      obtain ⟨o, ho, hnone⟩ := (Option.any_eq_true _ _).mp (List.all_eq_true.mp table op hop)
      rw [← Opcode.toByte_of_ofByte? ho]
      cases o with
      | push | pop | branch b => cases hnone
      | hlt => exact ⟨.hlt, rfl⟩
      | arith a => exact ⟨.arith a, rfl⟩
      | sqrt => exact ⟨.sqrt, rfl⟩
      | input => exact ⟨.input, rfl⟩
      | output => exact ⟨.output, rfl⟩
      | ret => exact ⟨.ret, rfl⟩
  | @jump op target hop hlen =>
      have table : jumpOps.all fun op => (Opcode.branch? op).isSome := by decide
      obtain ⟨b, hb⟩ := Option.isSome_iff_exists.mp (List.all_eq_true.mp table op hop)
      refine ⟨.branch b (UInt32.ofNat (Bytes.toNat target)).toInt32, ?_⟩
      rw [Instr.encode_branch, Opcode.toByte_of_branch? hb]
      exact congrArg (op :: ·) (Bytes.ofWord32_toNat hlen)
  | @push tag operand hmem =>
      rcases List.mem_cons.mp hmem with heq | hmem
      · obtain ⟨rfl, hlen⟩ := Prod.mk.inj heq
        rw [← Bytes.ofWord64_toNat hlen]
        exact ⟨.push (.imm (UInt64.ofNat (Bytes.toNat operand))), rfl⟩
      · rcases exists_of_sharedTag hmem with ⟨r, hr⟩ | ⟨c, hc⟩
        · exact ⟨.push (.reg r), congrArg (_ :: ·) hr.symm⟩
        · exact ⟨.push (.mem c), congrArg (_ :: ·) hc.symm⟩
  | @pop tag operand hmem =>
      rcases List.mem_cons.mp hmem with heq | hmem
      · obtain ⟨rfl, hlen⟩ := Prod.mk.inj heq
        obtain rfl := List.length_eq_zero_iff.mp hlen
        exact ⟨.pop .discard, rfl⟩
      · rcases exists_of_sharedTag hmem with ⟨r, hr⟩ | ⟨c, hc⟩
        · exact ⟨.pop (.reg r), congrArg (_ :: ·) hr.symm⟩
        · exact ⟨.pop (.mem c), congrArg (_ :: ·) hc.symm⟩

/-- No encoding starts another one. -/
theorem eq_of_isPrefix {a b : Bytes} (ha : Encoding a) (hb : Encoding b) (h : a <+: b) : a = b := by
  obtain ⟨i, rfl⟩ := ha.exists_instr
  obtain ⟨j, rfl⟩ := hb.exists_instr
  obtain ⟨rest, hrest⟩ := h
  have hi := i.read_encode rest
  have hj := j.read_encode []
  rw [hrest] at hi
  rw [List.append_nil, hi] at hj
  cases hj
  rfl

theorem ne_nil {e : Bytes} (h : Encoding e) : e ≠ [] := by
  cases h <;> exact List.cons_ne_nil _ _

theorem eq_of_append {a b s t : Bytes} (ha : Encoding a) (hb : Encoding b)
    (h : a ++ s = b ++ t) : a = b := by
  have hpa : a <+: a ++ s := List.prefix_append a s
  have hpb : b <+: a ++ s := h ▸ List.prefix_append b t
  rcases List.prefix_or_prefix_of_prefix hpa hpb with hab | hba
  · exact eq_of_isPrefix ha hb hab
  · exact (eq_of_isPrefix hb ha hba).symm

theorem uniquelyDecodable : InformationTheory.UniquelyDecodable {e | Encoding e} := by
  intro us
  induction us with
  | nil =>
      intro vs _ hv h
      cases vs with
      | nil => rfl
      | cons v vs => exact absurd (List.append_eq_nil_iff.mp h.symm).1 (ne_nil (hv v (.head _)))
  | cons u us ih =>
      intro vs hu hv h
      cases vs with
      | nil => exact absurd (List.append_eq_nil_iff.mp h).1 (ne_nil (hu u (.head _)))
      | cons v vs =>
          have hfirst : u = v := eq_of_append (hu u (.head _)) (hv v (.head _)) h
          subst v
          have hrest : us.flatten = vs.flatten := List.append_cancel_left h
          rw [ih vs (fun w hw => hu w (.tail _ hw)) (fun w hw => hv w (.tail _ hw)) hrest]

end Encoding

end Grammar

/-! ## Asking a draft for an instruction -/

namespace Instr

def operand (i : Instr) : Operand := ⟨i.form.code, Register.byteOf i.reg?, i.imm, i.disp⟩

def call (i : Instr) : Call :=
  match i with
  | .push _ => .push i.operand
  | .pop _ => .pop i.operand
  | .branch b t => .jumpTo (Opcode.branch b).toByte t
  | .hlt | .arith _ | .sqrt | .input | .output | .ret => .emit i.opcode.toByte

end Instr

namespace Draft

theorem attempt_call (d : Draft) (i : Instr) : d.attempt i.call = .ok (d.append i.encode) := by
  cases i with
  | push src =>
      cases src with
      | imm bits => rfl
      | reg r => cases r <;> rfl
      | mem c =>
          cases c with
          | abs a => rfl
          | ptr r => cases r <;> rfl
          | off r a => cases r <;> rfl
  | pop dst =>
      cases dst with
      | discard => rfl
      | reg r => cases r <;> rfl
      | mem c =>
          cases c with
          | abs a => rfl
          | ptr r => cases r <;> rfl
          | off r a => cases r <;> rfl
  | arith op => cases op <;> rfl
  | branch b t =>
      cases b with
      | cond c => cases c <;> rfl
      | _ => rfl
  | _ => rfl

theorem finish_call (i : Instr) : (empty.apply i.call).finish = .ok i.encode := by
  rw [apply, attempt_call]
  rfl

end Draft

/-! ## Reading by the grammar -/

namespace Instr

theorem decode_eq_ok_iff {code : Bytes} {ip : Int} {i : Instr} :
    decode (some code) ip = .ok i ↔
      0 ≤ ip ∧ ip < code.length ∧ i.encode <+: code.drop ip.toNat := by
  constructor
  · intro h
    by_cases hin : 0 ≤ ip ∧ ip < code.length
    · rw [decode, readAt, if_pos hin] at h
      cases hr : read (code.drop ip.toNat) with
      | error f => rw [hr] at h; cases h
      | ok j =>
          rw [hr] at h
          cases h
          obtain ⟨rest, hrest⟩ := exists_append_of_read hr
          exact ⟨hin.1, hin.2, rest, hrest.symm⟩
    · rw [decode, readAt, if_neg hin] at h
      cases h
  · rintro ⟨h0, hlt, rest, hrest⟩
    rw [decode, readAt, if_pos ⟨h0, hlt⟩, ← hrest, read_encode]
    rfl

theorem take_of_decode {code : Bytes} {ip : Int} {i : Instr}
    (h : decode (some code) ip = .ok i) : (code.drop ip.toNat).take i.len = i.encode := by
  obtain ⟨-, -, rest, hrest⟩ := decode_eq_ok_iff.mp h
  rw [← hrest, ← i.length_encode, List.take_left]

end Instr

/-- Reading follows the grammar. It succeeds if and only if the offset lies in the program and
an encoding starts there. What was read ends in the program; the bytes it was read from are an
encoding, are what a draft gives for the instruction, and decide alone what is read at their
offset. No encoding starts another one, and so a string falls into encodings in one way at
most. -/
theorem decode_iff_encoding (code : Bytes) (ip : Int) :
    ((∃ i, Instr.decode (some code) ip = .ok i) ↔
      0 ≤ ip ∧ ip < code.length ∧ ∃ e, Encoding e ∧ e <+: code.drop ip.toNat) ∧
    (∀ i, Instr.decode (some code) ip = .ok i →
      let taken := (code.drop ip.toNat).take i.len
      (ip < ip + i.len ∧ ip + i.len ≤ code.length) ∧ Encoding taken ∧
        (Draft.empty.apply i.call).finish = .ok taken ∧
        ∀ other : Bytes, (other.drop ip.toNat).take i.len = taken →
          Instr.decode (some other) ip = .ok i) ∧
    (∀ a b, Encoding a → Encoding b → a <+: b → a = b) ∧
    InformationTheory.UniquelyDecodable {e | Encoding e} := by
  refine ⟨⟨?_, ?_⟩, ?_, fun a b => Encoding.eq_of_isPrefix, Encoding.uniquelyDecodable⟩
  · rintro ⟨i, h⟩
    obtain ⟨h0, hlt, hpre⟩ := Instr.decode_eq_ok_iff.mp h
    exact ⟨h0, hlt, i.encode, .of_instr i, hpre⟩
  · rintro ⟨h0, hlt, e, he, hpre⟩
    obtain ⟨i, rfl⟩ := he.exists_instr
    exact ⟨i, Instr.decode_eq_ok_iff.mpr ⟨h0, hlt, hpre⟩⟩
  · intro i h
    obtain ⟨h0, hlt, hpre⟩ := Instr.decode_eq_ok_iff.mp h
    have hpos := i.len_pos
    have hlen : i.len ≤ code.length - ip.toNat := by
      have := hpre.length_le
      rwa [Instr.length_encode, List.length_drop] at this
    simp only [Instr.take_of_decode h]
    refine ⟨by omega, .of_instr i, Draft.finish_call i, fun other hother => ?_⟩
    have hpre' : i.encode <+: other.drop ip.toNat := hother ▸ List.take_prefix _ _
    have hlen' : i.len ≤ other.length - ip.toNat := by
      have := hpre'.length_le
      rwa [Instr.length_encode, List.length_drop] at this
    exact Instr.decode_eq_ok_iff.mpr ⟨h0, by omega, hpre'⟩

/-- A push from memory with an offset, behind a return. -/
theorem decode_iff_encoding_push :
    let code : Bytes := [0x12, 0x01, 1, 2, 1, 8, 0, 0, 0]
    let i : Instr := .push (.mem (.off .bx 8))
    Instr.decode (some code) 1 = .ok i ∧
      (Draft.empty.apply i.call).finish = .ok [0x01, 1, 2, 1, 8, 0, 0, 0] := by
  intro code i
  have hd : Instr.decode (some code) 1 = .ok i := rfl
  obtain ⟨-, hread, -⟩ := decode_iff_encoding code 1
  exact ⟨hd, (hread i hd).2.2.1⟩

end StackCode.Bytecode
