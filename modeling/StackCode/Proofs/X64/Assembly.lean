import StackCode.Proofs.X64.Execution
import StackCode.X64.Buffer

/-!
# Sequences of instructions in a buffer

Instructions that are written one after the other stand in the buffer as the row of their
encodings. Decoding such a row gives the instructions back, whatever follows it, and each
call tells where the operand of its instruction is stored.
-/
namespace StackCode.X64

namespace Insn

/-! ## Decoding a row of instructions -/

inductive Decodes : Bytes → List Insn → Prop
  | nil : Decodes [] []
  | cons {bs rest : Bytes} {i : Insn} {is : List Insn} :
      read bs = some (i, rest) → Decodes rest is → Decodes bs (i :: is)

theorem decodes_nil_iff {js : List Insn} : Decodes [] js ↔ js = [] := by
  constructor
  · intro h
    cases h with
    | nil => rfl
    | cons hread _ => cases hread
  · rintro rfl
    exact .nil

theorem decodes_of_read {bs rest : Bytes} {i : Insn} (hread : read bs = some (i, rest))
    {js : List Insn} : Decodes bs js ↔ ∃ ks, Decodes rest ks ∧ js = i :: ks := by
  constructor
  · intro h
    cases h with
    | nil => cases hread
    | cons hfirst htail =>
        rw [hread] at hfirst
        cases hfirst
        exact ⟨_, htail, rfl⟩
  · rintro ⟨ks, hks, rfl⟩
    exact .cons hread hks

theorem decodes_encodeAll_append {is : List Insn} (he : ∀ i ∈ is, i.encodable) (rest : Bytes)
    {js : List Insn} :
    Decodes (encodeAll is ++ rest) js ↔ ∃ ks, Decodes rest ks ∧ js = is ++ ks := by
  induction is generalizing js with
  | nil => simp [encodeAll]
  | cons i is ih =>
      have hread := read_encode (he i (.head _)) (encodeAll is ++ rest)
      rw [encodeAll_cons, List.append_assoc, decodes_of_read hread]
      constructor
      · rintro ⟨ks, hks, rfl⟩
        obtain ⟨more, hmore, rfl⟩ := (ih fun j hj => he j (.tail _ hj)).mp hks
        exact ⟨more, hmore, rfl⟩
      · rintro ⟨more, hmore, rfl⟩
        exact ⟨is ++ more, (ih fun j hj => he j (.tail _ hj)).mpr ⟨more, hmore, rfl⟩, rfl⟩

theorem decodes_encodeAll {is : List Insn} (he : ∀ i ∈ is, i.encodable) {js : List Insn} :
    Decodes (encodeAll is) js ↔ js = is := by
  have h : Decodes (encodeAll is ++ []) js ↔ _ := decodes_encodeAll_append he []
  simpa [decodes_nil_iff] using h

/-! ## Operands -/

/-- The immediate, displacement or distance of an instruction that has one of four or eight
bytes. -/
def operand? : Insn → Option Field
  | .movImm64 _ v => some (.word64 v)
  | .movImm32 _ v | .loadAbs _ v | .storeAbs v _ => some (.word32 v)
  | .loadDisp _ _ v | .storeDisp _ v _ => some (.word32 v)
  | .jcc _ v | .jmp v | .call v => some (.word32 v)
  | _ => none

/-- An instruction with an operand ends with it, and what is in front is plain. -/
theorem chunks_of_operand {i : Insn} {f : Field} (h : i.operand? = some f) :
    ∃ lead, i.chunks = lead ++ [.field f.bytes] ∧ ∀ c ∈ lead, c.isField = false := by
  have plain : ∀ bs : Bytes, ∀ c ∈ [Chunk.plain bs], c.isField = false := by
    simp [Chunk.isField]
  cases i with
  | movImm64 r v => cases h; exact ⟨_, rfl, plain _⟩
  | movImm32 r v =>
      cases h
      refine ⟨Chunk.extension r ++ [.plain [0xb8 ||| (r &&& 7)]], ?_, ?_⟩
      · rw [List.append_assoc]
        rfl
      · unfold Chunk.extension
        split <;> simp [Chunk.isField]
  | loadAbs r v => cases h; exact ⟨_, rfl, plain _⟩
  | storeAbs v r => cases h; exact ⟨_, rfl, plain _⟩
  | loadDisp r b v => cases h; exact ⟨_, rfl, plain _⟩
  | storeDisp b v r => cases h; exact ⟨_, rfl, plain _⟩
  | jcc cc v => cases h; exact ⟨_, rfl, plain _⟩
  | jmp v => cases h; exact ⟨_, rfl, plain _⟩
  | call v => cases h; exact ⟨_, rfl, plain _⟩
  | _ => cases h

theorem fieldAt?_of_operand {i : Insn} {f : Field} (h : i.operand? = some f) :
    ∃ lead, i.encode = lead ++ f.bytes ∧ i.fieldAt? = some lead.length := by
  obtain ⟨lead, hchunks, hplain⟩ := chunks_of_operand h
  refine ⟨lead.flatMap Chunk.bytes, by simp [encode, hchunks, Chunk.bytes], ?_⟩
  exact fieldAt?_of_chunks hchunks hplain

theorem fieldAt?_eq_none {i : Insn} (h : i.operand? = none) : i.fieldAt? = none := by
  cases i with
  | push r | pop r | callReg r =>
      simp only [fieldAt?, chunks, Chunk.extension]
      split <;> simp [Chunk.isField]
  | movsdLoad x d | movsdStore d x | sqrtsd x d =>
      simp only [fieldAt?, chunks, Chunk.stackSlot]
      split <;> simp [Chunk.isField]
  | movImm64 | movImm32 | loadAbs | storeAbs | loadDisp | storeDisp | jcc | jmp | call => cases h
  | _ => simp [fieldAt?, chunks, Chunk.isField]

end Insn

namespace Buffer

/-! ## Writing -/

/-- A chunk for which there is room takes the place of as many bytes. -/
theorem put_fits {lead rest : Bytes} {c : Chunk} (h : c.bytes.length ≤ rest.length) :
    put ⟨lead ++ rest, lead.length⟩ c =
      some ⟨lead ++ (c.bytes ++ rest.drop c.bytes.length), lead.length + c.bytes.length⟩ := by
  have hneed : need c ≤ c.bytes.length := by
    cases c with
    | plain bs => exact Nat.zero_le _
    | field bs => exact Nat.le_refl _
  have hroom : lead.length + need c ≤ (lead ++ rest).length := by
    rw [List.length_append]
    omega
  have hbytes := Bytes.overwrite_append_right lead rest 0 c.bytes
  rw [Nat.add_zero, Bytes.overwrite_front h] at hbytes
  rw [put, if_pos hroom, hbytes]

theorem putAll_fits {lead rest : Bytes} {cs : List Chunk}
    (h : (cs.flatMap Chunk.bytes).length ≤ rest.length) :
    putAll ⟨lead ++ rest, lead.length⟩ cs =
      (⟨lead ++ (cs.flatMap Chunk.bytes ++ rest.drop (cs.flatMap Chunk.bytes).length),
        lead.length + (cs.flatMap Chunk.bytes).length⟩, true) := by
  induction cs generalizing lead rest with
  | nil => rfl
  | cons c cs ih =>
      rw [List.flatMap_cons, List.length_append] at h
      -- the chunk that was written moves to the bytes in front
      have hnext := @ih (lead ++ c.bytes) (rest.drop c.bytes.length)
        (by rw [List.length_drop]; omega)
      rw [List.length_append, List.append_assoc, List.append_assoc, List.drop_drop] at hnext
      rw [putAll, put_fits (by omega), List.flatMap_cons, List.length_append, List.append_assoc,
        ← Nat.add_assoc]
      exact hnext

/-- Instructions are written one after the other; each call answers where the operand of its
instruction is, if it has one. -/
inductive Calls : Buffer → List Insn → List (Option Nat) → Buffer → Prop
  | done (b : Buffer) : Calls b [] [] b
  | call {b b' b'' : Buffer} {i : Insn} {is : List Insn} {field : Option Nat}
      {fields : List (Option Nat)} :
      b.perform (.insn i) = ⟨b', field, true⟩ → Calls b' is fields b'' →
      Calls b (i :: is) (field :: fields) b''

def answers (offset : Nat) : List Insn → List (Option Nat)
  | [] => []
  | i :: is => i.fieldAt?.map (offset + ·) :: answers (offset + i.encode.length) is

theorem getElem?_answers (offset : Nat) (before : List Insn) (i : Insn) (after : List Insn) :
    (answers offset (before ++ i :: after))[before.length]? =
      some (i.fieldAt?.map (offset + (Insn.encodeAll before).length + ·)) := by
  induction before generalizing offset with
  | nil => rfl
  | cons k before ih =>
      rw [List.cons_append, answers, List.length_cons, List.getElem?_cons_succ, ih,
        Insn.encodeAll_cons, List.length_append, ← Nat.add_assoc]

theorem perform_insn {lead rest : Bytes} {i : Insn} (h : i.encode.length ≤ rest.length) :
    perform ⟨lead ++ rest, lead.length⟩ (.insn i) =
      ⟨⟨lead ++ (i.encode ++ rest.drop i.encode.length), lead.length + i.encode.length⟩,
        i.fieldAt?.map (lead.length + ·), true⟩ := by
  simp only [perform, write, putAll_fits h, if_pos]
  rfl

theorem calls_fit {lead rest : Bytes} {is : List Insn}
    (h : (Insn.encodeAll is).length ≤ rest.length) :
    Calls ⟨lead ++ rest, lead.length⟩ is (answers lead.length is)
      ⟨lead ++ (Insn.encodeAll is ++ rest.drop (Insn.encodeAll is).length),
        lead.length + (Insn.encodeAll is).length⟩ := by
  induction is generalizing lead rest with
  | nil => exact .done _
  | cons i is ih =>
      rw [Insn.encodeAll_cons, List.length_append] at h
      have hnext := @ih (lead ++ i.encode) (rest.drop i.encode.length)
        (by rw [List.length_drop]; omega)
      rw [List.length_append, List.append_assoc, List.append_assoc, List.drop_drop] at hnext
      rw [answers, Insn.encodeAll_cons, List.length_append, List.append_assoc, ← Nat.add_assoc]
      exact .call (perform_insn (by omega)) hnext

end Buffer

/-- Where the operand of the instruction behind `before` is stored: at the end of the
instruction's own bytes. -/
def StoredAt (bytes : Bytes) (before : List Insn) (i : Insn) (f : Field) (pos : Nat) : Prop :=
  pos + f.bytes.length = (Insn.encodeAll (before ++ [i])).length ∧ f.bytes <+: bytes.drop pos

theorem storedAt_operand {i : Insn} {f : Field} (hf : i.operand? = some f)
    (before after : List Insn) (tail : Bytes) :
    ∃ pos, i.fieldAt? = some pos ∧
      StoredAt (Insn.encodeAll (before ++ i :: after) ++ tail) before i f
        ((Insn.encodeAll before).length + pos) := by
  obtain ⟨lead, hencode, hpos⟩ := Insn.fieldAt?_of_operand hf
  refine ⟨lead.length, hpos, ?_, ?_⟩
  · simp [Insn.encodeAll, hencode, Nat.add_assoc]
  · have hsplit : Insn.encodeAll (before ++ i :: after) ++ tail =
        (Insn.encodeAll before ++ lead) ++ (f.bytes ++ (Insn.encodeAll after ++ tail)) := by
      simp [Insn.encodeAll, hencode]
    rw [hsplit, ← List.length_append, List.drop_left]
    exact List.prefix_append _ _

/-- Any sequence of instructions is written into a buffer that is large enough. The position is
then the length of all their encodings. What was written decodes to these instructions and to no
others, also in front of any bytes. Every call answered where the operand of its instruction is
stored, and the instructions without an operand answered nothing. -/
theorem assembled_calls_decode {is : List Insn} {buf : Bytes} (he : ∀ i ∈ is, i.encodable)
    (hroom : (Insn.encodeAll is).length ≤ buf.length) :
    ∃ fields b, Buffer.Calls ⟨buf, 0⟩ is fields b ∧
      b.offset = (is.map fun i => i.encode.length).sum ∧
      (∃ written, b.written? = some written ∧ written.length = b.offset ∧
        (∀ js, Insn.Decodes written js ↔ js = is) ∧
        ∀ rest js, Insn.Decodes (written ++ rest) js ↔
          ∃ ks, Insn.Decodes rest ks ∧ js = is ++ ks) ∧
      ∀ before i after, is = before ++ i :: after →
        ∃ field, fields[before.length]? = some field ∧
          Option.Rel (StoredAt b.bytes before i) i.operand? field := by
  have hcalls : Buffer.Calls ⟨[] ++ buf, ([] : Bytes).length⟩ is _ _ := Buffer.calls_fit hroom
  simp only [List.nil_append, List.length_nil, Nat.zero_add] at hcalls
  refine ⟨_, _, hcalls, List.length_flatMap, ⟨Insn.encodeAll is, ?_, rfl, ?_, ?_⟩, ?_⟩
  · have hin : (Insn.encodeAll is).length ≤
        (Insn.encodeAll is ++ buf.drop (Insn.encodeAll is).length).length := by simp
    rw [Buffer.written?, if_pos hin, List.take_left]
  · intro js
    exact Insn.decodes_encodeAll he
  · intro rest js
    exact Insn.decodes_encodeAll_append he rest
  · rintro before i after rfl
    refine ⟨_, Buffer.getElem?_answers 0 before i after, ?_⟩
    cases hf : i.operand? with
    | none =>
        rw [Insn.fieldAt?_eq_none hf]
        exact .none
    | some f =>
        obtain ⟨pos, hpos, hstored⟩ := storedAt_operand hf before after _
        rw [hpos, Nat.zero_add]
        exact .some hstored

/-- Registers with and without an extension bit, a displacement of zero that is left out, and
operands whose bytes look like other instructions. -/
def mixedCalls : List Insn :=
  [.movImm64 .r11 0xc30f05e9e8f240ff, .callReg .r11, .loadDisp 15 13 (-1), .movsdLoad 7 0,
    .storeAbs 0x48b8c3f2 .rdi, .movsdStore (-8) 7, .jcc 15 0x0f050f05, .pop 12, .ret]

theorem assembled_calls_decode_mixed :
    (∀ i ∈ mixedCalls, i.encodable) ∧
      (Insn.encodeAll mixedCalls).length ≤ (List.replicate 64 (0xcc : UInt8)).length ∧
      ∃ fields b, Buffer.Calls ⟨List.replicate 64 0xcc, 0⟩ mixedCalls fields b ∧ b.offset = 48 ∧
        ∃ written, b.written? = some written ∧
          ∀ js, Insn.Decodes written js ↔ js = mixedCalls := by
  have he : ∀ i ∈ mixedCalls, i.encodable := List.all_eq_true.mp (by decide)
  have hroom : (Insn.encodeAll mixedCalls).length ≤ (List.replicate 64 (0xcc : UInt8)).length := by
    decide
  obtain ⟨fields, b, hcalls, hoffset, ⟨written, hwritten, -, hdecodes, -⟩, -⟩ :=
    assembled_calls_decode he hroom
  exact ⟨he, hroom, fields, b, hcalls, hoffset, written, hwritten, hdecodes⟩

end StackCode.X64
