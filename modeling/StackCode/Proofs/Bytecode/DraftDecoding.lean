import Mathlib.Data.List.Forall2
import Mathlib.Data.List.Induction
import StackCode.Bytecode.Draft
import StackCode.Proofs.Bytecode.Decoding
import StackCode.Proofs.Histories

/-!
# Finished drafts decode to what was asked for

A draft that was put together without raw bytes and that finishes decodes, front to back
and exactly to its end, to one instruction per call that appends one. Each stands at the
offset that the draft had at its call and has the parts that the call names; a jump to a
label has the offset at which the label was bound as its target, whether it was bound
before the jump or after it.

The invariant of a draft is kept as a list of entries: the code is their encodings, with
zero where a label is still to be filled in, and the pending fields are those of the
entries that wait for a label. Finishing turns each entry into an instruction in place.
-/
namespace StackCode.Bytecode

/-- Does an instruction have the parts that an operand names? Parts for which the form
has no use are absent, whatever the operand says. -/
structure Operand.Describes (o : Operand) (i : Instr) : Prop where
  form : i.form.code = o.form
  reg : Register.byteOf i.reg? = if i.form.hasRegister then o.reg else 0
  imm : i.imm = if i.form = .imm then o.imm else 0
  disp : i.disp = if i.form = .memImm ∨ i.form = .memRegImm then o.disp else 0

/-- An instruction of a draft. A jump to a label has no target yet. -/
inductive Entry where
  | fixed (i : Instr)
  | jump (b : Branch) (label : String)
deriving DecidableEq, Repr

namespace Entry

def instr : Entry → Instr
  | .fixed i => i
  | .jump b _ => .branch b 0

def settle? (labels : List (String × Nat)) : Entry → Option Instr
  | .fixed i => some i
  | .jump b l => (labels.lookup l).map fun t => .branch b (UInt32.ofNat t).toInt32

/-- The target fields that wait for a label, of entries from offset `ip` on. -/
def waiting : Nat → List Entry → List (Nat × String)
  | _, [] => []
  | ip, .fixed i :: es => waiting (ip + i.len) es
  | ip, .jump b l :: es => (ip + 1, l) :: waiting (ip + (Instr.branch b 0).len) es

def code (es : List Entry) : Bytes := es.flatMap fun e => e.instr.encode

@[simp] theorem code_nil : code [] = [] := rfl

@[simp] theorem code_cons (e : Entry) (es : List Entry) :
    code (e :: es) = e.instr.encode ++ code es := rfl

end Entry

namespace Call

/-- Does the call append this entry, if it is honoured? -/
def Appends : Call → Entry → Prop
  | .emit op, e => ∃ i, e = .fixed i ∧ i.opcode.toByte = op ∧ i.form = .none
  | .push o, e => ∃ i, e = .fixed i ∧ i.opcode = .push ∧ o.Describes i
  | .pop o, e => ∃ i, e = .fixed i ∧ i.opcode = .pop ∧ o.Describes i
  | .jump op l, e => ∃ b, (Opcode.branch b).toByte = op ∧ e = .jump b l
  | .jumpTo op t, e => ∃ b, (Opcode.branch b).toByte = op ∧ e = .fixed (.branch b t)
  | .label _, _ => False
  | .raw _, _ => False

def isRaw : Call → Bool
  | .raw _ => true
  | _ => false

def isLabel : Call → Bool
  | .label _ => true
  | _ => false

end Call

namespace Opcode

theorem toByte_of_branch? {b : UInt8} {j : Branch} (h : branch? b = some j) :
    (Opcode.branch j).toByte = b := by
  unfold branch? at h
  split at h
  next j' hb =>
    cases h
    exact toByte_of_ofByte? hb
  next => cases h

end Opcode

namespace Draft

def ofCalls (calls : List Call) : Draft := calls.foldl apply empty

def enter (d : Draft) (e : Entry) : Draft :=
  { d with
    code := d.code ++ e.instr.encode
    pending := d.pending ++ Entry.waiting d.offset [e] }

theorem emit_ok {d d' : Draft} {op : UInt8} (h : d.emit op = .ok d') :
    ∃ e, Call.Appends (.emit op) e ∧ d' = d.enter e := by
  unfold emit at h
  split at h
  next o ho =>
    have hb := Opcode.toByte_of_ofByte? ho
    split at h
    next hn =>
      have single : ∃ i : Instr, i.opcode = o ∧ i.form = .none ∧ i.encode = [o.toByte] := by
        cases o with
        | push => cases hn
        | pop => cases hn
        | branch b => cases hn
        | hlt => exact ⟨.hlt, rfl, rfl, rfl⟩
        | arith a => exact ⟨.arith a, rfl, rfl, rfl⟩
        | sqrt => exact ⟨.sqrt, rfl, rfl, rfl⟩
        | input => exact ⟨.input, rfl, rfl, rfl⟩
        | output => exact ⟨.output, rfl, rfl, rfl⟩
        | ret => exact ⟨.ret, rfl, rfl, rfl⟩
      obtain ⟨i, hi, hf, he⟩ := single
      cases h
      refine ⟨.fixed i, ⟨i, rfl, by rw [hi, hb], hf⟩, ?_⟩
      simp [enter, append, Entry.instr, Entry.waiting, he, hb]
    next => cases h
  next => cases h

theorem exists_register {o : Operand} {f : Form} {tag : List UInt8}
    (hf : Form.ofCode? o.form = some f) (hr : f.hasRegister = true)
    (htag : encodeTag o.form o.reg = (tag, none)) : ∃ r : Register, o.reg = r.toByte := by
  cases ho : Register.ofByte? o.reg with
  | none => cases f <;> simp [encodeTag, hf, ho] at htag <;> cases hr
  | some r => exact ⟨r, Register.toByte_of_ofByte? ho⟩

theorem exists_cell {o : Operand} {f : Form} {tag : List UInt8}
    (hf : Form.ofCode? o.form = some f) (hmem : f = .memImm ∨ f = .memReg ∨ f = .memRegImm)
    (htag : encodeTag o.form o.reg = (tag, none)) :
    ∃ c : Cell, c.encode = tag ++ o.payload ∧ o.Describes (.push (.mem c)) ∧
      o.Describes (.pop (.mem c)) := by
  have hc := Form.code_of_ofCode? hf
  rcases hmem with rfl | rfl | rfl
  · simp only [encodeTag, hf, Prod.mk.injEq, and_true] at htag
    refine ⟨.abs o.disp, ?_, ⟨hc.symm, rfl, rfl, rfl⟩, ⟨hc.symm, rfl, rfl, rfl⟩⟩
    simp only [← htag, Operand.payload, hf]
    rfl
  · obtain ⟨r, hr⟩ := exists_register hf rfl htag
    simp [encodeTag, hf, hr, Register.ofByte?_toByte] at htag
    refine ⟨.ptr r, ?_, ⟨hc.symm, hr.symm, rfl, rfl⟩, ⟨hc.symm, hr.symm, rfl, rfl⟩⟩
    simp only [← htag, Operand.payload, hf]
    rfl
  · obtain ⟨r, hr⟩ := exists_register hf rfl htag
    simp [encodeTag, hf, hr, Register.ofByte?_toByte] at htag
    refine ⟨.off r o.disp, ?_, ⟨hc.symm, hr.symm, rfl, rfl⟩, ⟨hc.symm, hr.symm, rfl, rfl⟩⟩
    simp only [← htag, Operand.payload, hf]
    rfl

/-- An operand that has a tag and that the operation accepts describes an instruction,
written as the operation, the tag and the payload. -/
theorem exists_described {op : Opcode} {o : Operand} {tag : List UInt8}
    (hop : op = .push ∨ op = .pop) (hacc : Opcode.accepts op.toByte o.form = true)
    (htag : encodeTag o.form o.reg = (tag, none)) :
    ∃ i : Instr, i.opcode = op ∧ o.Describes i ∧
      i.encode = op.toByte :: tag ++ o.payload := by
  cases hf : Form.ofCode? o.form with
  | none => simp [encodeTag, hf] at htag
  | some f =>
      have hc := Form.code_of_ofCode? hf
      cases f with
      | none | target | tagged => simp [encodeTag, hf] at htag
      | empty =>
          rcases hop with rfl | rfl
          · rw [hc] at hacc
            exact absurd hacc (by decide)
          · refine ⟨.pop .discard, rfl, ⟨hc.symm, rfl, rfl, rfl⟩, ?_⟩
            simp only [encodeTag, hf, Prod.mk.injEq, and_true] at htag
            simp only [← htag, Operand.payload, hf]
            rfl
      | imm =>
          rcases hop with rfl | rfl
          · refine ⟨.push (.imm o.imm), rfl, ⟨hc.symm, rfl, rfl, rfl⟩, ?_⟩
            simp only [encodeTag, hf, Prod.mk.injEq, and_true] at htag
            simp only [← htag, Operand.payload, hf]
            rfl
          · rw [hc] at hacc
            exact absurd hacc (by decide)
      | reg =>
          obtain ⟨r, hr⟩ := exists_register hf rfl htag
          simp [encodeTag, hf, hr, Register.ofByte?_toByte] at htag
          rcases hop with rfl | rfl
          · refine ⟨.push (.reg r), rfl, ⟨hc.symm, hr.symm, rfl, rfl⟩, ?_⟩
            simp only [← htag, Operand.payload, hf]
            rfl
          · refine ⟨.pop (.reg r), rfl, ⟨hc.symm, hr.symm, rfl, rfl⟩, ?_⟩
            simp only [← htag, Operand.payload, hf]
            rfl
      | memImm | memReg | memRegImm =>
          obtain ⟨c, hcell, hpush, hpop⟩ := exists_cell hf (by simp) htag
          rcases hop with rfl | rfl
          · exact ⟨.push (.mem c), rfl, hpush, congrArg (_ :: ·) hcell⟩
          · exact ⟨.pop (.mem c), rfl, hpop, congrArg (_ :: ·) hcell⟩

theorem stackOp_ok {d d' : Draft} {op : Opcode} {o : Operand} (hop : op = .push ∨ op = .pop)
    (h : d.stackOp op o = .ok d') :
    ∃ i : Instr, i.opcode = op ∧ o.Describes i ∧ d' = d.enter (.fixed i) := by
  unfold stackOp at h
  split at h
  next hacc =>
    split at h
    next => cases h
    next tag htag =>
      obtain ⟨i, hi, hd, he⟩ := exists_described hop hacc htag
      cases h
      refine ⟨i, hi, hd, ?_⟩
      simp [enter, append, Entry.instr, Entry.waiting, he]
  next => cases h

/-- An honoured call other than raw bytes binds a new label or appends one entry. -/
theorem attempt_ok {d d' : Draft} {c : Call} (hraw : c.isRaw = false)
    (h : d.attempt c = .ok d') :
    (∃ n, c = .label n ∧ d.labels.lookup n = none ∧
      d' = { d with labels := (n, d.offset) :: d.labels }) ∨
    (c.isLabel = false ∧ ∃ e, c.Appends e ∧ d' = d.enter e) := by
  cases c with
  | label n =>
      left
      simp only [attempt, bind] at h
      split at h
      next => cases h
      next hn =>
        cases h
        exact ⟨n, rfl, Option.not_isSome_iff_eq_none.mp hn, rfl⟩
  | emit op => exact .inr ⟨rfl, emit_ok h⟩
  | push o =>
      obtain ⟨i, hi, hd, rfl⟩ := stackOp_ok (.inl rfl) h
      exact .inr ⟨rfl, .fixed i, ⟨i, rfl, hi, hd⟩, rfl⟩
  | pop o =>
      obtain ⟨i, hi, hd, rfl⟩ := stackOp_ok (.inr rfl) h
      exact .inr ⟨rfl, .fixed i, ⟨i, rfl, hi, hd⟩, rfl⟩
  | jump op l =>
      right
      simp only [attempt, jump] at h
      split at h
      next hj =>
        obtain ⟨b, hb⟩ := Option.isSome_iff_exists.mp hj
        have ho := Opcode.toByte_of_branch? hb
        cases h
        refine ⟨rfl, .jump b l, ⟨b, ho, rfl⟩, ?_⟩
        simp [enter, append, Entry.instr, Entry.waiting, Instr.encode, Instr.opcode, ho]
        rfl
      next => cases h
  | jumpTo op t =>
      right
      simp only [attempt, jumpTo] at h
      split at h
      next hj =>
        obtain ⟨b, hb⟩ := Option.isSome_iff_exists.mp hj
        have ho := Opcode.toByte_of_branch? hb
        cases h
        refine ⟨rfl, .fixed (.branch b t), ⟨b, ho, rfl⟩, ?_⟩
        simp [enter, append, Entry.instr, Entry.waiting, Instr.encode, Instr.opcode, ho]
      next => cases h
  | raw bs => cases hraw

theorem attempt_refusal {d d' : Draft} {c : Call} (hraw : c.isRaw = false)
    (h : d.attempt c = .ok d') : d'.refusal = d.refusal := by
  rcases attempt_ok hraw h with ⟨n, -, -, rfl⟩ | ⟨-, e, -, rfl⟩ <;> rfl

/-- A draft without a refusal has honoured the last call, and had none before it. -/
theorem apply_honoured {d : Draft} {c : Call} (hraw : c.isRaw = false)
    (h : (d.apply c).refusal = none) :
    d.attempt c = .ok (d.apply c) ∧ d.refusal = none := by
  unfold apply at h ⊢
  cases ha : d.attempt c with
  | ok d' =>
      rw [ha] at h
      exact ⟨rfl, (attempt_refusal hraw ha).symm.trans h⟩
  | error r =>
      rw [ha] at h
      simp [refuse] at h

theorem refusal_of_foldl {d : Draft} {calls : List Call} (hraw : ∀ c ∈ calls, c.isRaw = false)
    (h : (calls.foldl apply d).refusal = none) : d.refusal = none := by
  induction calls generalizing d with
  | nil => exact h
  | cons c calls ih =>
      have hd := ih (fun c hc => hraw c (by simp [hc])) h
      exact (apply_honoured (hraw c (by simp)) hd).2

/-- The calls that append an instruction, each with the offset at which it was made. -/
def emissions (d : Draft) : List Call → List (Nat × Call)
  | [] => []
  | c :: calls =>
      if c.isLabel then emissions (d.apply c) calls
      else (d.offset, c) :: emissions (d.apply c) calls

/-- Entries in a row with their offsets, the first of them at `ip`. -/
def placed : Nat → List Entry → List (Nat × Entry)
  | _, [] => []
  | ip, e :: es => (ip, e) :: placed (ip + e.instr.len) es

/-- The invariant of a run of calls: what they append is a list of entries, one per
emission and at its offset. -/
theorem exists_entries {d : Draft} {calls : List Call}
    (hraw : ∀ c ∈ calls, c.isRaw = false) (h : (calls.foldl apply d).refusal = none) :
    ∃ es : List Entry,
      (calls.foldl apply d).code = d.code ++ Entry.code es ∧
      (calls.foldl apply d).pending = d.pending ++ Entry.waiting d.offset es ∧
      List.Forall₂ (fun p q => p.1 = q.1 ∧ p.2.Appends q.2) (emissions d calls)
        (placed d.offset es) := by
  induction calls generalizing d with
  | nil => exact ⟨[], by simp, by simp [Entry.waiting], .nil⟩
  | cons c calls ih =>
      have hrest : ∀ c ∈ calls, c.isRaw = false := fun c hc => hraw c (by simp [hc])
      have hc := hraw c (by simp)
      obtain ⟨es, hcode, hpend, hes⟩ := ih hrest h
      -- no call after the first was refused, so neither was the first
      obtain ⟨ha, -⟩ := apply_honoured hc (refusal_of_foldl hrest h)
      rcases attempt_ok hc ha with ⟨n, rfl, -, hd⟩ | ⟨hl, e, he, hd⟩
      · refine ⟨es, ?_, ?_, ?_⟩
        · rw [List.foldl_cons, hcode, hd]
        · rw [List.foldl_cons, hpend, hd]
          rfl
        · rw [emissions, if_pos (show (Call.label n).isLabel = true from rfl)]
          rw [hd] at hes ⊢
          exact hes
      · have hoff : (d.apply c).offset = d.offset + e.instr.len := by
          rw [hd]
          simp [offset, enter]
        refine ⟨e :: es, ?_, ?_, ?_⟩
        · rw [List.foldl_cons, hcode, hd]
          simp [enter]
        · rw [List.foldl_cons, hpend, hoff, hd]
          cases e <;> simp [enter, Entry.waiting, Entry.instr]
        · rw [emissions, if_neg (by simp [hl])]
          rw [hoff] at hes
          exact .cons ⟨rfl, he⟩ hes

/-- Filling in the fields that wait turns entries into instructions, in place. -/
theorem resolve_waiting {labels : List (String × Nat)} {before result : Bytes}
    {es : List Entry}
    (h : resolve labels (Entry.waiting before.length es) (before ++ Entry.code es) =
      .ok result) :
    ∃ is, List.Forall₂ (fun e i => e.settle? labels = some i) es is ∧
      result = before ++ is.flatMap Instr.encode := by
  induction es generalizing before with
  | nil =>
      simp only [Entry.waiting, resolve, Entry.code_nil, List.append_nil, Except.ok.injEq] at h
      exact ⟨[], .nil, by simp [h]⟩
  | cons e es ih =>
      cases e with
      | fixed i =>
          have hs : before ++ Entry.code (.fixed i :: es) =
              (before ++ i.encode) ++ Entry.code es := by
            simp [Entry.instr]
          rw [hs, Entry.waiting, ← i.length_encode, ← List.length_append] at h
          obtain ⟨is, his, rfl⟩ := ih h
          exact ⟨i :: is, .cons rfl his, by simp⟩
      | jump b l =>
          cases hl : labels.lookup l with
          | none => simp [Entry.waiting, resolve, hl] at h
          | some t =>
              -- the field behind the opcode holds zero until now; the rest of the code is not
              -- touched, which lets the finished instruction join what is in front
              let i : Instr := .branch b (UInt32.ofNat t).toInt32
              have hw : (before ++ Entry.code (.jump b l :: es)).overwrite (before.length + 1)
                  (Bytes.ofWord32 (UInt32.ofNat t)) = (before ++ i.encode) ++ Entry.code es := by
                have hm := Bytes.overwrite_middle (before ++ [(Opcode.branch b).toByte])
                  (Bytes.ofWord32 (0 : Int32).toUInt32) (Entry.code es)
                  (Bytes.ofWord32 (UInt32.ofNat t)) (by simp)
                simpa [Entry.instr, Instr.encode_branch, i] using hm
              have hlen : (Instr.branch b 0).len = i.encode.length := by
                rw [i.length_encode]
                rfl
              simp only [Entry.waiting, resolve, hl] at h
              rw [hw, hlen, ← List.length_append] at h
              obtain ⟨is, his, rfl⟩ := ih h
              exact ⟨i :: is, .cons (by simp [Entry.settle?, hl, i]) his, by simp⟩

theorem length_resolve {labels : List (String × Nat)} {ps : List (Nat × String)}
    {code result : Bytes} (h : resolve labels ps code = .ok result) :
    result.length = code.length := by
  induction ps generalizing code with
  | nil =>
      cases h
      rfl
  | cons p ps ih =>
      simp only [resolve] at h
      split at h
      next t ht => simpa using ih h
      next => cases h

theorem ofCalls_append (calls : List Call) (c : Call) :
    ofCalls (calls ++ [c]) = (ofCalls calls).apply c := by
  simp [ofCalls]

theorem offset_le {before after : List Call}
    (hraw : ∀ c ∈ before ++ after, c.isRaw = false)
    (h : (ofCalls (before ++ after)).refusal = none) :
    (ofCalls before).offset ≤ (ofCalls (before ++ after)).offset := by
  have hs : ofCalls (before ++ after) = after.foldl apply (ofCalls before) := by
    simp [ofCalls]
  rw [hs] at h ⊢
  obtain ⟨es, hcode, -, -⟩ := exists_entries (fun c hc => hraw c (by simp [hc])) h
  simp [offset, hcode]

theorem lookup_apply {d : Draft} {c : Call} (hraw : c.isRaw = false)
    (ha : d.attempt c = .ok (d.apply c)) (l : String) (t : Nat) :
    (d.apply c).labels.lookup l = some t ↔
      d.labels.lookup l = some t ∨ c = .label l ∧ d.offset = t := by
  rcases attempt_ok hraw ha with ⟨n, rfl, hnone, hn⟩ | ⟨hlabel, e, -, hn⟩
  · rw [hn]
    by_cases hln : l = n
    · subst hln
      simp [hnone]
    · have hne : Call.label n ≠ .label l := fun h => hln (Call.label.inj h).symm
      simp [List.lookup_cons, beq_eq_false_iff_ne.mpr hln, hne]
  · have hne : c ≠ .label l := by
      rintro rfl
      cases hlabel
    rw [hn]
    simp [hne, enter]

/-- A label is bound exactly where the one call that binds it was made. -/
theorem lookup_label {calls : List Call} (hraw : ∀ c ∈ calls, c.isRaw = false)
    (h : (ofCalls calls).refusal = none) (l : String) (t : Nat) :
    (ofCalls calls).labels.lookup l = some t ↔
      ∃ before after, calls = before ++ .label l :: after ∧ t = (ofCalls before).offset := by
  induction calls using List.reverseRecOn generalizing t with
  | nil => simp [ofCalls, empty]
  | append_singleton calls c ih =>
      rw [ofCalls_append] at h
      have hc := hraw c (by simp)
      obtain ⟨ha, hd⟩ := apply_honoured hc h
      rw [ofCalls_append, lookup_apply hc ha, ih (fun c hc => hraw c (by simp [hc])) hd]
      constructor
      · rintro (⟨before, after, rfl, ht⟩ | ⟨rfl, rfl⟩)
        · exact ⟨before, after ++ [c], by simp, ht⟩
        · exact ⟨calls, [], rfl, rfl⟩
      · rintro ⟨before, after, hsplit, rfl⟩
        rcases Histories.append_cons_eq_concat.mp hsplit.symm with
          ⟨rfl, rfl, -⟩ | ⟨rest, -, hfront⟩
        · exact .inr ⟨rfl, rfl⟩
        · exact .inl ⟨before, rest, hfront.symm, rfl⟩

end Draft

/-- The label is bound by a call among `calls`, and at offset `t` by every such call. -/
def BoundAt (calls : List Call) (l : String) (t : Int) : Prop :=
  (∃ before after, calls = before ++ .label l :: after) ∧
    ∀ before after, calls = before ++ .label l :: after → t = (Draft.ofCalls before).offset

/-- An operand of a form that has no parts. -/
def Operand.bare (f : Form) : Operand := ⟨f.code, 0, 0, 0⟩

/-- Is an instruction the one that a call among `calls` asks for? -/
def Call.Denotes (calls : List Call) : Call → Instr → Prop
  | .emit op, i =>
      i.opcode.toByte = op ∧ (Operand.bare .none).Describes i ∧ i.target? = none
  | .push o, i => i.opcode = .push ∧ o.Describes i ∧ i.target? = none
  | .pop o, i => i.opcode = .pop ∧ o.Describes i ∧ i.target? = none
  | .jump op l, i =>
      i.opcode.toByte = op ∧ (Operand.bare .target).Describes i ∧
        ∃ t, i.target? = some t ∧ BoundAt calls l t.toInt
  | .jumpTo op t, i =>
      i.opcode.toByte = op ∧ (Operand.bare .target).Describes i ∧ i.target? = some t
  | .label _, _ => False
  | .raw _, _ => False

theorem Instr.bare_describes {i : Instr} (h : i.form = .none) :
    (Operand.bare .none).Describes i ∧ i.target? = none := by
  cases i with
  | push src => cases src with
    | mem c => cases c <;> cases h
    | _ => cases h
  | pop dst => cases dst with
    | mem c => cases c <;> cases h
    | _ => cases h
  | branch b t => cases h
  | _ => exact ⟨⟨rfl, rfl, rfl, rfl⟩, rfl⟩

theorem Instr.target?_eq_none {i : Instr} (h : i.opcode = .push ∨ i.opcode = .pop) :
    i.target? = none := by
  cases i with
  | branch b t => rcases h with h | h <;> cases h
  | _ => rfl

theorem Call.denotes_of_settle {calls : List Call} {labels : List (String × Nat)} {c : Call}
    {e : Entry} {i : Instr}
    (hbound : ∀ l t, labels.lookup l = some t →
      BoundAt calls l (UInt32.ofNat t).toInt32.toInt)
    (hc : c.Appends e) (he : e.settle? labels = some i) : c.Denotes calls i := by
  cases c with
  | label n => exact hc
  | raw bs => exact hc
  | emit op =>
      obtain ⟨j, rfl, ho, hf⟩ := hc
      cases he
      exact ⟨ho, Instr.bare_describes hf⟩
  | push o =>
      obtain ⟨j, rfl, ho, hd⟩ := hc
      cases he
      exact ⟨ho, hd, Instr.target?_eq_none (.inl ho)⟩
  | pop o =>
      obtain ⟨j, rfl, ho, hd⟩ := hc
      cases he
      exact ⟨ho, hd, Instr.target?_eq_none (.inr ho)⟩
  | jump op l =>
      obtain ⟨b, ho, rfl⟩ := hc
      obtain ⟨t, ht, rfl⟩ := Option.map_eq_some_iff.mp he
      exact ⟨ho, ⟨rfl, rfl, rfl, rfl⟩, _, rfl, hbound l t ht⟩
  | jumpTo op t =>
      obtain ⟨b, ho, rfl⟩ := hc
      cases he
      exact ⟨ho, ⟨rfl, rfl, rfl, rfl⟩, rfl⟩

namespace Draft

/-- Calls, entries and instructions correspond one to one, in order and in place. -/
theorem denotes_placed {calls : List Call} {labels : List (String × Nat)}
    {emitted : List (Nat × Call)} {es : List Entry} {is : List Instr} {ip : Nat}
    (hbound : ∀ l t, labels.lookup l = some t →
      BoundAt calls l (UInt32.ofNat t).toInt32.toInt)
    (hes : List.Forall₂ (fun p q => p.1 = q.1 ∧ p.2.Appends q.2) emitted (placed ip es))
    (his : List.Forall₂ (fun e i => e.settle? labels = some i) es is) :
    List.Forall₂ (fun p l => l.ip = p.1 ∧ p.2.Denotes calls l.instr) emitted
      (Located.place ip is) := by
  induction his generalizing emitted ip with
  | nil =>
      cases hes
      exact .nil
  | @cons e i es is he _ ih =>
      cases hes with
      | cons hp hrest =>
          have hlen : e.instr.len = i.len := by
            cases e with
            | fixed j =>
                cases he
                rfl
            | jump b l =>
                obtain ⟨t, -, rfl⟩ := Option.map_eq_some_iff.mp he
                rfl
          rw [hlen] at hrest
          exact .cons ⟨hp.1.symm, Call.denotes_of_settle hbound hp.2 he⟩ (ih hrest)

theorem boundAt_of_lookup {calls : List Call} (hraw : ∀ c ∈ calls, c.isRaw = false)
    (h : (ofCalls calls).refusal = none) (hlen : (ofCalls calls).offset < 2 ^ 31)
    {l : String} {t : Nat} (ht : (ofCalls calls).labels.lookup l = some t) :
    BoundAt calls l (UInt32.ofNat t).toInt32.toInt := by
  obtain ⟨before, after, hsplit, rfl⟩ := (lookup_label hraw h l t).mp ht
  refine ⟨⟨before, after, hsplit⟩, ?_⟩
  intro before' after' hsplit'
  have ht' := (lookup_label hraw h l _).mpr ⟨before', after', hsplit', rfl⟩
  have hsame : (ofCalls before).offset = (ofCalls before').offset := by
    rw [ht'] at ht
    exact (Option.some.inj ht).symm
  have hle : (ofCalls before').offset ≤ (ofCalls calls).offset := by
    rw [hsplit'] at hraw h ⊢
    exact offset_le hraw h
  rw [hsame]
  exact Int32.toInt_ofNat_of_lt (by omega)

/-- A draft put together without raw bytes decodes, when it finishes, to one instruction
per call that appends one: in order, at the offset of the call, with the parts that the
call names, and with the offset of its label as the target of a jump to one. -/
theorem finish_decodes {calls : List Call} {code : Bytes}
    (hraw : ∀ c ∈ calls, c.isRaw = false) (h : (ofCalls calls).finish = .ok code)
    (hlen : code.length < 2 ^ 31) :
    ∃ ls, Decodes code 0 ls ∧
      List.Forall₂ (fun p l => l.ip = p.1 ∧ p.2.Denotes calls l.instr)
        (emissions empty calls) ls := by
  unfold finish at h
  cases hr : (ofCalls calls).refusal with
  | some r => simp [hr] at h
  | none =>
      simp only [hr] at h
      obtain ⟨es, hcode, hpend, hes⟩ := exists_entries (d := empty) hraw hr
      have hcode' : (ofCalls calls).code = [] ++ Entry.code es := hcode
      have hpend' : (ofCalls calls).pending = Entry.waiting ([] : Bytes).length es := hpend
      have hoff : (ofCalls calls).offset < 2 ^ 31 := by
        rw [offset, ← length_resolve h]
        exact hlen
      rw [hpend', hcode'] at h
      obtain ⟨is, his, rfl⟩ := resolve_waiting h
      refine ⟨Located.place 0 is, Decodes.of_encodeAll [] is, denotes_placed ?_ hes his⟩
      intro l t ht
      exact boundAt_of_lookup hraw hr hoff ht

/-- A loop with a forward and a backward jump, a literal that is no number, and operands
with parts that their forms ignore. -/
def loopCalls : List Call :=
  [.label "top", .push ⟨Form.imm.code, 9, 0x7ff8000000000abc, 7⟩, .jump 0x0f "end",
    .jump 0x0a "top", .jumpTo 0x11 (-1), .pop ⟨Form.memRegImm.code, 2, 5, -3⟩, .label "end",
    .emit 0x12]

def loopCode : Bytes :=
  [0x01, 0, 0, 1, 0xbc, 0x0a, 0, 0, 0, 0, 0xf8, 0x7f, 0x0f, 35, 0, 0, 0, 0x0a, 0, 0, 0, 0,
    0x11, 0xff, 0xff, 0xff, 0xff, 0x02, 1, 2, 1, 0xfd, 0xff, 0xff, 0xff, 0x12]

theorem finish_decodes_loop :
    (∀ c ∈ loopCalls, c.isRaw = false) ∧ (ofCalls loopCalls).finish = .ok loopCode ∧
      loopCode.length < 2 ^ 31 ∧
      ∃ ls, Decodes loopCode 0 ls ∧
        List.Forall₂ (fun p l => l.ip = p.1 ∧ p.2.Denotes loopCalls l.instr)
          (emissions empty loopCalls) ls := by
  have hraw : ∀ c ∈ loopCalls, c.isRaw = false := by decide
  have hfin : (ofCalls loopCalls).finish = .ok loopCode := by rfl
  have hlen : loopCode.length < 2 ^ 31 := by decide
  exact ⟨hraw, hfin, hlen, finish_decodes hraw hfin hlen⟩

end Draft
end StackCode.Bytecode
