import StackCode.Proofs.Bytecode.DraftDecoding

/-!
# Which calls a draft refuses

A draft refuses a label that is bound already, an opcode that is none or that does not suit the
call, and an operand of the wrong form, without a tag, or without its register. Forms and
registers are bare numbers and may be anything. The reason is a matter of the call and of the
labels that are bound; nothing else in the draft has a part in it.
-/
namespace StackCode.Bytecode

theorem Form.ofCode?_eq_none_iff {c : Int} :
    Form.ofCode? c = Option.none ↔ c < Form.none.code ∨ Form.memRegImm.code < c := by
  simp only [Form.ofCode?, Form.all, List.find?_eq_none, List.mem_cons, List.not_mem_nil, or_false,
    forall_eq_or_imp, forall_eq, beq_iff_eq, Form.code]
  omega

theorem Register.ofByte?_eq_none_iff {b : UInt8} :
    Register.ofByte? b = none ↔ ∀ r : Register, r.toByte ≠ b := by
  constructor
  · rintro h r rfl
    rw [Register.ofByte?_toByte] at h
    cases h
  · intro h
    refine Option.eq_none_iff_forall_ne_some.mpr fun r hr => ?_
    exact h r (Register.toByte_of_ofByte? hr).symm

theorem Opcode.branch?_eq_none_iff {op : UInt8} :
    Opcode.branch? op = none ↔ ∀ b : Branch, (Opcode.branch b).toByte ≠ op := by
  constructor
  · rintro h b rfl
    simp [Opcode.branch?, Opcode.ofByte?_toByte] at h
  · intro h
    refine Option.eq_none_iff_forall_ne_some.mpr fun b hb => ?_
    exact h b (Opcode.toByte_of_branch? hb)

/-- Why an operand of a form behind the empty one has no tag. -/
inductive Operand.Untagged (o : Operand) : TagFault → Prop
  /-- the form is larger than all -/
  | beyond : Form.memRegImm.code < o.form → Untagged o (.noTag o.form)
  /-- the form needs a register, and there is none of that number -/
  | register : Form.reg.code ≤ o.form → o.form ≤ Form.memRegImm.code →
      (∀ r : Register, r.toByte ≠ o.reg) → Untagged o (.noRegister o.form o.reg)

/-- Why a draft in which these labels are bound refuses a call. -/
inductive Call.Refused (bound : List String) : Call → Refusal → Prop
  | label {n : String} : n ∈ bound → Refused bound (.label n) (.labelTwice n)
  /-- the byte is no opcode, or one with an operand -/
  | emit {op : UInt8} : (∀ o : Opcode, o.toByte = op → o.operand ≠ .none) →
      Refused bound (.emit op) (.notPlain op)
  /-- the form is none of an operand, or the empty one -/
  | push {o : Operand} : o.form ≤ Form.empty.code →
      Refused bound (.push o) (.wrongForm Opcode.push.toByte o.form)
  | pushTag {o : Operand} {f : TagFault} : o.Untagged f → Refused bound (.push o) (.noTag f)
  /-- the form is none of an operand, or a literal -/
  | pop {o : Operand} : o.form < Form.empty.code ∨ o.form = Form.imm.code →
      Refused bound (.pop o) (.wrongForm Opcode.pop.toByte o.form)
  | popTag {o : Operand} {f : TagFault} : o.Untagged f → Refused bound (.pop o) (.noTag f)
  | jump {op : UInt8} {l : String} : (∀ b : Branch, (Opcode.branch b).toByte ≠ op) →
      Refused bound (.jump op l) (.notJump op)
  | jumpTo {op : UInt8} {t : Int32} : (∀ b : Branch, (Opcode.branch b).toByte ≠ op) →
      Refused bound (.jumpTo op t) (.notJump op)

/-- Tags are for the forms from the empty one on, and the last three need a register. -/
theorem encodeTag_fault (form : Int) (reg : UInt8) :
    (encodeTag form reg).2 =
      if form < Form.empty.code ∨ Form.memRegImm.code < form then some (.noTag form)
      else if form < Form.reg.code ∨ (Register.ofByte? reg).isSome = true then none
      else some (.noRegister form reg) := by
  cases hf : Form.ofCode? form with
  | none =>
      have hout := Form.ofCode?_eq_none_iff.mp hf
      simp only [Form.code] at hout
      rw [if_pos (by simp only [Form.code]; omega)]
      simp only [encodeTag, hf]
  | some f =>
      obtain rfl := Form.code_of_ofCode? hf
      simp only [encodeTag, hf]
      cases f <;> simp [Form.code]

theorem Operand.untagged_iff {o : Operand} (h : Form.empty.code ≤ o.form) {f : TagFault} :
    (encodeTag o.form o.reg).2 = some f ↔ o.Untagged f := by
  rw [encodeTag_fault]
  constructor
  · intro hf
    split at hf
    next hout =>
      cases hf
      exact .beyond (hout.resolve_left (Int.not_lt.mpr h))
    next hin =>
      split at hf
      next => cases hf
      next hreg =>
        cases hf
        refine .register ?_ ?_ (Register.ofByte?_eq_none_iff.mp ?_)
        · exact Int.not_lt.mp fun hlt => hreg (.inl hlt)
        · exact Int.not_lt.mp fun hlt => hin (.inr hlt)
        · exact Option.not_isSome_iff_eq_none.mp fun hsome => hreg (.inr hsome)
  · intro hf
    cases hf with
    | beyond hout => rw [if_pos (.inr hout)]
    | register hlo hhi hreg =>
        rw [if_neg (by omega), if_neg]
        rw [Register.ofByte?_eq_none_iff.mpr hreg]
        simp only [Option.isSome_none, Bool.false_eq_true, or_false]
        omega

namespace Draft

def bound (d : Draft) : List String := d.labels.map Prod.fst

theorem mem_bound_iff {d : Draft} {n : String} :
    n ∈ d.bound ↔ (d.labels.lookup n).isSome = true := by
  simp [bound, List.lookup_isSome_iff]

theorem stackOp_eq_error_iff {d : Draft} {op : Opcode} {o : Operand} {r : Refusal}
    (hempty : Opcode.accepts op.toByte o.form = true → Form.empty.code ≤ o.form) :
    d.stackOp op o = .error r ↔
      Opcode.accepts op.toByte o.form = false ∧ r = .wrongForm op.toByte o.form ∨
        Opcode.accepts op.toByte o.form = true ∧ ∃ f, o.Untagged f ∧ r = .noTag f := by
  unfold stackOp
  cases hacc : Opcode.accepts op.toByte o.form with
  | false => simp [eq_comm]
  | true =>
      simp only [← Operand.untagged_iff (hempty hacc)]
      rcases encodeTag o.form o.reg with ⟨tag, _ | fault⟩ <;> simp [eq_comm]

theorem accepts_push (form : Int) :
    Opcode.accepts Opcode.push.toByte form = true ↔ Form.empty.code < form :=
  decide_eq_true_iff

theorem accepts_pop (form : Int) :
    Opcode.accepts Opcode.pop.toByte form = true ↔
      Form.empty.code ≤ form ∧ form ≠ Form.imm.code := by
  have hpop : Opcode.accepts Opcode.pop.toByte form =
      (decide (Form.empty.code ≤ form) && form != Form.imm.code) := rfl
  rw [hpop, Bool.and_eq_true, decide_eq_true_iff, bne_iff_ne]

theorem bind_eq_error_iff {d : Draft} {n : String} {r : Refusal} :
    d.bind n = .error r ↔ n ∈ d.bound ∧ r = .labelTwice n := by
  rw [mem_bound_iff, bind]
  split
  next h => simp [h, eq_comm]
  next h => simp [h]

theorem emit_eq_error_iff {d : Draft} {op : UInt8} {r : Refusal} :
    d.emit op = .error r ↔
      (∀ o : Opcode, o.toByte = op → o.operand ≠ .none) ∧ r = .notPlain op := by
  unfold emit
  split
  next o ho =>
    have hall : (∀ o' : Opcode, o'.toByte = op → o'.operand ≠ .none) ↔ o.operand ≠ .none := by
      constructor
      · intro h
        exact h o (Opcode.toByte_of_ofByte? ho)
      · rintro h o' rfl
        rw [Opcode.ofByte?_toByte] at ho
        rwa [Option.some.inj ho]
    rw [hall]
    split
    next hnone => simp [hnone]
    next hsome => simp [hsome, eq_comm]
  next hno =>
    have hall : ∀ o : Opcode, o.toByte = op → o.operand ≠ .none := by
      rintro o rfl
      rw [Opcode.ofByte?_toByte] at hno
      cases hno
    rw [and_iff_right hall]
    simp [eq_comm]

theorem jump_eq_error_iff {d : Draft} {op : UInt8} {l : String} {r : Refusal} :
    d.jump op l = .error r ↔
      (∀ b : Branch, (Opcode.branch b).toByte ≠ op) ∧ r = .notJump op := by
  rw [jump, ← Opcode.branch?_eq_none_iff]
  cases Opcode.branch? op <;> simp [eq_comm]

theorem jumpTo_eq_error_iff {d : Draft} {op : UInt8} {t : Int32} {r : Refusal} :
    d.jumpTo op t = .error r ↔
      (∀ b : Branch, (Opcode.branch b).toByte ≠ op) ∧ r = .notJump op := by
  rw [jumpTo, ← Opcode.branch?_eq_none_iff]
  cases Opcode.branch? op <;> simp [eq_comm]

theorem push_eq_error_iff {d : Draft} {o : Operand} {r : Refusal} :
    d.stackOp .push o = .error r ↔ (Call.push o).Refused d.bound r := by
  have haccepts := accepts_push o.form
  rw [stackOp_eq_error_iff fun h => Int.le_of_lt (haccepts.mp h), ← Bool.not_eq_true, haccepts]
  constructor
  · rintro (⟨hform, rfl⟩ | ⟨-, f, hf, rfl⟩)
    · exact .push (Int.not_lt.mp hform)
    · exact .pushTag hf
  · intro h
    cases h with
    | push hform => exact .inl ⟨Int.not_lt.mpr hform, rfl⟩
    | pushTag hf =>
        refine .inr ⟨?_, _, hf, rfl⟩
        cases hf with
        | beyond hout => exact Int.lt_trans (by decide) hout
        | register hlo _ _ => exact Int.lt_of_lt_of_le (by decide) hlo

theorem pop_eq_error_iff {d : Draft} {o : Operand} {r : Refusal} :
    d.stackOp .pop o = .error r ↔ (Call.pop o).Refused d.bound r := by
  have haccepts := accepts_pop o.form
  rw [stackOp_eq_error_iff fun h => (haccepts.mp h).1, ← Bool.not_eq_true, haccepts]
  constructor
  · rintro (⟨hform, rfl⟩ | ⟨-, f, hf, rfl⟩)
    · refine .pop ?_
      rw [Decidable.not_and_iff_not_or_not, Int.not_le, Decidable.not_not] at hform
      exact hform
    · exact .popTag hf
  · intro h
    cases h with
    | pop hform =>
        refine .inl ⟨fun hacc => ?_, rfl⟩
        rcases hform with hlt | heq
        · exact absurd hacc.1 (Int.not_le.mpr hlt)
        · exact hacc.2 heq
    | popTag hf =>
        refine .inr ⟨?_, _, hf, rfl⟩
        have hlo : Form.imm.code < o.form := by
          cases hf with
          | beyond hout => exact Int.lt_trans (by decide) hout
          | register hlo _ _ => exact Int.lt_of_lt_of_le (by decide) hlo
        exact ⟨Int.le_trans (by decide) (Int.le_of_lt hlo), (Int.ne_of_lt hlo).symm⟩

/-- The calls that a draft refuses, and its reasons. -/
theorem attempt_eq_error_iff {d : Draft} {c : Call} {r : Refusal} :
    d.attempt c = .error r ↔ c.Refused d.bound r := by
  cases c with
  | label n =>
      refine bind_eq_error_iff.trans ⟨?_, ?_⟩
      · rintro ⟨hn, rfl⟩
        exact .label hn
      · intro h
        cases h with
        | label hn => exact ⟨hn, rfl⟩
  | emit op =>
      refine emit_eq_error_iff.trans ⟨?_, ?_⟩
      · rintro ⟨hop, rfl⟩
        exact .emit hop
      · intro h
        cases h with
        | emit hop => exact ⟨hop, rfl⟩
  | push o => exact push_eq_error_iff
  | pop o => exact pop_eq_error_iff
  | jump op l =>
      refine jump_eq_error_iff.trans ⟨?_, ?_⟩
      · rintro ⟨hop, rfl⟩
        exact .jump hop
      · intro h
        cases h with
        | jump hop => exact ⟨hop, rfl⟩
  | jumpTo op t =>
      refine jumpTo_eq_error_iff.trans ⟨?_, ?_⟩
      · rintro ⟨hop, rfl⟩
        exact .jumpTo hop
      · intro h
        cases h with
        | jumpTo hop => exact ⟨hop, rfl⟩
  | raw bs =>
      refine iff_of_false ?_ ?_
      · intro h
        cases h
      · intro h
        cases h

end Draft

end StackCode.Bytecode
