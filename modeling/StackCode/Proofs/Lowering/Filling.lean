import StackCode.Lowering.Filled
import StackCode.Proofs.Lowering.Walk
import StackCode.Proofs.X64.Assembly

/-!
# What filling does

The fields of a step lie inside its template, so a block for which there is room is written
as a whole: its copy fits, its fields are found, and laying them over the copy stays inside
the buffer. Instructions in a row are therefore written one behind the other, in front of
bytes that stay as they were, and a block is refused only for want of room.
-/
namespace StackCode.X64.Buffer

/-- A field inside code that was copied changes the copy alone. -/
theorem patch_inside {lead code rest field : Bytes} {pos : Nat} (offset : Nat)
    (h : pos + field.length ≤ code.length) :
    patch ⟨lead ++ (code ++ rest), offset⟩ (lead.length + (pos : Int)) field =
      some ⟨lead ++ (code.overwrite pos field ++ rest), offset⟩ := by
  have hin : 0 ≤ lead.length + (pos : Int) ∧
      lead.length + (pos : Int) + field.length ≤ (lead ++ (code ++ rest)).length := by
    simp only [List.length_append]
    omega
  have hat : (lead.length + (pos : Int)).toNat = lead.length + pos := by omega
  rw [patch, if_pos hin, hat, Bytes.overwrite_append_right, Bytes.overwrite_append_left h]

end StackCode.X64.Buffer

namespace StackCode.Lowering

open Bytecode X64

namespace Step

/-- Where the field of the step's code starts in its block. -/
def fieldPos (s : Step) : Nat := s.fieldAt - s.nativeIp

/-- The block of a step, all but the distance of a jump filled in. -/
def filled (h : Helpers) (s : Step) : Bytes :=
  (s.fields h).foldl (fun code f => code.overwrite s.fieldPos f.2) s.desc.template.code

@[simp] theorem length_filled (h : Helpers) (s : Step) :
    (s.filled h).length = s.desc.nativeLen :=
  Bytes.length_foldl_overwrite _ _ (s.fields h) _

/-- A step fills in one field at most, the one that its instruction has. -/
theorem fields_cases (h : Helpers) (s : Step) :
    s.fields h = [] ∨ ∃ slot field, s.fields h = [(slot, field)] ∧
      Slot.ofInstr? s.instr = some slot ∧ field.length = slot.width := by
  obtain ⟨ip, i, desc, native, depth⟩ := s
  cases i with
  | push src =>
      cases src with
      | imm bits => exact .inr ⟨.imm64, _, rfl, rfl, rfl⟩
      | reg r => exact .inl rfl
      | mem c =>
          cases c with
          | ptr r => exact .inl rfl
          | abs d | off r d => exact .inr ⟨.disp32, _, rfl, rfl, rfl⟩
  | pop dst =>
      cases dst with
      | discard | reg r => exact .inl rfl
      | mem c =>
          cases c with
          | ptr r => exact .inl rfl
          | abs d | off r d => exact .inr ⟨.disp32, _, rfl, rfl, rfl⟩
  | input | output => exact .inr ⟨.helper, _, rfl, rfl, rfl⟩
  | _ => exact .inl rfl

section
variable {s : Step} (hs : s.desc = .ofInstr s.instr s.depth)
include hs

theorem slots_eq {slot : Slot} (h : Slot.ofInstr? s.instr = some slot) :
    s.desc.template.slots = [(slot, (s.fieldPos : Int))] ∧
      s.fieldAt = s.nativeIp + s.fieldPos ∧ s.fieldPos + slot.width ≤ s.desc.nativeLen := by
  obtain ⟨pos, hslots, hat, hlen⟩ := exists_field hs h
  have hp : s.fieldPos = pos := by
    unfold fieldPos
    omega
  rw [hp]
  exact ⟨hslots, hat, hlen⟩

theorem slots_eq_nil (h : Slot.ofInstr? s.instr = none) : s.desc.template.slots = [] := by
  rw [hs]
  exact (Template.ofBlock_unmarked _ h).1

/-- Laying the fields of a step over the copy of its template goes through. -/
theorem fill_copied (h : Helpers) (lead rest : Bytes) (offset : Nat) :
    s.fill lead.length (s.fields h) ⟨lead ++ (s.desc.template.code ++ rest), offset⟩ =
      (⟨lead ++ (s.filled h ++ rest), offset⟩, .done) := by
  rcases fields_cases h s with hnone | ⟨slot, field, hone, hslot, hwidth⟩
  · rw [filled, hnone]
    rfl
  · obtain ⟨hslots, -, hlen⟩ := slots_eq hs hslot
    have hat : s.desc.template.slot? slot = some (s.fieldPos : Int) := by
      simp [Template.slot?, hslots]
    have hin : s.fieldPos + field.length ≤ s.desc.template.code.length := by
      rw [hwidth]
      exact hlen
    simp only [filled, hone, fill, hat, Buffer.patch_inside offset hin, List.foldl_cons,
      List.foldl_nil]

theorem emit_fits (h : Helpers) {lead rest : Bytes} (hlead : lead.length = s.nativeIp)
    (hroom : s.desc.nativeLen ≤ rest.length) :
    s.emit h ⟨lead ++ rest, s.nativeIp⟩ =
      (⟨lead ++ (s.filled h ++ rest.drop s.desc.nativeLen), s.nativeIp + s.desc.nativeLen⟩,
        .done) := by
  have hfree : ¬ Buffer.remaining ⟨lead ++ rest, lead.length⟩ < s.desc.nativeLen := by
    simp only [Buffer.remaining, List.length_append]
    omega
  have hcopy : Buffer.put ⟨lead ++ rest, lead.length⟩ (.plain s.desc.template.code) = _ :=
    Buffer.put_fits hroom
  rw [← hlead, emit, if_neg (by simp [hlead]), if_neg hfree, hcopy]
  exact fill_copied hs h lead _ _

end

theorem emit_overruns (h : Helpers) {s : Step} {lead rest : Bytes}
    (hlead : lead.length = s.nativeIp) (hroom : rest.length < s.desc.nativeLen) :
    s.emit h ⟨lead ++ rest, s.nativeIp⟩ =
      (⟨lead ++ rest, s.nativeIp⟩, .failed (s.overrun (lead ++ rest).length)) := by
  have hfull : Buffer.remaining ⟨lead ++ rest, s.nativeIp⟩ < s.desc.nativeLen := by
    simp only [Buffer.remaining, List.length_append]
    omega
  rw [emit, if_neg (by simp), if_pos hfull]

theorem length_filled_along (h : Helpers) (native : Nat) (depth : Int) (ls : List Located) :
    ((along native depth ls).flatMap (filled h)).length = span depth ls := by
  induction ls generalizing native depth with
  | nil => rfl
  | cons l ls ih => rw [along, List.flatMap_cons, List.length_append, ih, length_filled, span]

end Step

namespace Filled

theorem follow_along (h : Helpers) {native : Nat} {depth : Int} {ls : List Located}
    {lead rest : Bytes} (hlead : lead.length = native) (hroom : span depth ls ≤ rest.length)
    (more : List Step) :
    follow h (Step.along native depth ls ++ more) ⟨lead ++ rest, native⟩ =
      follow h more ⟨lead ++ ((Step.along native depth ls).flatMap (Step.filled h) ++
        rest.drop (span depth ls)), native + span depth ls⟩ := by
  induction ls generalizing native depth lead rest with
  | nil => rfl
  | cons l ls ih =>
      rw [span] at hroom
      let s : Step := ⟨l.ip, l.instr, .ofInstr l.instr depth, native, depth⟩
      have hlen : s.desc.nativeLen = (Descriptor.ofInstr l.instr depth).nativeLen := rfl
      have hfirst : s.desc.nativeLen ≤ rest.length := by omega
      have hemit := Step.emit_fits (s := s) rfl h hlead hfirst
      -- the block that was written moves to the bytes in front
      have hnext := @ih (native + s.desc.nativeLen) (depth + l.instr.opcode.stackDelta)
        (lead ++ s.filled h) (rest.drop s.desc.nativeLen)
        (by rw [List.length_append, Step.length_filled, hlead])
        (by rw [List.length_drop]; omega)
      rw [Step.along, List.cons_append, follow, hemit]
      simp only [List.append_assoc, List.drop_drop] at hnext
      rw [List.flatMap_cons, List.append_assoc, span, ← Nat.add_assoc]
      exact hnext

/-- From the start of a buffer that is cut off at `size` bytes. -/
theorem follow_front (h : Helpers) {size : Nat} {dst : Bytes} {ls : List Located}
    (hsize : size ≤ dst.length) (hroom : span 0 ls ≤ size) (more : List Step) :
    follow h (Step.along 0 0 ls ++ more) ⟨dst.take size, 0⟩ =
      follow h more ⟨(Step.along 0 0 ls).flatMap (Step.filled h) ++
        (dst.take size).drop (span 0 ls), span 0 ls⟩ := by
  have hlead : ([] : Bytes).length = 0 := rfl
  have hrun := follow_along h hlead (by rwa [List.length_take_of_le hsize]) more
  rwa [List.nil_append, List.nil_append, Nat.zero_add] at hrun

theorem ofCode_of_le {size : Nat} {dst : Bytes} (hsize : size ≤ dst.length)
    (code : Option Bytes) (h : Helpers) :
    ofCode code (some size) (some dst) h = into (Walk.ofCode code) size dst h := by
  have hlong : ¬ (dst.length : Int) < size := by omega
  have hpos : ¬ (size : Int) < 0 := by omega
  simp only [ofCode, if_neg hlong, if_neg hpos, Int.toNat_natCast]

end Filled

end StackCode.Lowering
