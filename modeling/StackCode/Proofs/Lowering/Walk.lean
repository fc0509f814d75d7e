import StackCode.Lowering.Layout
import StackCode.Proofs.Bytecode.Decoding
import StackCode.Proofs.Lowering.Catalog

/-!
# The walk of a program and its layout

Since every instruction has a lowering at every depth, a walk stops only where the linear
decoding does. Each step stands behind the machine code of the instructions before it, at
the depth they leave. The layout of an accepted program is read off the steps: its offsets
are those of the steps and of the end, its relocations are those of the jumps, and every
jump lands on a step.
-/
namespace StackCode.Bytecode

namespace Located

theorem le_of_mem_place {ip : Nat} {is : List Instr} {l : Located} (h : l ∈ place ip is) :
    ip ≤ l.ip := by
  induction is generalizing ip with
  | nil => cases h
  | cons i is ih =>
      rcases List.mem_cons.mp h with rfl | h
      · exact Nat.le_refl _
      · exact Nat.le_trans (Nat.le_add_right ip i.len) (ih h)

theorem instr_mem_of_mem_place {ip : Nat} {is : List Instr} {l : Located} (h : l ∈ place ip is) :
    l.instr ∈ is := by
  induction is generalizing ip with
  | nil => cases h
  | cons i is ih =>
      rcases List.mem_cons.mp h with rfl | h
      · exact .head _
      · exact .tail _ (ih h)

theorem place_ascending (ip : Nat) (is : List Instr) :
    (place ip is).Pairwise fun a b => a.ip < b.ip := by
  induction is generalizing ip with
  | nil => exact .nil
  | cons i is ih =>
      refine .cons (fun l hl => ?_) (ih _)
      have hp := i.len_pos
      have := le_of_mem_place hl
      exact Nat.lt_of_lt_of_le (Nat.lt_add_of_pos_right hp) this

theorem next_le_of_mem_place {ip : Nat} {is : List Instr} {l : Located} (h : l ∈ place ip is) :
    l.next ≤ ip + (is.flatMap Instr.encode).length := by
  induction is generalizing ip with
  | nil => cases h
  | cons i is ih =>
      simp only [List.flatMap_cons, List.length_append, Instr.length_encode]
      rcases List.mem_cons.mp h with rfl | h
      · simp only [next]
        omega
      · have := ih h
        omega

end Located

namespace Scan

theorem exists_place {code : Bytes} (h : (ofCode code).fault = none) :
    ∃ is : List Instr, code = is.flatMap Instr.encode ∧
      (ofCode code).instrs = Located.place 0 is := by
  obtain ⟨is, rfl⟩ := exists_encodeAll h
  exact ⟨is, rfl, by rw [ofCode, ofBytes_encodeAll]⟩

theorem instrs_ascending {code : Bytes} (h : (ofCode code).fault = none) :
    (ofCode code).instrs.Pairwise fun a b => a.ip < b.ip := by
  obtain ⟨is, -, hi⟩ := exists_place h
  rw [hi]
  exact Located.place_ascending 0 is

theorem next_le {code : Bytes} (h : (ofCode code).fault = none) {l : Located}
    (hl : l ∈ (ofCode code).instrs) : l.next ≤ code.length := by
  obtain ⟨is, hc, hi⟩ := exists_place h
  rw [hi] at hl
  have := Located.next_le_of_mem_place hl
  rwa [Nat.zero_add, ← hc] at this

end Scan

end StackCode.Bytecode

namespace StackCode.Lowering

open Bytecode

/-- Words that instructions leave on the stack along a straight line. -/
def rise (ls : List Located) : Int := (ls.map fun l => l.instr.opcode.stackDelta).sum

/-- Bytes of machine code of instructions in a row, the first met at `depth`. -/
def span : Int → List Located → Nat
  | _, [] => 0
  | depth, l :: ls =>
      (Descriptor.ofInstr l.instr depth).nativeLen +
        span (depth + l.instr.opcode.stackDelta) ls

@[simp] theorem rise_nil : rise [] = 0 := rfl

@[simp] theorem rise_cons (l : Located) (ls : List Located) :
    rise (l :: ls) = l.instr.opcode.stackDelta + rise ls := by
  simp [rise]

@[simp] theorem rise_append (a b : List Located) : rise (a ++ b) = rise a + rise b := by
  simp [rise]

theorem span_append (depth : Int) (a b : List Located) :
    span depth (a ++ b) = span depth a + span (depth + rise a) b := by
  induction a generalizing depth with
  | nil => simp [span]
  | cons l a ih => simp [span, ih, Nat.add_assoc, Int.add_assoc]

theorem span_bounds (depth : Int) (ls : List Located) :
    ls.length ≤ span depth ls ∧ span depth ls ≤ 32 * ls.length := by
  induction ls generalizing depth with
  | nil => exact ⟨Nat.le_refl _, Nat.le_refl _⟩
  | cons l ls ih =>
      have hfirst := Descriptor.nativeLen_ofInstr l.instr depth
      have hrest := ih (depth + l.instr.opcode.stackDelta)
      simp only [span, List.length_cons]
      omega

namespace Step

/-- The steps along instructions, from a native offset and a depth on. -/
def along (native : Nat) (depth : Int) : List Located → List Step
  | [] => []
  | l :: ls =>
      ⟨l.ip, l.instr, .ofInstr l.instr depth, native, depth⟩ ::
        along (native + (Descriptor.ofInstr l.instr depth).nativeLen)
          (depth + l.instr.opcode.stackDelta) ls

theorem along_append (native : Nat) (depth : Int) (a b : List Located) :
    along native depth (a ++ b) =
      along native depth a ++ along (native + span depth a) (depth + rise a) b := by
  induction a generalizing native depth with
  | nil => simp [along, span]
  | cons l a ih => simp [along, span, ih, Nat.add_assoc, Int.add_assoc]

theorem map_along (native : Nat) (depth : Int) (ls : List Located) :
    (along native depth ls).map (fun s => (⟨s.ip, s.instr⟩ : Located)) = ls := by
  induction ls generalizing native depth with
  | nil => rfl
  | cons l ls ih => simp [along, ih]

theorem length_along (native : Nat) (depth : Int) (ls : List Located) :
    (along native depth ls).length = ls.length := by
  rw [← List.length_map, map_along]

theorem along_ascending {ls : List Located} (h : ls.Pairwise fun a b => a.ip < b.ip)
    (native : Nat) (depth : Int) : (along native depth ls).Pairwise fun a b => a.ip < b.ip := by
  rw [← map_along native depth ls, List.pairwise_map] at h
  exact h

/-- A step stands behind the code of the instructions before it, at the depth they leave,
with the descriptor of its instruction there. -/
theorem mem_along {native : Nat} {depth : Int} {ls : List Located} {s : Step} :
    s ∈ along native depth ls ↔ ∃ before after, ls = before ++ ⟨s.ip, s.instr⟩ :: after ∧
      s.nativeIp = native + span depth before ∧ s.depth = depth + rise before ∧
      s.desc = .ofInstr s.instr s.depth := by
  induction ls generalizing native depth with
  | nil => simp [along]
  | cons l ls ih =>
      rw [along, List.mem_cons, ih]
      constructor
      · rintro (rfl | ⟨before, after, rfl, hn, hd, he⟩)
        · exact ⟨[], ls, rfl, by simp [span], by simp, rfl⟩
        · refine ⟨l :: before, after, rfl, ?_, ?_, he⟩
          · rw [hn, span, Nat.add_assoc]
          · rw [hd, rise_cons, Int.add_assoc]
      · rintro ⟨before, after, hl, hn, hd, he⟩
        cases before with
        | nil =>
            simp only [List.nil_append, List.cons.injEq] at hl
            simp only [span, rise_nil, Nat.add_zero, Int.add_zero] at hn hd
            obtain ⟨rfl, rfl⟩ := hl
            left
            rw [← hn, ← hd, ← he]
        | cons l' before =>
            simp only [List.cons_append, List.cons.injEq] at hl
            obtain ⟨rfl, rfl⟩ := hl
            refine .inr ⟨before, after, rfl, ?_, ?_, he⟩
            · rw [hn, span, Nat.add_assoc]
            · rw [hd, rise_cons, Int.add_assoc]

theorem desc_of_mem_along {native : Nat} {depth : Int} {ls : List Located} {s : Step}
    (h : s ∈ along native depth ls) : s.desc = .ofInstr s.instr s.depth := by
  obtain ⟨before, after, -, -, -, hd⟩ := mem_along.mp h
  exact hd

theorem nativeLen_pos {native : Nat} {depth : Int} {ls : List Located} {s : Step}
    (h : s ∈ along native depth ls) : 0 < s.desc.nativeLen := by
  rw [desc_of_mem_along h]
  exact (Descriptor.nativeLen_ofInstr s.instr s.depth).1

theorem along_apart (native : Nat) (depth : Int) (ls : List Located) :
    (along native depth ls).Pairwise fun a b => a.nativeIp + a.desc.nativeLen ≤ b.nativeIp := by
  induction ls generalizing native depth with
  | nil => exact .nil
  | cons l ls ih =>
      refine .cons (fun s hs => ?_) (ih _ _)
      obtain ⟨before, after, -, hn, -, -⟩ := mem_along.mp hs
      simp only
      omega

end Step

namespace Walk

/-- A walk takes every step, whatever stops it then. -/
theorem follow_eq (stop : Option Failure) (native : Nat) (depth : Int) (ls : List Located) :
    follow stop native depth ls =
      ⟨Step.along native depth ls, native + span depth ls, depth + rise ls, stop⟩ := by
  induction ls generalizing native depth with
  | nil => simp [follow, Step.along, span]
  | cons l ls ih =>
      have hd : (Descriptor.ofInstr l.instr depth).stackDelta = l.instr.opcode.stackDelta := rfl
      simp only [follow, Catalog.lookup_ofInstr, ih, cons, Step.along, span, rise_cons, hd,
        Nat.add_assoc, Int.add_assoc]

theorem ofCode_eq {code : Bytes} (h : code ≠ []) :
    ofCode (some code) =
      ⟨Step.along 0 0 (Scan.ofCode code).instrs, span 0 (Scan.ofCode code).instrs,
        rise (Scan.ofCode code).instrs,
        (Scan.ofCode code).fault.map fun (ip, f) => f.report ip⟩ := by
  cases code with
  | nil => exact absurd rfl h
  | cons b bs => simp [ofCode, follow_eq]

/-- The steps of any walk, also of one that stops early or has no program. -/
theorem steps_ofCode (code : Option Bytes) :
    (ofCode code).steps = Step.along 0 0 (Scan.ofCode (code.getD [])).instrs := by
  match code with
  | none | some [] => rfl
  | some (b :: bs) => rw [ofCode_eq (List.cons_ne_nil b bs), Option.getD_some]

end Walk

/-! ## Layouts -/

def RelocKind.ofBranch : Branch → RelocKind
  | .cond _ => .conditional
  | _ => .direct

namespace Step

/-- The native offset of the field of the step's code. -/
def fieldAt (s : Step) : Nat :=
  s.nativeIp + match s.desc.template.slots with
    | [] => 0
    | (_, pos) :: _ => pos.toNat

def jump? (s : Step) : Option Relocation :=
  match s.instr with
  | .branch b t => some ⟨s.ip, t.toInt, s.fieldAt, .ofBranch b⟩
  | _ => none

def call? (s : Step) : Option HelperField := s.helper?.map fun h => ⟨s.fieldAt, h⟩

section
variable {s : Step} (hs : s.desc = .ofInstr s.instr s.depth)
include hs

theorem exists_field {slot : Slot} (h : Slot.ofInstr? s.instr = some slot) :
    ∃ pos : Nat, s.desc.template.slots = [(slot, (pos : Int))] ∧ s.fieldAt = s.nativeIp + pos ∧
      pos + slot.width ≤ s.desc.nativeLen := by
  obtain ⟨pos, hpos, hlen, -⟩ :=
    Template.ofBlock_field (Variant.needsPadding s.instr s.depth) h
  have hslots : s.desc.template.slots = [(slot, (pos : Int))] := by
    rw [hs]
    exact hpos
  refine ⟨pos, hslots, by simp [fieldAt, hslots], ?_⟩
  rw [hs]
  exact hlen

theorem fieldOf_eq {slot : Slot} (h : Slot.ofInstr? s.instr = some slot) :
    s.fieldOf slot = .ok (s.fieldAt : Int) := by
  obtain ⟨pos, hslots, hat, -⟩ := exists_field hs h
  simp [fieldOf, Template.slot?, hslots, hat]

theorem relocation?_eq : s.relocation? = .ok s.jump? := by
  cases hi : s.instr with
  | branch b t =>
      have hf : s.fieldOf .rel32 = .ok (s.fieldAt : Int) := fieldOf_eq hs (by rw [hi]; rfl)
      simp only [relocation?, jump?, hi, hf]
      cases b <;> rfl
  | _ => simp only [relocation?, jump?, hi]

theorem helperField?_eq : s.helperField? = .ok s.call? := by
  cases hi : s.instr with
  | input | output =>
      have hf : s.fieldOf .helper = .ok (s.fieldAt : Int) := fieldOf_eq hs (by rw [hi]; rfl)
      simp only [helperField?, call?, helper?, hi, hf]
      rfl
  | _ =>
      simp only [helperField?, call?, helper?, hi]
      rfl

theorem jump?_field {r : Relocation} (h : s.jump? = some r) :
    r.nativeFrom = (s.fieldAt : Int) ∧ s.nativeIp ≤ s.fieldAt ∧
      s.fieldAt + 4 ≤ s.nativeIp + s.desc.nativeLen := by
  unfold jump? at h
  split at h
  next b t hi =>
    cases h
    have hslot : Slot.ofInstr? s.instr = some .rel32 := by rw [hi]; rfl
    obtain ⟨pos, -, hat, hlen⟩ := exists_field hs hslot
    have hw : Slot.width .rel32 = 4 := by decide
    refine ⟨rfl, ?_, ?_⟩ <;> omega
  next => cases h

end

end Step

namespace Layout

/-- Steps with their own descriptors contribute all their fields. -/
theorem collect_eq (ss : List Step) (h : ∀ s ∈ ss, s.desc = .ofInstr s.instr s.depth) :
    collect ss = .ok (ss.filterMap Step.jump?, ss.filterMap Step.call?) := by
  induction ss with
  | nil => rfl
  | cons s ss ih =>
      have hs := h s (.head _)
      have hr := ih fun t ht => h t (.tail _ ht)
      rw [collect, Step.relocation?_eq hs, Step.helperField?_eq hs, hr]
      cases hj : s.jump? <;> cases hc : s.call? <;> simp [Except.map, hj, hc]

theorem collect_along (ls : List Located) :
    collect (Step.along 0 0 ls) =
      .ok ((Step.along 0 0 ls).filterMap Step.jump?, (Step.along 0 0 ls).filterMap Step.call?) :=
  collect_eq _ fun _ hs => Step.desc_of_mem_along hs

/-- The layout of instructions that make up a program of `sourceLen` bytes. -/
def ofInstrs (sourceLen : Nat) (ls : List Located) : Layout :=
  ofWalk sourceLen ⟨Step.along 0 0 ls, span 0 ls, rise ls, none⟩
    ((Step.along 0 0 ls).filterMap Step.jump?) ((Step.along 0 0 ls).filterMap Step.call?)

theorem ofCode_eq {code : Bytes} (hne : code ≠ []) (hf : (Scan.ofCode code).fault = none) :
    ofCode (some code) = (ofInstrs code.length (Scan.ofCode code).instrs).checkTargets := by
  simp only [ofCode, Walk.ofCode_eq hne, collect_along, hf, Option.map_none, Option.getD_some]
  rfl

theorem offsets_keys (n : Nat) (ls : List Located) :
    (ofInstrs n ls).offsets.map Prod.fst = ls.map Located.ip ++ [n] := by
  have hips : (Step.along 0 0 ls).map Step.ip = ls.map Located.ip := by
    conv_rhs => rw [← Step.map_along 0 0 ls]
    simp
  simp only [ofInstrs, ofWalk, List.map_append, List.map_map, Function.comp_def, List.map_cons,
    List.map_nil]
  rw [hips]

section
variable {code : Bytes} (hf : (Scan.ofCode code).fault = none)
include hf

theorem offsets_ascending :
    ((ofInstrs code.length (Scan.ofCode code).instrs).offsets.map Prod.fst).Pairwise (· < ·) := by
  have hasc : ((Scan.ofCode code).instrs.map Located.ip).Pairwise (· < ·) :=
    List.pairwise_map.mpr (Scan.instrs_ascending hf)
  have hend : ∀ ip ∈ (Scan.ofCode code).instrs.map Located.ip, ip < code.length := by
    intro ip hip
    obtain ⟨l, hl, rfl⟩ := List.mem_map.mp hip
    have hn := Scan.next_le hf hl
    have hp := l.instr.len_pos
    unfold Located.next at hn
    omega
  rw [offsets_keys]
  exact List.pairwise_append.mpr ⟨hasc, List.pairwise_singleton _ _, by simpa using hend⟩

theorem offset?_of_mem {p : Nat × Nat}
    (h : p ∈ (ofInstrs code.length (Scan.ofCode code).instrs).offsets) :
    (ofInstrs code.length (Scan.ofCode code).instrs).offset? p.1 = some p.2 := by
  have hn : ((ofInstrs code.length (Scan.ofCode code).instrs).offsets.map
      fun p => (p.1 : Int)).Nodup := by
    have hn : (List.map Prod.fst _).Nodup := (offsets_ascending hf).imp Nat.ne_of_lt
    have hinj : Function.Injective Int.ofNat := fun _ _ => Int.ofNat.inj
    have hi := hn.map hinj
    rwa [List.map_map] at hi
  rw [offset?, Keyed.find?_key hn h]
  rfl

theorem offset?_step {s : Step} (h : s ∈ Step.along 0 0 (Scan.ofCode code).instrs) :
    (ofInstrs code.length (Scan.ofCode code).instrs).offset? s.ip = some s.nativeIp :=
  offset?_of_mem hf (List.mem_append_left _ (List.mem_map_of_mem h))

end

theorem exists_step_of_isBoundary {n : Nat} {ls : List Located} {t : Int}
    (h : (ofInstrs n ls).isBoundary t = true) : ∃ s ∈ Step.along 0 0 ls, (s.ip : Int) = t := by
  simp only [isBoundary, Bool.and_eq_true, decide_eq_true_eq, offset?, Option.isSome_map,
    List.find?_isSome] at h
  obtain ⟨hlt, p, hp, ht⟩ := h
  rcases List.mem_append.mp hp with hp | hp
  · obtain ⟨s, hs, rfl⟩ := List.mem_map.mp hp
    exact ⟨s, hs, by simpa using ht⟩
  · obtain rfl := List.mem_singleton.mp hp
    have he : (n : Int) = t := by simpa using ht
    have hn : (ofInstrs n ls).sourceLen = n := rfl
    omega

/-- What it means that a program is laid out. -/
theorem ofCode_eq_ok {code : Bytes} {layout : Layout} (h : ofCode (some code) = .ok layout) :
    code ≠ [] ∧ (Scan.ofCode code).fault = none ∧
      layout = ofInstrs code.length (Scan.ofCode code).instrs ∧
      ∀ r ∈ layout.relocations, layout.isBoundary r.sourceTo = true := by
  have hne : code ≠ [] := by
    rintro rfl
    simp [ofCode, Walk.ofCode, collect] at h
  have hf : (Scan.ofCode code).fault = none := by
    cases hf : (Scan.ofCode code).fault with
    | none => rfl
    | some fault => simp [ofCode, Walk.ofCode_eq hne, collect_along, hf] at h
  rw [ofCode_eq hne hf, checkTargets] at h
  split at h
  next => cases h
  next hnone =>
    cases h
    refine ⟨hne, hf, rfl, fun r hr => ?_⟩
    simpa using List.find?_eq_none.mp hnone r hr

theorem nativeLen_eq {code : Bytes} {layout : Layout} (h : ofCode (some code) = .ok layout) :
    layout.nativeLen = span 0 (Scan.ofCode code).instrs := by
  obtain ⟨-, -, hlayout, -⟩ := ofCode_eq_ok h
  rw [hlayout]
  rfl

end Layout

end StackCode.Lowering
