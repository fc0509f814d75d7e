import Mathlib.Data.List.Forall2
import StackCode.Proofs.Lowering.Acceptance
import StackCode.Proofs.Lowering.Relinking

/-!
# What a layout says about its program

`Layout.Invariants` ties a layout to the instructions of the program it was made for: which
offsets it has, in which order they lie, what it counts, and which fields it lists. Every
field is one of an instruction and lies in the machine code of that instruction, so no two of
them meet. All of it follows from one fact about the steps of the walk: the code of each ends
where that of the next begins.
-/
namespace StackCode.Lowering

open Bytecode

namespace Layout

/-- The `width` bytes at `pos` are machine code of the instruction. -/
def InBlock (layout : Layout) (l : Located) (pos : Int) (width : Nat) : Prop :=
  ∃ start stop : Nat, layout.offset? l.ip = some start ∧ layout.offset? l.next = some stop ∧
    start ≤ pos ∧ pos + width ≤ stop

/-- The relocation of a jump or a call. -/
inductive Relocates (layout : Layout) : Located → Relocation → Prop
  | jmp {ip : Nat} {t : Int32} {pos : Int} : layout.InBlock ⟨ip, .branch .jmp t⟩ pos 4 →
      Relocates layout ⟨ip, .branch .jmp t⟩ ⟨ip, t.toInt, pos, .direct⟩
  | call {ip : Nat} {t : Int32} {pos : Int} : layout.InBlock ⟨ip, .branch .call t⟩ pos 4 →
      Relocates layout ⟨ip, .branch .call t⟩ ⟨ip, t.toInt, pos, .direct⟩
  | cond {ip : Nat} {c : Comparison} {t : Int32} {pos : Int} :
      layout.InBlock ⟨ip, .branch (.cond c) t⟩ pos 4 →
      Relocates layout ⟨ip, .branch (.cond c) t⟩ ⟨ip, t.toInt, pos, .conditional⟩

/-- The helper field of an instruction that reads or prints a number. -/
inductive CallsHelper (layout : Layout) : Located → HelperField → Prop
  | input {ip : Nat} {pos : Int} : layout.InBlock ⟨ip, .input⟩ pos 8 →
      CallsHelper layout ⟨ip, .input⟩ ⟨pos, .input⟩
  | output {ip : Nat} {pos : Int} : layout.InBlock ⟨ip, .output⟩ pos 8 →
      CallsHelper layout ⟨ip, .output⟩ ⟨pos, .output⟩

def fields (layout : Layout) : List (Int × Nat) :=
  layout.relocations.map (fun r => (r.nativeFrom, 4)) ++
    layout.helperFields.map (fun f => (f.nativeAt, 8))

def Apart (a b : Int × Nat) : Prop := a.1 + (a.2 : Int) ≤ b.1 ∨ b.1 + (b.2 : Int) ≤ a.1

/-- What holds of the layout of a program with the instructions `ls`. -/
structure Invariants (code : Bytes) (ls : List Located) (layout : Layout) : Prop where
  /-- the starts of the instructions and the end have offsets, and nothing else has -/
  keys : layout.offsets.map Prod.fst = ls.map Located.ip ++ [code.length]
  /-- an offset is found under its key -/
  found : ∀ ip native, layout.offset? ip = some native ↔
    ∃ p ∈ layout.offsets, (p.1 : Int) = ip ∧ p.2 = native
  ascending : layout.offsets.Pairwise fun p q => p.1 < q.1 ∧ p.2 < q.2
  first : layout.offset? 0 = some 0
  last : layout.offset? code.length = some layout.nativeLen
  instructions : layout.instructions + 1 = layout.offsets.length
  shortest : layout.instructions ≤ layout.nativeLen
  longest : layout.nativeLen ≤ 32 * layout.instructions
  finalDepth : layout.finalDepth = (ls.map fun l => l.instr.opcode.stackDelta).sum
  /-- one relocation to a jump or a call, in source order -/
  relocations : List.Forall₂ (Relocates layout) (ls.filter fun l => l.instr.target?.isSome)
    layout.relocations
  /-- one helper field to a read or a print, in source order -/
  helperFields : List.Forall₂ (CallsHelper layout)
    (ls.filter fun l => l.instr = .input ∨ l.instr = .output) layout.helperFields
  disjoint : layout.fields.Pairwise Apart

end Layout

/-! ## Fields in the code of a step -/

namespace Step

/-- The `width` bytes at `pos` are code of the step. -/
def Within (s : Step) (pos : Int) (width : Nat) : Prop :=
  s.nativeIp ≤ pos ∧ pos + width ≤ (s.nativeIp + s.desc.nativeLen : Nat)

theorem Within.apart {s t : Step} {a b : Int} {v w : Nat} (hs : s.Within a v) (ht : t.Within b w)
    (h : s.nativeIp + s.desc.nativeLen ≤ t.nativeIp) : a + v ≤ b := by
  obtain ⟨-, hend⟩ := hs
  obtain ⟨hstart, -⟩ := ht
  omega

variable {ls : List Located} {s : Step} (hs : s ∈ along 0 0 ls)
include hs

theorem within_of_jump {r : Relocation} (h : s.jump? = some r) : s.Within r.nativeFrom 4 := by
  obtain ⟨hfrom, hlo, hhi⟩ := jump?_field (desc_of_mem_along hs) h
  rw [hfrom]
  exact ⟨by omega, by omega⟩

theorem within_of_call {f : HelperField} (h : s.call? = some f) : s.Within f.nativeAt 8 := by
  obtain ⟨-, hat, hfit⟩ := call?_field (desc_of_mem_along hs) h
  rw [hat]
  exact ⟨by omega, by omega⟩

theorem apart_of_jump_call {t : Step} (ht : t ∈ along 0 0 ls) {r : Relocation} {f : HelperField}
    (hj : s.jump? = some r) (hc : t.call? = some f) :
    s.nativeIp + s.desc.nativeLen ≤ t.nativeIp ∨ t.nativeIp + t.desc.nativeLen ≤ s.nativeIp := by
  have hne : s ≠ t := by
    rintro rfl
    rcases (call?_eq_some hc).2 with ⟨hi, -⟩ | ⟨hi, -⟩ <;> simp [jump?, hi] at hj
  let Apart (a b : Step) : Prop := a ≠ b →
    a.nativeIp + a.desc.nativeLen ≤ b.nativeIp ∨ b.nativeIp + b.desc.nativeLen ≤ a.nativeIp
  have hsymm : Std.Symm Apart := ⟨fun _ _ hab hba => (hab hba.symm).symm⟩
  have hpair : (along 0 0 ls).Pairwise Apart := (along_apart 0 0 ls).imp fun h _ => .inl h
  exact hpair.forall_of_forall (fun a _ hne => absurd rfl hne) hs ht hne

omit hs in
/-- What the steps of a walk give, each beside its instruction. -/
theorem forall₂_filterMap {β : Type} {R : Located → β → Prop} {p : Located → Bool}
    {f : Step → Option β} {ss : List Step} {ls : List Located}
    (hls : ss.map (fun s => (⟨s.ip, s.instr⟩ : Located)) = ls)
    (h : ∀ s ∈ ss, f s = none ∧ p ⟨s.ip, s.instr⟩ = false ∨
      ∃ y, f s = some y ∧ p ⟨s.ip, s.instr⟩ = true ∧ R ⟨s.ip, s.instr⟩ y) :
    List.Forall₂ R (ls.filter p) (ss.filterMap f) := by
  subst hls
  induction ss with
  | nil => exact .nil
  | cons s ss ih =>
      have hrest := ih fun t ht => h t (.tail _ ht)
      rw [List.map_cons]
      rcases h s (.head _) with ⟨hf, hp⟩ | ⟨y, hf, hp, hr⟩
      · rwa [List.filter_cons_of_neg (by simp [hp]), List.filterMap_cons_none hf]
      · rw [List.filter_cons_of_pos hp, List.filterMap_cons_some hf]
        exact .cons hr hrest

end Step

/-! ## The layout of instructions -/

namespace Layout

theorem fields_disjoint (n : Nat) (ls : List Located) :
    (ofInstrs n ls).fields.Pairwise Apart := by
  have hapart := Step.along_apart 0 0 ls
  refine List.pairwise_append.mpr ⟨?_, ?_, ?_⟩
  · refine List.pairwise_map.mpr (List.pairwise_filterMap.mpr ?_)
    refine hapart.imp_of_mem fun hs ht h r hr r' hr' => .inl ?_
    exact (Step.within_of_jump hs hr).apart (Step.within_of_jump ht hr') h
  · refine List.pairwise_map.mpr (List.pairwise_filterMap.mpr ?_)
    refine hapart.imp_of_mem fun hs ht h f hf f' hf' => .inl ?_
    exact (Step.within_of_call hs hf).apart (Step.within_of_call ht hf') h
  · intro a ha b hb
    obtain ⟨r, hr, rfl⟩ := List.mem_map.mp ha
    obtain ⟨f, hf, rfl⟩ := List.mem_map.mp hb
    obtain ⟨s, hs, hj⟩ := List.mem_filterMap.mp hr
    obtain ⟨t, ht, hc⟩ := List.mem_filterMap.mp hf
    have hr := Step.within_of_jump hs hj
    have hf := Step.within_of_call ht hc
    -- a relocation may lie in front of a helper field or behind it
    exact (Step.apart_of_jump_call hs ht hj hc).imp (hr.apart hf) (hf.apart hr)

section
variable {code : Bytes} (hf : (Scan.ofCode code).fault = none)
include hf

theorem offset?_iff (ip : Int) (native : Nat) :
    (ofInstrs code.length (Scan.ofCode code).instrs).offset? ip = some native ↔
      ∃ p ∈ (ofInstrs code.length (Scan.ofCode code).instrs).offsets,
        (p.1 : Int) = ip ∧ p.2 = native := by
  constructor
  · intro h
    obtain ⟨p, hp, rfl⟩ := Option.map_eq_some_iff.mp h
    exact ⟨p, List.mem_of_find?_eq_some hp, by simpa using List.find?_some hp, rfl⟩
  · rintro ⟨p, hp, rfl, rfl⟩
    exact offset?_of_mem hf hp

theorem offset?_zero (hne : code ≠ []) :
    (ofInstrs code.length (Scan.ofCode code).instrs).offset? 0 = some 0 := by
  obtain ⟨is, hcode, hinstrs⟩ := Scan.exists_place hf
  cases is with
  | nil => exact absurd hcode hne
  | cons i is =>
      have hfirst : (Scan.ofCode code).instrs = [] ++ ⟨0, i⟩ :: Located.place (0 + i.len) is :=
        hinstrs
      exact offset?_append hf hfirst

theorem offsets_pairwise :
    (ofInstrs code.length (Scan.ofCode code).instrs).offsets.Pairwise
      fun p q => p.1 < q.1 ∧ p.2 < q.2 := by
  refine (List.pairwise_map.mp (offsets_ascending hf)).and (List.pairwise_append.mpr ⟨?_, ?_, ?_⟩)
  · refine List.pairwise_map.mpr ((Step.along_apart 0 0 _).imp_of_mem fun hs _ h => ?_)
    have hpos := Step.nativeLen_pos hs
    simp only
    omega
  · exact List.pairwise_singleton _ _
  · intro p hp q hq
    obtain ⟨s, hs, rfl⟩ := List.mem_map.mp hp
    obtain rfl := List.mem_singleton.mp hq
    have hpos := Step.nativeLen_pos hs
    have hend := Step.end_le hs
    simp only
    omega

variable {s : Step} (hs : s ∈ Step.along 0 0 (Scan.ofCode code).instrs)
include hs

theorem inBlock_of_within {pos : Int} {width : Nat} (h : s.Within pos width) :
    (ofInstrs code.length (Scan.ofCode code).instrs).InBlock ⟨s.ip, s.instr⟩ pos width :=
  ⟨s.nativeIp, s.nativeIp + s.desc.nativeLen, offset?_step hf hs, offset?_next hf hs, h⟩

theorem relocates_step :
    s.jump? = none ∧ s.instr.target?.isSome = false ∨
      ∃ r, s.jump? = some r ∧ s.instr.target?.isSome = true ∧
        (ofInstrs code.length (Scan.ofCode code).instrs).Relocates ⟨s.ip, s.instr⟩ r := by
  obtain ⟨ip, instr, desc, native, depth⟩ := s
  cases instr with
  | branch b t =>
      have hin := inBlock_of_within hf hs (Step.within_of_jump hs rfl)
      refine .inr ⟨_, rfl, rfl, ?_⟩
      cases b with
      | jmp => exact .jmp hin
      | call => exact .call hin
      | cond c => exact .cond hin
  | _ => exact .inl ⟨rfl, rfl⟩

theorem callsHelper_step :
    s.call? = none ∧ decide (s.instr = .input ∨ s.instr = .output) = false ∨
      ∃ f, s.call? = some f ∧ decide (s.instr = .input ∨ s.instr = .output) = true ∧
        (ofInstrs code.length (Scan.ofCode code).instrs).CallsHelper ⟨s.ip, s.instr⟩ f := by
  obtain ⟨ip, instr, desc, native, depth⟩ := s
  cases instr with
  | input =>
      exact .inr ⟨_, rfl, rfl, .input (inBlock_of_within hf hs (Step.within_of_call hs rfl))⟩
  | output =>
      exact .inr ⟨_, rfl, rfl, .output (inBlock_of_within hf hs (Step.within_of_call hs rfl))⟩
  | _ => exact .inl ⟨rfl, by simp⟩

end

end Layout

/-- The layout of an accepted program has all that is said of layouts, for the instructions
that are read from its start to its end. -/
theorem layout_invariants {code : Bytes} {layout : Layout}
    (hl : Layout.ofCode (some code) = .ok layout) :
    ∃ ls, Reads code 0 ls code.length ∧ layout.Invariants code ls := by
  obtain ⟨hne, hf, rfl, -⟩ := Layout.ofCode_eq_ok hl
  have hmap := Step.map_along 0 0 (Scan.ofCode code).instrs
  have hbounds := span_bounds 0 (Scan.ofCode code).instrs
  rw [← Step.length_along 0 0] at hbounds
  refine ⟨_, Scan.reads_end hf, ?_⟩
  exact {
    keys := Layout.offsets_keys _ _
    found := Layout.offset?_iff hf
    ascending := Layout.offsets_pairwise hf
    first := Layout.offset?_zero hf hne
    last := Layout.offset?_end hf
    instructions := by simp [Layout.ofInstrs, Layout.ofWalk]
    shortest := hbounds.1
    longest := hbounds.2
    finalDepth := rfl
    relocations := Step.forall₂_filterMap hmap fun s hs => Layout.relocates_step hf hs
    helperFields := Step.forall₂_filterMap hmap fun s hs => Layout.callsHelper_step hf hs
    disjoint := Layout.fields_disjoint _ _ }

def Layout.sample : Bytes :=
  [Instr.branch .call 6, .hlt, .input, .push (.imm 0), .branch (.cond .e) 5, .output,
    .ret].flatMap Instr.encode

def Layout.ofSample : Layout :=
  ⟨26, 100, 7, -1,
    [(0, 0), (5, 5), (6, 15), (7, 45), (19, 56), (24, 67), (25, 99), (26, 100)],
    [⟨0, 6, 1, .direct⟩, ⟨19, 5, 63, .conditional⟩], [⟨30, .input⟩, ⟨79, .output⟩]⟩

theorem layout_invariants_sample :
    Layout.ofCode (some Layout.sample) = .ok Layout.ofSample ∧
      ∃ ls, Reads Layout.sample 0 ls 26 ∧ Layout.ofSample.Invariants Layout.sample ls := by
  have hl : Layout.ofCode (some Layout.sample) = .ok Layout.ofSample := rfl
  exact ⟨hl, layout_invariants hl⟩

end StackCode.Lowering
