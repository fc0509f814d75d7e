import Mathlib.Data.List.Pairwise
import StackCode.Lowering.Image
import StackCode.Proofs.Lowering.Filling
import StackCode.Proofs.Lowering.Patching

/-!
# The image of a program

The machine code that the passes are to produce, said without the walk: the template that
the catalog has for each instruction, at the depth that the instructions in front of it
leave, with its field filled in; branch distances are taken from the lengths of the blocks
in front of the target. For every program that is laid out, filling and patching a buffer
succeed and leave exactly these blocks in it, in source order, and nothing behind them is
changed.
-/
namespace StackCode.Lowering

open Bytecode

namespace Expected

def front (ls : List Located) (ip : Int) : List Located := ls.filter fun l => (l.ip : Int) < ip

/-- The sum of the stack effects in front of a source offset. -/
def depth (ls : List Located) (ip : Int) : Int :=
  ((front ls ip).map fun l => l.instr.opcode.stackDelta).sum

/-- The catalog's template of an instruction where it stands. -/
def template? (ls : List Located) (l : Located) : Option Template :=
  (Catalog.find? (Variant.ofInstr l.instr (depth ls l.ip))).map Descriptor.template

def blockLen (ls : List Located) (l : Located) : Nat :=
  ((template? ls l).map fun t => t.code.length).getD 0

def offset (ls : List Located) (ip : Int) : Nat := ((front ls ip).map (blockLen ls)).sum

/-- What is filled into a field of an instruction's code, at `pos` in its block. -/
def field (h : Helpers) (ls : List Located) (l : Located) (pos : Nat) (slot : Slot) : Bytes :=
  if slot = .imm64 then Bytes.ofWord64 l.instr.imm
  else if slot = .disp32 then Bytes.ofWord32 l.instr.disp.toUInt32
  else if slot = .helper then
    Bytes.ofWord64 (if l.instr = .output then h.output else h.input)
  else
    let target := (l.instr.target?.map Int32.toInt).getD 0
    distance ((offset ls target : Int) - ((offset ls l.ip + pos : Nat) + 4))

/-- The code of an instruction: its template with every slot filled in. -/
def block (h : Helpers) (ls : List Located) (l : Located) : Bytes :=
  match template? ls l with
  | none => []
  | some t =>
      t.slots.foldl (fun code m => code.overwrite m.2.toNat (field h ls l m.2.toNat m.1)) t.code

def image (h : Helpers) (ls : List Located) : Bytes := ls.flatMap (block h ls)

/-- The template has exactly the slot that the instruction fills in, wholly inside its
code. -/
def Fits (t : Template) (i : Instr) : Prop :=
  t.slots.map Prod.fst = (Slot.ofInstr? i).toList ∧
    ∀ m ∈ t.slots, 0 ≤ m.2 ∧ m.2 + m.1.width ≤ t.code.length

theorem length_block (h : Helpers) (ls : List Located) (l : Located) :
    (block h ls l).length = blockLen ls l := by
  unfold block blockLen
  cases template? ls l with
  | none => rfl
  | some t => exact Bytes.length_foldl_overwrite _ _ t.slots t.code

section
variable {ls : List Located} (hasc : ls.Pairwise fun a b => a.ip < b.ip)
include hasc

theorem front_eq {before after : List Located} {l : Located} (h : ls = before ++ l :: after) :
    front ls l.ip = before := by
  subst ls
  obtain ⟨-, hl, hb⟩ := List.pairwise_append.mp hasc
  have ha := (List.pairwise_cons.mp hl).1
  have h1 : before.filter (fun k => decide ((k.ip : Int) < l.ip)) = before := by
    refine List.filter_eq_self.mpr fun k hk => ?_
    have := hb k hk l (.head _)
    simpa using this
  have h2 : (l :: after).filter (fun k => decide ((k.ip : Int) < l.ip)) = [] := by
    refine List.filter_eq_nil_iff.mpr fun k hk => ?_
    rcases List.mem_cons.mp hk with rfl | hk
    · simp
    · have := ha k hk
      simp only [decide_eq_true_eq]
      omega
  rw [front, List.filter_append, h1, h2, List.append_nil]

theorem template?_eq {before after : List Located} {l : Located} (h : ls = before ++ l :: after) :
    template? ls l = some (Descriptor.ofInstr l.instr (rise before)).template := by
  have hd : depth ls l.ip = rise before := by rw [depth, front_eq hasc h, rise]
  rw [template?, hd, Catalog.find?_ofInstr, Option.map_some]

theorem sum_blockLen {before mid after : List Located} (h : ls = before ++ (mid ++ after)) :
    (mid.map (blockLen ls)).sum = span (rise before) mid := by
  induction mid generalizing before with
  | nil => rfl
  | cons l mid ih =>
      have hnext := @ih (before ++ [l]) (by simpa using h)
      have hl : blockLen ls l = (Descriptor.ofInstr l.instr (rise before)).nativeLen := by
        rw [blockLen, template?_eq hasc h]
        rfl
      rw [List.map_cons, List.sum_cons, hnext, hl, rise_append, rise_cons, rise_nil, Int.add_zero,
        span]

theorem offset_eq {before after : List Located} {l : Located} (h : ls = before ++ l :: after) :
    offset ls l.ip = span 0 before := by
  have hs : (before.map (blockLen ls)).sum = span (rise []) before := sum_blockLen hasc h
  rw [offset, front_eq hasc h, hs, rise_nil]

theorem offset_step {s : Step} (hs : s ∈ Step.along 0 0 ls) : offset ls s.ip = s.nativeIp := by
  obtain ⟨before, after, hl, hn, -, -⟩ := Step.mem_along.mp hs
  rw [hn, Nat.zero_add]
  exact offset_eq hasc hl

theorem depth_step {s : Step} (hs : s ∈ Step.along 0 0 ls) : depth ls s.ip = s.depth := by
  obtain ⟨before, after, hl, -, hd, -⟩ := Step.mem_along.mp hs
  rw [hd, Int.zero_add, depth, front_eq hasc hl, rise]

theorem template?_step {s : Step} (hs : s ∈ Step.along 0 0 ls) :
    template? ls ⟨s.ip, s.instr⟩ = some s.desc.template := by
  obtain ⟨before, after, hl, -, hd, he⟩ := Step.mem_along.mp hs
  rw [template?_eq hasc hl, he, hd, Int.zero_add]

end

end Expected

/-! ## One block -/

theorem Slot.eq_branch {i : Instr} (h : Slot.ofInstr? i = some .rel32) :
    ∃ b t, i = .branch b t := by
  cases i with
  | branch b t => exact ⟨b, t, rfl⟩
  | push src =>
      cases src with
      | mem c => cases c <;> simp [ofInstr?, ofCell?, disp32, rel32] at h
      | _ => simp [ofInstr?, imm64, rel32] at h
  | pop dst =>
      cases dst with
      | mem c => cases c <;> simp [ofInstr?, ofCell?, disp32, rel32] at h
      | _ => simp [ofInstr?] at h
  | input | output => simp [ofInstr?, helper, rel32] at h
  | _ => simp [ofInstr?] at h

namespace Step

theorem fits {s : Step} (hs : s.desc = .ofInstr s.instr s.depth) :
    Expected.Fits s.desc.template s.instr := by
  cases h : Slot.ofInstr? s.instr with
  | none => simp [Expected.Fits, slots_eq_nil hs h, h]
  | some slot =>
      obtain ⟨hslots, -, hlen⟩ := slots_eq hs h
      unfold Descriptor.nativeLen at hlen
      refine ⟨by simp [hslots, h], fun m hm => ?_⟩
      rw [hslots] at hm
      obtain rfl := List.mem_singleton.mp hm
      exact ⟨Int.natCast_nonneg _, Int.ofNat_le.mpr hlen⟩

/-- Filling writes what is expected into every field but that of a jump. -/
theorem filled_eq (h : Helpers) (ls : List Located) (s : Step) :
    s.filled h = match Slot.ofInstr? s.instr with
      | none => s.desc.template.code
      | some slot =>
          if slot = .rel32 then s.desc.template.code
          else s.desc.template.code.overwrite s.fieldPos
            (Expected.field h ls ⟨s.ip, s.instr⟩ s.fieldPos slot) := by
  obtain ⟨ip, i, desc, native, depth⟩ := s
  cases i with
  | push src =>
      cases src with
      | mem c => cases c <;> rfl
      | _ => rfl
  | pop dst =>
      cases dst with
      | mem c => cases c <;> rfl
      | _ => rfl
  | _ => rfl

section
variable {s : Step} (hs : s.desc = .ofInstr s.instr s.depth)
include hs

/-- A block of the expected image is what filling writes, with the distance of a jump
written over its field. -/
theorem expected_block {ls : List Located} (h : Helpers)
    (ht : Expected.template? ls ⟨s.ip, s.instr⟩ = some s.desc.template)
    (ho : Expected.offset ls s.ip = s.nativeIp) :
    Expected.block h ls ⟨s.ip, s.instr⟩ =
      match s.jump? with
      | none => s.filled h
      | some r => (s.filled h).overwrite s.fieldPos
          (distance ((Expected.offset ls r.sourceTo : Int) - (r.nativeFrom + 4))) := by
  have hcode := (filled_eq h ls s).symm
  rw [Expected.block, ht]
  cases hslot : Slot.ofInstr? s.instr with
  | none =>
      have hj : s.jump? = none := by
        unfold jump?
        split
        next b t hi => simp [hi, Slot.ofInstr?] at hslot
        next => rfl
      rw [hj, ← hcode, hslot]
      simp [slots_eq_nil hs hslot]
  | some slot =>
      obtain ⟨hslots, hat, -⟩ := slots_eq hs hslot
      rw [hslot] at hcode
      simp only [hslots, List.foldl_cons, List.foldl_nil, Int.toNat_natCast]
      by_cases hrel : slot = .rel32
      · obtain ⟨b, t, hi⟩ := Slot.eq_branch (hrel ▸ hslot)
        have hj : s.jump? = some ⟨s.ip, t.toInt, s.fieldAt, .ofBranch b⟩ := by
          rw [jump?, hi]
        simp only [if_pos hrel] at hcode
        rw [hj, ← hcode, hrel, hi]
        simp only [Expected.field, ho, hat]
        rfl
      · have hj : s.jump? = none := by
          unfold jump?
          split
          next b t hi =>
            rw [hi] at hslot
            exact absurd (Option.some.inj hslot).symm hrel
          next => rfl
        simp only [if_neg hrel] at hcode
        rw [hj, ← hcode]

end

end Step

/-! ## Filling -/

namespace Filled

theorem ofCode_eq {code dst : Bytes} {layout : Layout} (h : Helpers)
    (hl : Layout.ofCode (some code) = .ok layout) (hd : layout.nativeLen ≤ dst.length) :
    ofCode (some code) (some layout.nativeLen) (some dst) h =
      ⟨layout.nativeLen, some ((Step.along 0 0 (Scan.ofCode code).instrs).flatMap
        (Step.filled h) ++ dst.drop layout.nativeLen), .done⟩ := by
  obtain ⟨hne, hf, -⟩ := Layout.ofCode_eq_ok hl
  have hsize := Layout.nativeLen_eq hl
  rw [hsize] at hd ⊢
  have hrun := follow_front h hd (Nat.le_refl _) []
  rw [List.append_nil, follow, List.drop_take_self, List.append_nil] at hrun
  rw [ofCode_of_le hd, into, Walk.ofCode_eq hne, hf]
  simp only [hrun, Option.map_none, if_pos]

end Filled

/-! ## Patching -/

namespace Relocation

/-- Fields that do not meet, in ascending order. -/
def Apart (rs : List Relocation) : Prop :=
  rs.Pairwise fun a b => 0 ≤ a.nativeFrom ∧ a.nativeFrom + 4 ≤ b.nativeFrom

theorem length_distance (n : Int) : (distance n).length = 4 := by
  simp [distance]

theorem writeAll_perm {target : Int → Nat} {a b : List Relocation} (hp : a.Perm b)
    (ha : Apart a) (native : Bytes) : writeAll target a native = writeAll target b native := by
  -- patching goes by targets, the fields lie in the order of the jumps
  let Commute (r s : Relocation) : Prop := ∀ native : Bytes,
    s.write (target s.sourceTo) (r.write (target r.sourceTo) native) =
      r.write (target r.sourceTo) (s.write (target s.sourceTo) native)
  have hsymm : Std.Symm Commute := ⟨fun _ _ hc native => (hc native).symm⟩
  have hpair : a.Pairwise Commute := by
    refine ha.imp fun {r s} hrs native => ?_
    refine Bytes.overwrite_comm native (.inl ?_)
    rw [length_distance]
    omega
  have hall := hpair.forall_of_forall (fun _ _ _ => rfl)
  exact hp.foldl_eq' (fun r hr s hs native => hall hr hs native) native

end Relocation

namespace Step

/-- The jumps of a walk, in source order, have fields that do not meet. -/
theorem apart_along (native : Nat) (depth : Int) (ls : List Located) :
    Relocation.Apart ((along native depth ls).filterMap jump?) ∧
      ∀ r ∈ (along native depth ls).filterMap jump?,
        (native : Int) ≤ r.nativeFrom ∧ r.nativeFrom + 4 ≤ (native + span depth ls : Nat) := by
  induction ls generalizing native depth with
  | nil => exact ⟨.nil, by simp [along]⟩
  | cons l ls ih =>
      obtain ⟨hrest, hin⟩ := ih (native + (Descriptor.ofInstr l.instr depth).nativeLen)
        (depth + l.instr.opcode.stackDelta)
      rw [along, span]
      cases hj : jump? ⟨l.ip, l.instr, .ofInstr l.instr depth, native, depth⟩ with
      | none =>
          rw [List.filterMap_cons_none hj]
          refine ⟨hrest, fun r hr => ?_⟩
          have := hin r hr
          omega
      | some r =>
          obtain ⟨hfrom, hlo, hhi⟩ := jump?_field rfl hj
          rw [List.filterMap_cons_some hj]
          simp only at hlo hhi
          refine ⟨.cons (fun t ht => ?_) hrest, fun t ht => ?_⟩
          · have := hin t ht
            omega
          · rcases List.mem_cons.mp ht with rfl | ht
            · omega
            · have := hin t ht
              omega

theorem write_filled {s : Step} (hs : s.desc = .ofInstr s.instr s.depth) (h : Helpers)
    {r : Relocation} (hj : s.jump? = some r) {lead : Bytes} (hlead : lead.length = s.nativeIp)
    (target : Nat) (rest : Bytes) :
    r.write target (lead ++ (s.filled h ++ rest)) =
      lead ++ ((s.filled h).overwrite s.fieldPos
        (distance ((target : Int) - (r.nativeFrom + 4))) ++ rest) := by
  obtain ⟨hfrom, hlo, hhi⟩ := jump?_field hs hj
  have hat : r.nativeFrom.toNat = lead.length + s.fieldPos := by
    unfold fieldPos
    omega
  have hfit : s.fieldPos + (distance ((target : Int) - (r.nativeFrom + 4))).length ≤
      (s.filled h).length := by
    rw [Relocation.length_distance, length_filled]
    unfold fieldPos
    omega
  rw [Relocation.write, hat, Bytes.overwrite_append_right, Bytes.overwrite_append_left hfit]

/-- Writing the distances of a walk's jumps finishes its blocks, wherever they stand. -/
theorem writeAll_along {all : List Located} (h : Helpers) {native : Nat} {depth : Int}
    {ls : List Located} {lead tail : Bytes} (hlead : lead.length = native)
    (ht : ∀ s ∈ along native depth ls,
      Expected.template? all ⟨s.ip, s.instr⟩ = some s.desc.template)
    (ho : ∀ s ∈ along native depth ls, Expected.offset all s.ip = s.nativeIp) :
    Relocation.writeAll (Expected.offset all) ((along native depth ls).filterMap jump?)
        (lead ++ ((along native depth ls).flatMap (filled h) ++ tail)) =
      lead ++ (ls.flatMap (Expected.block h all) ++ tail) := by
  induction ls generalizing native depth lead with
  | nil => rfl
  | cons l ls ih =>
      let s : Step := ⟨l.ip, l.instr, .ofInstr l.instr depth, native, depth⟩
      have hs : s.desc = .ofInstr s.instr s.depth := rfl
      have hmem : s ∈ along native depth (l :: ls) := .head _
      have hblock : Expected.block h all l = _ := expected_block hs h (ht s hmem) (ho s hmem)
      have hlen : (Expected.block h all l).length = s.desc.nativeLen := by
        rw [Expected.length_block, Expected.blockLen, ht s hmem]
        rfl
      -- the finished block moves to the bytes in front, where no later field lies
      have hnext := @ih (native + s.desc.nativeLen) (depth + l.instr.opcode.stackDelta)
        (lead ++ Expected.block h all l) (by rw [List.length_append, hlead, hlen])
        (fun t htail => ht t (.tail _ htail)) (fun t htail => ho t (.tail _ htail))
      rw [List.append_assoc, List.append_assoc] at hnext
      rw [along, List.flatMap_cons, List.flatMap_cons, List.append_assoc, List.append_assoc]
      cases hj : s.jump? with
      | none =>
          simp only [hj] at hblock
          rw [List.filterMap_cons_none hj]
          rw [hblock] at hnext ⊢
          exact hnext
      | some r =>
          simp only [hj] at hblock
          rw [List.filterMap_cons_some hj, Relocation.writeAll, List.foldl_cons,
            write_filled hs h hj hlead, ← hblock]
          exact hnext

end Step

namespace Expected

theorem writeAll_eq {ls : List Located} (hasc : ls.Pairwise fun a b => a.ip < b.ip) (h : Helpers)
    (tail : Bytes) :
    Relocation.writeAll (offset ls) ((Step.along 0 0 ls).filterMap Step.jump?)
      ((Step.along 0 0 ls).flatMap (Step.filled h) ++ tail) = image h ls ++ tail := by
  have hlead : ([] : Bytes).length = 0 := rfl
  exact Step.writeAll_along h hlead (fun s hs => template?_step hasc hs)
    (fun s hs => offset_step hasc hs)

theorem length_blocks {ls : List Located} (hasc : ls.Pairwise fun a b => a.ip < b.ip)
    (h : Helpers) {before after : List Located} (hl : ls = before ++ after) :
    (before.flatMap (block h ls)).length = span 0 before := by
  have hs : (before.map (blockLen ls)).sum = span (rise []) before := sum_blockLen hasc hl
  rw [List.length_flatMap, funext (length_block h ls), hs, rise_nil]

theorem image_eq_append (h : Helpers) {ls before after : List Located} {l : Located}
    (hl : ls = before ++ l :: after) :
    image h ls = before.flatMap (block h ls) ++
      (block h ls l ++ after.flatMap (block h ls)) := by
  conv_lhs => rw [image, hl, List.flatMap_append, List.flatMap_cons, ← hl]

theorem length_image {ls : List Located} (hasc : ls.Pairwise fun a b => a.ip < b.ip)
    (h : Helpers) : (image h ls).length = span 0 ls :=
  length_blocks hasc h (List.append_nil ls).symm

end Expected

namespace Patched

/-- Patching a filled image succeeds and finishes its blocks. -/
theorem ofCode_eq {code tail : Bytes} {layout : Layout} (h : Helpers)
    (hl : Layout.ofCode (some code) = .ok layout) :
    ofCode (some code) layout.relocations
        (some ((Step.along 0 0 (Scan.ofCode code).instrs).flatMap (Step.filled h) ++ tail)) =
      ⟨layout.relocations.length, some (Expected.image h (Scan.ofCode code).instrs ++ tail),
        .done⟩ := by
  obtain ⟨hne, hf, hlayout, htargets⟩ := Layout.ofCode_eq_ok hl
  have hrelocs : layout.relocations =
      (Step.along 0 0 (Scan.ofCode code).instrs).filterMap Step.jump? := by rw [hlayout]; rfl
  have hasc := Scan.instrs_ascending hf
  obtain ⟨hapart, hin⟩ := Step.apart_along 0 0 (Scan.ofCode code).instrs
  have hperm := Relocation.sortByTarget_perm layout.relocations
  have hinside : ∀ r ∈ Relocation.sortByTarget layout.relocations, r.Inside
      ((Step.along 0 0 (Scan.ofCode code).instrs).flatMap (Step.filled h) ++ tail).length := by
    intro r hr
    have hr := hin r (hrelocs ▸ hperm.mem_iff.mp hr)
    rw [List.length_append, Step.length_filled_along]
    exact ⟨hr.1, by omega⟩
  have hreached : ∀ r ∈ Relocation.sortByTarget layout.relocations,
      Patching.reached (Step.along 0 0 (Scan.ofCode code).instrs) r = true := by
    intro r hr
    have hb := htargets r (hperm.mem_iff.mp hr)
    rw [hlayout] at hb
    obtain ⟨s, hs, ht⟩ := Layout.exists_step_of_isBoundary hb
    exact List.any_eq_true.mpr ⟨s, hs, by simpa using ht⟩
  obtain ⟨rest, missed, hfollow, hleft⟩ := Patching.follow_eq
    (Step.along_ascending hasc 0 0) (fun s hs => Expected.offset_step hasc hs)
    (Relocation.sortByTarget_ordered layout.relocations)
    (p := ⟨_, 0, []⟩) (fun r hr => hinside r (List.mem_of_mem_filter hr))
  have hnone : missed ++ rest = [] := by
    rw [hleft, List.filter_eq_nil_iff.mpr (by simpa using hreached)]
    rfl
  rw [List.filter_eq_self.mpr hreached] at hfollow
  have hwrite := Expected.writeAll_eq hasc h tail
  rw [← hrelocs, Relocation.writeAll_perm hperm.symm (hrelocs ▸ hapart)] at hwrite
  simp only [ofCode, into, Walk.ofCode_eq hne, hf, Option.map_none, hfollow, hnone,
    hperm.length_eq, Nat.zero_add]
  rw [hwrite]

end Patched

/-! ## The passes together -/

/-- The passes in a row end with the image of an accepted program. -/
theorem Image.ofCode_eq {code : Bytes} {layout : Layout} (h : Helpers)
    (hl : Layout.ofCode (some code) = .ok layout) :
    Image.ofCode (some code) h =
      .ok ⟨layout, layout.nativeLen, layout.relocations.length,
        Expected.image h (Scan.ofCode code).instrs⟩ := by
  have hblank : (List.replicate layout.nativeLen (0 : UInt8)).length = layout.nativeLen :=
    List.length_replicate
  have hfilled := Filled.ofCode_eq h hl (Nat.le_of_eq hblank.symm)
  rw [List.drop_of_length_le (Nat.le_of_eq hblank), List.append_nil] at hfilled
  have hpatched := @Patched.ofCode_eq code [] layout h hl
  rw [List.append_nil, List.append_nil] at hpatched
  simp only [ofCode, hl, into, hfilled, hpatched, Option.getD_some]

theorem Step.length_jumps_along (native : Nat) (depth : Int) (ls : List Located) :
    ((Step.along native depth ls).filterMap Step.jump?).length =
      (ls.filterMap fun l => l.instr.target?.map fun t => (l, t.toInt)).length := by
  induction ls generalizing native depth with
  | nil => rfl
  | cons l ls ih =>
      cases hi : l.instr <;> simp [along, List.filterMap_cons, jump?, hi, Instr.target?, ih]

/-- Every program that is laid out is filled and patched into its image: filling counts the
bytes of the layout, patching counts the jumps of the program, the buffer then holds the
code of each instruction in source order, and what is behind the image is as it was. -/
theorem passes_produce_image {code dst : Bytes} {layout : Layout} (h : Helpers)
    (hl : Layout.ofCode (some code) = .ok layout) (hd : layout.nativeLen ≤ dst.length) :
    let ls := (Scan.ofCode code).instrs
    let filled := Filled.ofCode (some code) (some layout.nativeLen) (some dst) h
    let patched := Patched.ofCode (some code) layout.relocations filled.native
    (∀ l ∈ ls, ∃ t, Expected.template? ls l = some t ∧ Expected.Fits t l.instr) ∧
      (Expected.image h ls).length = layout.nativeLen ∧
      (filled.emitted = layout.nativeLen ∧ filled.outcome = .done) ∧
      (patched.patched = (Scan.ofCode code).jumps.length ∧ patched.outcome = .done) ∧
      patched.native = some (Expected.image h ls ++ dst.drop layout.nativeLen) := by
  obtain ⟨-, hf, hlayout, -⟩ := Layout.ofCode_eq_ok hl
  have hasc := Scan.instrs_ascending hf
  have hfilled := Filled.ofCode_eq h hl hd
  have hpatched := @Patched.ofCode_eq code (dst.drop layout.nativeLen) layout h hl
  have hcount : layout.relocations.length = (Scan.ofCode code).jumps.length := by
    rw [hlayout]
    exact Step.length_jumps_along 0 0 _
  have himage : (Expected.image h (Scan.ofCode code).instrs).length = layout.nativeLen := by
    rw [Expected.length_image hasc, Layout.nativeLen_eq hl]
  simp only [hfilled, hpatched, hcount, himage, and_self, and_true]
  intro l hmem
  rw [← Step.map_along 0 0 (Scan.ofCode code).instrs] at hmem
  obtain ⟨s, hs, rfl⟩ := List.mem_map.mp hmem
  exact ⟨_, Expected.template?_step hasc hs, Step.fits (Step.desc_of_mem_along hs)⟩

/-- A literal, a read at odd depth, a store and a jump forward. -/
def Expected.sample : Bytes :=
  [Instr.push (.imm 0x3ff8000000000000), .input, .pop (.mem (.off .bx 8)), .branch .jmp 26,
    .ret].flatMap Instr.encode

def Expected.sampleLayout : Layout :=
  ⟨27, 57, 5, 1, [(0, 0), (12, 11), (13, 43), (21, 51), (26, 56), (27, 57)],
    [⟨21, 26, 52, .direct⟩], [⟨27, .input⟩]⟩

theorem passes_produce_image_sample :
    Layout.ofCode (some Expected.sample) = .ok Expected.sampleLayout ∧
      (Patched.ofCode (some Expected.sample) Expected.sampleLayout.relocations
        (Filled.ofCode (some Expected.sample) (some 57) (some (List.replicate 60 0xcc))
          ⟨1, 2⟩).native).native =
        some (Expected.image ⟨1, 2⟩ (Scan.ofCode Expected.sample).instrs ++
          [0xcc, 0xcc, 0xcc]) := by
  have hl : Layout.ofCode (some Expected.sample) = .ok Expected.sampleLayout := rfl
  have hd : Expected.sampleLayout.nativeLen ≤ (List.replicate 60 (0xcc : UInt8)).length := by
    decide
  exact ⟨hl, (passes_produce_image ⟨1, 2⟩ hl hd).2.2.2.2⟩

end StackCode.Lowering
