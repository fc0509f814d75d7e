import StackCode.Proofs.Lowering.Acceptance
import StackCode.Proofs.Lowering.Placement

/-!
# Linking two programs

A program can be put behind another one if its jumps are moved along: the length of the first
program is added to every target of the second. If the first leaves an even number of words on
the stack, helper calls of the second need padding where they needed it before, so the machine
code of every instruction is the same, wherever it stands, and the image of the whole is the
two images in a row.
-/
namespace StackCode.Bytecode

/-- The instruction with `n` added to its target, if it has one. -/
def Instr.retarget (n : Nat) : Instr → Instr
  | .branch b t => .branch b (.ofInt (t.toInt + n))
  | i => i

/-- The instruction `n` bytes further on, its target moved along. -/
def Located.move (n : Nat) (l : Located) : Located := ⟨n + l.ip, l.instr.retarget n⟩

/-- Adds `n` to the target of a jump, in its field. -/
def moveTarget (n : Nat) (code : Bytes) (j : Located × Int) : Bytes :=
  code.overwrite (j.1.ip + 1) (Bytes.ofWord32 (Int32.ofInt (j.2 + n)).toUInt32)

/-- A program with `n` added to the target field of each of its jumps. -/
def shiftTargets (n : Nat) (code : Bytes) : Bytes :=
  (Scan.ofCode code).jumps.foldl (moveTarget n) code

namespace Instr

@[simp] theorem len_retarget (n : Nat) (i : Instr) : (i.retarget n).len = i.len := by
  cases i <;> rfl

@[simp] theorem opcode_retarget (n : Nat) (i : Instr) : (i.retarget n).opcode = i.opcode := by
  cases i <;> rfl

theorem target?_retarget (n : Nat) (i : Instr) :
    (i.retarget n).target? = i.target?.map fun t => .ofInt (t.toInt + n) := by
  cases i <;> rfl

end Instr

theorem moveTarget_encode (n : Nat) (before : Bytes) (b : Branch) (t : Int32) (rest : Bytes) :
    moveTarget n (before ++ ((Instr.branch b t).encode ++ rest))
        (⟨before.length, .branch b t⟩, t.toInt) =
      before ++ (((Instr.branch b t).retarget n).encode ++ rest) := by
  have hfield := Bytes.overwrite_middle (before ++ [(Opcode.branch b).toByte])
    (Bytes.ofWord32 t.toUInt32) rest (Bytes.ofWord32 (Int32.ofInt (t.toInt + n)).toUInt32) (by simp)
  simpa [moveTarget, Instr.retarget, Instr.encode_branch] using hfield

/-- Adding to the fields of all jumps is adding to the targets of all instructions. -/
theorem foldl_moveTarget (n : Nat) (before : Bytes) (is : List Instr) :
    ((Located.place before.length is).filterMap fun l =>
        l.instr.target?.map fun t => (l, t.toInt)).foldl (moveTarget n)
      (before ++ is.flatMap Instr.encode) =
    before ++ (is.map (Instr.retarget n)).flatMap Instr.encode := by
  induction is generalizing before with
  | nil => rfl
  | cons i is ih =>
      -- a finished instruction joins what is in front, where no later field lies
      have hnext := ih (before ++ (i.retarget n).encode)
      rw [List.length_append, Instr.length_encode, Instr.len_retarget, List.append_assoc,
        List.append_assoc] at hnext
      rw [List.map_cons, List.flatMap_cons, List.flatMap_cons, ← hnext]
      cases i with
      | branch b t => exact congrArg (List.foldl (moveTarget n) · _) (moveTarget_encode n ..)
      | _ => rfl

theorem shiftTargets_encodeAll (n : Nat) (is : List Instr) :
    shiftTargets n (is.flatMap Instr.encode) =
      (is.map (Instr.retarget n)).flatMap Instr.encode := by
  have hscan : Scan.ofCode (is.flatMap Instr.encode) = ⟨Located.place 0 is, none⟩ :=
    Scan.ofBytes_encodeAll 0 is
  rw [shiftTargets, Scan.jumps, hscan]
  exact foldl_moveTarget n [] is

namespace Located

theorem place_append (ip : Nat) (a b : List Instr) :
    place ip (a ++ b) = place ip a ++ place (ip + (a.flatMap Instr.encode).length) b := by
  induction a generalizing ip with
  | nil => rfl
  | cons i a ih =>
      simp only [List.cons_append, place, ih, List.flatMap_cons, List.length_append,
        Instr.length_encode, Nat.add_assoc]

theorem place_retarget (n ip : Nat) (is : List Instr) :
    place (n + ip) (is.map (Instr.retarget n)) = (place ip is).map (move n) := by
  induction is generalizing ip with
  | nil => rfl
  | cons i is ih =>
      simp only [List.map_cons, place, Instr.len_retarget, Nat.add_assoc, ih]
      rfl

end Located

/-- The second program is decoded behind the first one, with its targets moved along. -/
theorem Scan.ofCode_link {a b : Bytes} (ha : (ofCode a).fault = none)
    (hb : (ofCode b).fault = none) :
    ofCode (a ++ shiftTargets a.length b) =
        ⟨(ofCode a).instrs ++ (ofCode b).instrs.map (Located.move a.length), none⟩ ∧
      (shiftTargets a.length b).length = b.length := by
  obtain ⟨as, rfl, hla⟩ := exists_place ha
  obtain ⟨bs, rfl, hlb⟩ := exists_place hb
  rw [hla, hlb, shiftTargets_encodeAll, ← List.flatMap_append]
  constructor
  · have hscan := ofBytes_encodeAll 0
      (as ++ bs.map (Instr.retarget (as.flatMap Instr.encode).length))
    rw [Located.place_append, Nat.add_comm, Located.place_retarget] at hscan
    exact hscan
  · simp [List.length_flatMap, Function.comp_def]

end StackCode.Bytecode

namespace StackCode.Lowering

open Bytecode X64

/-! ## Steps of the second program -/

theorem Step.located_mem {native : Nat} {depth : Int} {ls : List Located} {s : Step}
    (h : s ∈ along native depth ls) : (⟨s.ip, s.instr⟩ : Located) ∈ ls := by
  rw [← map_along native depth ls]
  exact List.mem_map_of_mem h

/-- The step behind `n` bytes of source, `size` bytes of machine code and `rise` words. -/
def Step.move (n size : Nat) (rise : Int) (s : Step) : Step :=
  ⟨n + s.ip, s.instr.retarget n, s.desc, size + s.nativeIp, rise + s.depth⟩

section
variable {rise : Int} (heven : rise % 2 = 0)
include heven

/-- Behind an even number of words an instruction is lowered as it was. -/
theorem Variant.needsPadding_move (n : Nat) (i : Instr) (depth : Int) :
    needsPadding (i.retarget n) (rise + depth) = needsPadding i depth := by
  cases i with
  | input =>
      simp only [Instr.retarget, needsPadding]
      congr 1
      simp only [eq_iff_iff]
      omega
  | output =>
      simp only [Instr.retarget, needsPadding]
      congr 1
      simp only [eq_iff_iff]
      omega
  | _ => rfl

theorem Descriptor.ofInstr_move (n : Nat) (i : Instr) (depth : Int) :
    ofInstr (i.retarget n) (rise + depth) = ofInstr i depth := by
  unfold ofInstr Variant.ofInstr
  rw [Variant.needsPadding_move heven]
  cases i <;> rfl

theorem Step.along_move (n size start : Nat) (depth : Int) (ls : List Located) :
    along (size + start) (rise + depth) (ls.map (Located.move n)) =
      (along start depth ls).map (move n size rise) := by
  induction ls generalizing start depth with
  | nil => rfl
  | cons l ls ih =>
      have hd := Descriptor.ofInstr_move heven n l.instr depth
      simp only [List.map_cons, along, Located.move, Instr.opcode_retarget, hd, Nat.add_assoc,
        Int.add_assoc]
      rw [← ih]
      rfl

theorem span_move (n : Nat) (depth : Int) (ls : List Located) :
    span (rise + depth) (ls.map (Located.move n)) = span depth ls := by
  induction ls generalizing depth with
  | nil => rfl
  | cons l ls ih =>
      simp only [List.map_cons, span, Located.move, Instr.opcode_retarget,
        Descriptor.ofInstr_move heven, Int.add_assoc, ← ih]

end

theorem rise_move (n : Nat) (ls : List Located) : rise (ls.map (Located.move n)) = rise ls := by
  simp [rise, Located.move, Function.comp_def]

/-! ## The code of two programs in a row -/

theorem Block.code_retarget (h : Helpers) (rel : Int32) (n : Nat) (i : Instr) (padded : Bool) :
    code h rel (i.retarget n) padded = code h rel i padded := by
  cases i <;> rfl

theorem Expected.image_eq_flatMap {ls : List Located}
    (hasc : ls.Pairwise fun a b => a.ip < b.ip) (h : Helpers) :
    image h ls = (Step.along 0 0 ls).flatMap fun s => Insn.encodeAll (s.code h ls) := by
  have hsteps : ls.flatMap (block h ls) =
      (Step.along 0 0 ls).flatMap fun s => block h ls ⟨s.ip, s.instr⟩ := by
    rw [← List.flatMap_map (fun s : Step => (⟨s.ip, s.instr⟩ : Located)), Step.map_along]
  rw [image, hsteps]
  exact List.flatMap_congr fun s hs => Step.encodeAll_code hasc hs h

/-- Instructions `ls` of a program of `n` bytes, and instructions `ks` of one that can be put
behind it. -/
structure Linkable (n : Nat) (ls ks : List Located) : Prop where
  even : rise ls % 2 = 0
  range : ∀ k ∈ ks, n + k.ip < 2 ^ 31
  front : ls.Pairwise fun a b => a.ip < b.ip
  back : ks.Pairwise fun a b => a.ip < b.ip
  bounded : ∀ l ∈ ls, l.ip < n
  landsFront : ∀ l ∈ ls, l.lands ls = true
  landsBack : ∀ k ∈ ks, k.lands ks = true

namespace Linkable

variable {n : Nat} {ls ks : List Located} (hk : Linkable n ls ks)
include hk

theorem ascending : (ls ++ ks.map (Located.move n)).Pairwise fun a b => a.ip < b.ip := by
  refine List.pairwise_append.mpr ⟨hk.front, ?_, ?_⟩
  · refine List.pairwise_map.mpr (hk.back.imp fun hlt => ?_)
    exact Nat.add_lt_add_left hlt n
  · intro l hl k hmem
    obtain ⟨k, -, rfl⟩ := List.mem_map.mp hmem
    exact Nat.lt_of_lt_of_le (hk.bounded l hl) (Nat.le_add_right n k.ip)

theorem along_eq : Step.along 0 0 (ls ++ ks.map (Located.move n)) =
    Step.along 0 0 ls ++ (Step.along 0 0 ks).map (Step.move n (span 0 ls) (rise ls)) := by
  have hmove := Step.along_move hk.even n (span 0 ls) 0 0 ks
  rw [Step.along_append, Int.add_comm, Nat.add_comm]
  exact congrArg _ hmove

theorem toInt_moved {k : Located} (hmem : k ∈ ks) {t : Int32} (ht : (k.ip : Int) = t.toInt) :
    (Int32.ofInt (t.toInt + n)).toInt = (n + k.ip : Nat) := by
  have := hk.range k hmem
  rw [← ht, Int32.toInt_ofInt_of_le (by omega) (by omega)]
  omega

theorem lands {l : Located} (hl : l ∈ ls ++ ks.map (Located.move n)) :
    l.lands (ls ++ ks.map (Located.move n)) = true := by
  rw [Located.lands_iff]
  rcases List.mem_append.mp hl with hl | hl
  · intro t ht
    obtain ⟨k, hmem, hip⟩ := Located.lands_iff.mp (hk.landsFront l hl) t ht
    exact ⟨k, List.mem_append_left _ hmem, hip⟩
  · obtain ⟨l, hback, rfl⟩ := List.mem_map.mp hl
    intro t ht
    rw [Located.move, Instr.target?_retarget] at ht
    obtain ⟨u, hu, rfl⟩ := Option.map_eq_some_iff.mp ht
    obtain ⟨k, hmem, hip⟩ := Located.lands_iff.mp (hk.landsBack l hback) u hu
    refine ⟨k.move n, List.mem_append_right _ (List.mem_map_of_mem hmem), ?_⟩
    rw [hk.toInt_moved hmem hip]
    rfl

theorem offset_front {k : Located} (hmem : k ∈ ls) :
    Expected.offset (ls ++ ks.map (Located.move n)) k.ip = Expected.offset ls k.ip := by
  rw [← Step.map_along 0 0 ls] at hmem
  obtain ⟨s, hs, rfl⟩ := List.mem_map.mp hmem
  have hboth : s ∈ Step.along 0 0 (ls ++ ks.map (Located.move n)) := by
    rw [hk.along_eq]
    exact List.mem_append_left _ hs
  rw [Expected.offset_step hk.front hs, Expected.offset_step hk.ascending hboth]

theorem offset_back {k : Located} (hmem : k ∈ ks) :
    Expected.offset (ls ++ ks.map (Located.move n)) (n + k.ip : Nat) =
      span 0 ls + Expected.offset ks k.ip := by
  rw [← Step.map_along 0 0 ks] at hmem
  obtain ⟨s, hs, rfl⟩ := List.mem_map.mp hmem
  have hboth : s.move n (span 0 ls) (rise ls) ∈
      Step.along 0 0 (ls ++ ks.map (Located.move n)) := by
    rw [hk.along_eq]
    exact List.mem_append_right _ (List.mem_map_of_mem hs)
  rw [Expected.offset_step hk.back hs]
  exact Expected.offset_step hk.ascending hboth

/-- The code of the first program does not know what is behind it. -/
theorem code_front (h : Helpers) {s : Step} (hs : s ∈ Step.along 0 0 ls) :
    s.code h (ls ++ ks.map (Located.move n)) = s.code h ls := by
  have hrel : s.rel (ls ++ ks.map (Located.move n)) = s.rel ls := by
    unfold Step.rel
    split
    next t ht =>
      obtain ⟨k, hkmem, hip⟩ :=
        Located.lands_iff.mp (hk.landsFront _ (Step.located_mem hs)) t ht
      rw [← hip, hk.offset_front hkmem]
    next => rfl
  rw [Step.code, Step.code, hrel]

/-- The code of the second program is what it was: its targets are as far away. -/
theorem code_back (h : Helpers) {s : Step} (hs : s ∈ Step.along 0 0 ks) :
    (s.move n (span 0 ls) (rise ls)).code h (ls ++ ks.map (Located.move n)) = s.code h ks := by
  have hrel : (s.move n (span 0 ls) (rise ls)).rel (ls ++ ks.map (Located.move n)) = s.rel ks := by
    simp only [Step.rel, Step.move, Instr.target?_retarget]
    cases ht : s.instr.target? with
    | none => rfl
    | some t =>
        obtain ⟨k, hkmem, hip⟩ :=
          Located.lands_iff.mp (hk.landsBack _ (Step.located_mem hs)) t ht
        simp only [Option.map_some]
        rw [hk.toInt_moved hkmem hip, hk.offset_back hkmem, ← hip]
        congr 1
        omega
  rw [Step.code, hrel]
  simp only [Step.move, Variant.needsPadding_move hk.even, Block.code_retarget]
  rfl

/-- The image of both is the two images in a row. -/
theorem image_eq (h : Helpers) : Expected.image h (ls ++ ks.map (Located.move n)) =
    Expected.image h ls ++ Expected.image h ks := by
  rw [Expected.image_eq_flatMap hk.ascending, Expected.image_eq_flatMap hk.front,
    Expected.image_eq_flatMap hk.back, hk.along_eq, List.flatMap_append, List.flatMap_map]
  refine congrArg₂ (· ++ ·) (List.flatMap_congr fun s hs => ?_) (List.flatMap_congr fun s hs => ?_)
  · rw [hk.code_front h hs]
  · rw [hk.code_back h hs]

theorem span_eq : span 0 (ls ++ ks.map (Located.move n)) = span 0 ls + span 0 ks := by
  have hmove := span_move hk.even n 0 ks
  rw [span_append, Int.zero_add, ← hmove, Int.add_zero]

theorem offset?_eq (size i : Nat) :
    (Layout.ofInstrs (n + size) (ls ++ ks.map (Located.move n))).offset? (n + i : Nat) =
      ((Layout.ofInstrs size ks).offset? i).map (span 0 ls + ·) := by
  have hfront : (Step.along 0 0 ls).find? ((fun p : Nat × Nat => (p.1 : Int) == (n + i : Nat)) ∘
      fun s => (s.ip, s.nativeIp)) = none := by
    refine List.find?_eq_none.mpr fun s hs => ?_
    have hlt : s.ip < n := hk.bounded _ (Step.located_mem hs)
    simp only [Function.comp_apply, beq_iff_eq]
    omega
  have hback : (fun p : Nat × Nat => (p.1 : Int) == (n + i : Nat)) ∘
      (fun p : Nat × Nat => (n + p.1, span 0 ls + p.2)) = fun p => (p.1 : Int) == (i : Nat) := by
    funext p
    simp
  have hoffsets : (Layout.ofInstrs (n + size) (ls ++ ks.map (Located.move n))).offsets =
      (Step.along 0 0 ls).map (fun s => (s.ip, s.nativeIp)) ++
        (Layout.ofInstrs size ks).offsets.map fun p => (n + p.1, span 0 ls + p.2) := by
    simp only [Layout.ofInstrs, Layout.ofWalk, hk.along_eq, hk.span_eq, List.map_append,
      List.map_map, List.append_assoc]
    rfl
  rw [Layout.offset?, hoffsets, List.find?_append, List.find?_map, List.find?_map, hfront, hback]
  simp [Layout.offset?, Function.comp_def]

end Linkable

theorem Linkable.of_layouts {a b : Bytes} {la lb : Layout} (ha : Layout.ofCode (some a) = .ok la)
    (hb : Layout.ofCode (some b) = .ok lb) (hlen : a.length + b.length < 2 ^ 31)
    (heven : la.finalDepth % 2 = 0) :
    Linkable a.length (Scan.ofCode a).instrs (Scan.ofCode b).instrs := by
  obtain ⟨-, hfa, rfl, hlandsA⟩ := Layout.ofCode_eq_ok_iff.mp ha
  obtain ⟨-, hfb, rfl, hlandsB⟩ := Layout.ofCode_eq_ok_iff.mp hb
  refine ⟨heven, fun k hmem => ?_, Scan.instrs_ascending hfa, Scan.instrs_ascending hfb,
    Scan.ip_lt hfa, hlandsA, hlandsB⟩
  have := Scan.ip_lt hfb k hmem
  omega

/-- A program that is laid out can be put behind one that leaves an even number of words, with
the length of the first added to its targets. Lengths, counts and depths add up, every
instruction of the second is laid out behind the first, and the image of both is the two images
in a row. -/
theorem image_of_linked {a b : Bytes} {la lb : Layout} (ha : Layout.ofCode (some a) = .ok la)
    (hb : Layout.ofCode (some b) = .ok lb) (hlen : a.length + b.length < 2 ^ 31)
    (heven : la.finalDepth % 2 = 0) :
    ∃ layout, Layout.ofCode (some (a ++ shiftTargets a.length b)) = .ok layout ∧
      layout.nativeLen = la.nativeLen + lb.nativeLen ∧
      layout.instructions = la.instructions + lb.instructions ∧
      layout.finalDepth = la.finalDepth + lb.finalDepth ∧
      (∀ i : Nat, layout.offset? (a.length + i : Nat) =
        (lb.offset? i).map (la.nativeLen + ·)) ∧
      ∀ h, ∃ ia ib image, Image.ofCode (some a) h = .ok ia ∧ Image.ofCode (some b) h = .ok ib ∧
        Image.ofCode (some (a ++ shiftTargets a.length b)) h = .ok image ∧
        image.native = ia.native ++ ib.native := by
  have hk := Linkable.of_layouts ha hb hlen heven
  obtain ⟨hne, hfa, hla, -⟩ := Layout.ofCode_eq_ok_iff.mp ha
  obtain ⟨-, hfb, hlb, -⟩ := Layout.ofCode_eq_ok_iff.mp hb
  obtain ⟨hscan, hsize⟩ := Scan.ofCode_link hfa hfb
  have hlayout : Layout.ofCode (some (a ++ shiftTargets a.length b)) =
      .ok (Layout.ofInstrs (a.length + b.length)
        ((Scan.ofCode a).instrs ++ (Scan.ofCode b).instrs.map (Located.move a.length))) := by
    refine Layout.ofCode_eq_ok_iff.mpr ⟨by simp [hne], by rw [hscan], ?_, ?_⟩
    · rw [hscan, List.length_append, hsize]
    · rw [hscan]
      exact fun l hl => hk.lands hl
  refine ⟨_, hlayout, ?_, ?_, ?_, ?_, fun h => ?_⟩
  · rw [hla, hlb]
    exact hk.span_eq
  · rw [hla, hlb]
    simp [Layout.ofInstrs, Layout.ofWalk, hk.along_eq]
  · rw [hla, hlb]
    simp [Layout.ofInstrs, Layout.ofWalk, rise_move]
  · rw [hla, hlb]
    exact hk.offset?_eq b.length
  · refine ⟨_, _, _, Image.ofCode_eq h ha, Image.ofCode_eq h hb, Image.ofCode_eq h hlayout, ?_⟩
    rw [hscan]
    exact hk.image_eq h

namespace Linkable

def sampleFront : Bytes := [Instr.input, .output, .branch .jmp 0].flatMap Instr.encode

def sampleBack : Bytes := [Instr.branch (.cond .ne) 6, .input, .ret].flatMap Instr.encode

end Linkable

theorem image_of_linked_sample :
    shiftTargets Linkable.sampleFront.length Linkable.sampleBack =
        [Instr.branch (.cond .ne) 13, .input, .ret].flatMap Instr.encode ∧
      ∃ layout, Layout.ofCode (some (Linkable.sampleFront ++
          shiftTargets Linkable.sampleFront.length Linkable.sampleBack)) = .ok layout ∧
        layout.nativeLen = 65 + 42 ∧ layout.offset? 13 = some (65 + 41) ∧
        ∀ h, ∃ ia ib image, Image.ofCode (some Linkable.sampleFront) h = .ok ia ∧
          Image.ofCode (some Linkable.sampleBack) h = .ok ib ∧
          Image.ofCode (some (Linkable.sampleFront ++
            shiftTargets Linkable.sampleFront.length Linkable.sampleBack)) h = .ok image ∧
          image.native = ia.native ++ ib.native := by
  have ha : Layout.ofCode (some Linkable.sampleFront) =
      .ok (.ofInstrs 7 (Scan.ofCode Linkable.sampleFront).instrs) := rfl
  have hb : Layout.ofCode (some Linkable.sampleBack) =
      .ok (.ofInstrs 7 (Scan.ofCode Linkable.sampleBack).instrs) := rfl
  obtain ⟨layout, hl, hlen, -, -, hoffset, himage⟩ := image_of_linked ha hb (by decide) rfl
  exact ⟨rfl, layout, hl, hlen, hoffset 6, himage⟩

end StackCode.Lowering
