import StackCode.Proofs.Lowering.Placement
import StackCode.Proofs.X64.StackPointer

/-!
# The stack is aligned at helper calls

A program is entered with its stack pointer eight bytes away from an aligned address. Padding is
chosen along the walk, from the simulated depth; the run jumps about. `Even` is a step of the
machine that keeps to what the walk can see: it is in no call or return, and if it takes a jump
then the depth behind the jump and the depth at the target have the same parity. Along even
steps the stack pointer is at the level of the depth at every instruction, and it is aligned
wherever a helper is called. Nothing is asked of the memory, the registers or the streams.
-/
namespace StackCode.Bytecode

/-- Does the instruction put a return address on the stack, or take one? -/
def Instr.links : Instr → Bool
  | .branch .call _ | .ret => true
  | _ => false

end StackCode.Bytecode

namespace StackCode.Lowering

open Bytecode X64 Relation

/-! ## Levels inside the code of an instruction -/

namespace Block

section
variable (helpers : Helpers) (rel : Int32) (i : Instr) (padded : Bool)

theorem steady_code (hi : i.links = false) :
    ∀ insn ∈ code helpers rel i padded, insn.steady = true := by
  refine List.all_eq_true.mp ?_
  cases i with
  | push src =>
      cases src with
      | imm bits => rfl
      | reg r => cases r <;> rfl
      | mem c => cases c <;> rfl
  | pop dst =>
      cases dst with
      | discard => rfl
      | reg r => cases r <;> rfl
      | mem c => cases c <;> rfl
  | branch b t =>
      cases b with
      | call => cases hi
      | _ => rfl
  | input | output => cases padded <;> rfl
  | ret => cases hi
  | _ => rfl

theorem lifts_code : Insn.lifts (code helpers rel i padded) = i.opcode.stackDelta := by
  cases i with
  | push src =>
      cases src with
      | mem c => cases c <;> rfl
      | _ => rfl
  | pop dst =>
      cases dst with
      | mem c => cases c <;> rfl
      | _ => rfl
  | branch b t => cases b <;> rfl
  | input | output => cases padded <;> rfl
  | _ => rfl

end

/-- What stands in front of a helper call, up to the address of the helper. -/
def lead (helper : Helper) (padded : Bool) : List Insn :=
  (if helper = .input then [.subImm .rsp 8] else []) ++ saved.map .push ++ [.leaRsp .rdi 32] ++
    if padded then [.push .rdi] else []

/-- What stands behind a helper call. -/
def trail (helper : Helper) (padded : Bool) : List Insn :=
  (if padded then [.pop .rdi] else []) ++ saved.reverse.map .pop ++
    if helper = .output then [.addImm .rsp 8] else []

def caller : Helper → Instr
  | .input => .input
  | .output => .output

def isCall : Insn → Bool
  | .callReg _ => true
  | _ => false

theorem code_caller (helpers : Helpers) (rel : Int32) (helper : Helper) (padded : Bool) :
    code helpers rel (caller helper) padded =
      (lead helper padded ++ [.movImm64 .r11 (helpers.addr helper)]) ++
        .callReg .r11 :: trail helper padded := by
  cases helper <;> cases padded <;> rfl

theorem exists_caller {helpers : Helpers} {rel : Int32} {i : Instr} {padded : Bool} {insn : Insn}
    (hm : insn ∈ code helpers rel i padded) (hc : isCall insn = true) :
    ∃ helper, i = caller helper := by
  have hnone : (code helpers rel i padded).all (fun k => !isCall k) = true →
      ∃ helper, i = caller helper := fun h => by
    simpa [hc] using List.all_eq_true.mp h insn hm
  cases i with
  | push src =>
      cases src with
      | mem c => cases c <;> exact hnone rfl
      | _ => exact hnone rfl
  | pop dst =>
      cases dst with
      | mem c => cases c <;> exact hnone rfl
      | _ => exact hnone rfl
  | branch b t => cases b <;> exact hnone rfl
  | input => exact ⟨.input, rfl⟩
  | output => exact ⟨.output, rfl⟩
  | _ => exact hnone rfl

/-- Padding makes up for the depth: the words in front of a helper call come in pairs. -/
theorem lifts_lead (helper : Helper) (depth : Int) :
    (depth + 1 + Insn.lifts (lead helper (Variant.needsPadding (caller helper) depth))) % 2 = 0 := by
  cases helper with
  | input =>
      have hpadded : Insn.lifts (lead .input (Variant.needsPadding .input depth)) =
          if depth % 2 = 1 then 6 else 5 := by
        simp only [Variant.needsPadding]
        by_cases hd : depth % 2 = 1 <;> simp only [hd] <;> rfl
      simp only [caller, hpadded]
      split <;> omega
  | output =>
      have hpadded : Insn.lifts (lead .output (Variant.needsPadding .output depth)) =
          if depth % 2 = 0 then 5 else 4 := by
        simp only [Variant.needsPadding]
        by_cases hd : depth % 2 = 0 <;> simp only [hd] <;> rfl
      simp only [caller, hpadded]
      split <;> omega

/-- Where a call stands in the code of an instruction: behind the address of a helper, with
words in pairs on the stack. -/
theorem call_split {helpers : Helpers} {rel : Int32} {i : Instr} {depth : Int}
    {done rest : List Insn} {r : Reg}
    (hcode : code helpers rel i (Variant.needsPadding i depth) = done ++ .callReg r :: rest) :
    (depth + 1 + Insn.lifts done) % 2 = 0 ∧
      ∃ front helper, done = front ++ [.movImm64 r (helpers.addr helper)] := by
  have hmem : .callReg r ∈ code helpers rel i (Variant.needsPadding i depth) := by simp [hcode]
  obtain ⟨helper, rfl⟩ := exists_caller hmem rfl
  rw [code_caller] at hcode
  have hlead : .callReg r ∉ lead helper (Variant.needsPadding (caller helper) depth) ++
      [.movImm64 .r11 (helpers.addr helper)] := by
    cases helper <;> cases Variant.needsPadding _ depth <;> simp [lead, saved]
  have htrail : .callReg r ∉ trail helper (Variant.needsPadding (caller helper) depth) := by
    cases helper <;> cases Variant.needsPadding _ depth <;> simp [trail, saved]
  obtain ⟨rfl, hr, rfl⟩ := (List.append_cons_inj_of_notMem hlead htrail).mp hcode
  cases hr
  have hlifts := lifts_lead helper depth
  refine ⟨?_, _, helper, rfl⟩
  simpa [Insn.lift] using hlifts

theorem jump_split {helpers : Helpers} {rel rel' : Int32} {i : Instr} {padded : Bool}
    {done rest : List Insn} {insn : Insn} (hcode : code helpers rel i padded = done ++ insn :: rest)
    (hr : insn.rel? = some rel') :
    rel' = rel ∧ rest = [] ∧ ∃ b t, i = .branch b t := by
  have hm : insn ∈ code helpers rel i padded := by simp [hcode]
  have hnone (h : (code helpers rel i padded).all (fun k => k.rel?.isNone) = true) : False := by
    simpa [hr] using List.all_eq_true.mp h insn hm
  have hempty : insn ∉ ([] : List Insn) := List.not_mem_nil
  cases i with
  | push src =>
      cases src with
      | mem c => cases c <;> exact (hnone rfl).elim
      | _ => exact (hnone rfl).elim
  | pop dst =>
      cases dst with
      | mem c => cases c <;> exact (hnone rfl).elim
      | _ => exact (hnone rfl).elim
  | branch b t =>
      cases b with
      | call => exact (hnone rfl).elim
      | jmp =>
          have hcode : [] ++ .jmp rel :: [] = done ++ insn :: rest := hcode
          obtain ⟨rfl, rfl, rfl⟩ := (List.append_cons_inj_of_notMem hempty hempty).mp hcode
          cases hr
          exact ⟨rfl, rfl, _, _, rfl⟩
      | cond c =>
          have hlead : insn ∉ [Insn.pop .rsi, .pop .rdi, .cmp .rdi .rsi] := by
            rintro hmem
            simp only [List.mem_cons, List.not_mem_nil, or_false] at hmem
            rcases hmem with rfl | rfl | rfl <;> cases hr
          have hcode : [.pop .rsi, .pop .rdi, .cmp .rdi .rsi] ++ .jcc (condition c) rel :: [] =
              done ++ insn :: rest := hcode
          obtain ⟨rfl, rfl, rfl⟩ := (List.append_cons_inj_of_notMem hlead hempty).mp hcode
          cases hr
          exact ⟨rfl, rfl, _, _, rfl⟩
  | input | output => cases padded <;> exact (hnone rfl).elim
  | _ => exact (hnone rfl).elim

end Block

/-! ## Steps of the machine -/

namespace Step

theorem eq_of_starts_in {ls : List Located} {s k : Step} (hs : s ∈ along 0 0 ls)
    (hk : k ∈ along 0 0 ls) (hpos : 0 < s.desc.nativeLen) (hlo : k.nativeIp ≤ s.nativeIp)
    (hhi : s.nativeIp < k.nativeIp + k.desc.nativeLen) : s = k := by
  obtain ⟨i, hi, rfl⟩ := List.getElem_of_mem hs
  obtain ⟨j, hj, rfl⟩ := List.getElem_of_mem hk
  have hapart := List.pairwise_iff_getElem.mp (along_apart 0 0 ls)
  rcases Nat.lt_trichotomy i j with hij | rfl | hij
  · have := hapart i j hi hj hij
    omega
  · rfl
  · have := hapart j i hj hi hij
    omega

theorem length_done_lt {ls : List Located} (hasc : ls.Pairwise fun a b => a.ip < b.ip) {s : Step}
    (hs : s ∈ along 0 0 ls) {h : Helpers} {done rest : List Insn} {i : Insn}
    (hcode : s.code h ls = done ++ i :: rest) :
    (Insn.encodeAll done).length < s.desc.nativeLen := by
  have hpos := i.length_encode_bounds.1
  rw [← length_encodeAll_code hasc hs h, hcode]
  simp only [Insn.encodeAll, List.flatMap_append, List.flatMap_cons, List.length_append]
  omega

def Holds (h : Host) (s : Step) (rip : UInt64) : Prop :=
  ∃ pos < s.desc.nativeLen, rip = h.base + UInt64.ofNat (s.nativeIp + pos)

end Step

/-- A step of the machine that keeps to the depths of the walk: it is not in a call or return,
and if it takes a jump then the depth behind the jump and the depth at the target have the same
parity. -/
structure Even (h : Host) (steps : List Step) (n n' : X64.State) : Prop where
  goes : Goes h n n'
  unlinked : ∀ s ∈ steps, s.Holds h n.rip → s.instr.links = false
  parity : ∀ s ∈ steps, s.Holds h n.rip → ∀ k ∈ steps, ∀ t, s.instr.target? = some t →
    (k.ip : Int) = t.toInt → n'.rip = h.base + UInt64.ofNat k.nativeIp →
    (s.depth + s.instr.opcode.stackDelta) % 2 = k.depth % 2

/-- The machine stands in front of an instruction of some step's code or at the end, at the
level of the walk's depth there. -/
inductive Stands (h : Host) (ls : List Located) (n : X64.State) : Prop
  | inside {s : Step} {done rest : List Insn} {i : Insn} (hs : s ∈ Step.along 0 0 ls)
      (hcode : s.code h.helpers ls = done ++ i :: rest)
      (hrip : n.rip = h.base + UInt64.ofNat (s.nativeIp + (Insn.encodeAll done).length))
      (hlevel : Level n (s.depth + 1 + Insn.lifts done)) (hready : n.Ready h i)
  | ended (hrip : n.rip = h.base + UInt64.ofNat (span 0 ls)) (hlevel : Level n (rise ls + 1))

namespace Stands

variable {h : Host} {ls : List Located} {n : X64.State}

/-- In front of the code of a step no call waits for its register. -/
theorem of_step {s : Step} (hs : s ∈ Step.along 0 0 ls)
    (hrip : n.rip = h.base + UInt64.ofNat s.nativeIp) (hlevel : Level n (s.depth + 1)) :
    Stands h ls n := by
  obtain ⟨i, rest, hcode⟩ := List.exists_cons_of_ne_nil (Block.code_ne_nil h.helpers (s.rel ls)
    s.instr (Variant.needsPadding s.instr s.depth))
  have hcode : s.code h.helpers ls = [] ++ i :: rest := hcode
  refine .inside hs hcode hrip (by simpa using hlevel) ?_
  rintro r rfl
  obtain ⟨-, front, helper, hdone⟩ := Block.call_split hcode
  simp at hdone

theorem of_behind {s : Step} (hs : s ∈ Step.along 0 0 ls)
    (hrip : n.rip = h.base + UInt64.ofNat (s.nativeIp + s.desc.nativeLen))
    (hlevel : Level n (s.depth + s.instr.opcode.stackDelta + 1)) : Stands h ls n := by
  obtain ⟨before, after, hl, hn, hd, he⟩ := Step.mem_along.mp hs
  have hspan : s.nativeIp + s.desc.nativeLen = 0 + span 0 (before ++ [⟨s.ip, s.instr⟩]) := by
    rw [span_append, hn, he, hd]
    simp [span]
  have hrise : s.depth + s.instr.opcode.stackDelta = 0 + rise (before ++ [⟨s.ip, s.instr⟩]) := by
    simp [hd]
  rw [hspan] at hrip
  rw [hrise] at hlevel
  cases after with
  | nil =>
      rw [Nat.zero_add, ← hl] at hrip
      rw [Int.zero_add, ← hl] at hlevel
      exact .ended hrip hlevel
  | cons l after =>
      have hmem : (⟨l.ip, l.instr, .ofInstr l.instr (0 + rise (before ++ [⟨s.ip, s.instr⟩])),
          0 + span 0 (before ++ [⟨s.ip, s.instr⟩]),
          0 + rise (before ++ [⟨s.ip, s.instr⟩])⟩ : Step) ∈ Step.along 0 0 ls :=
        Step.mem_along.mpr ⟨before ++ [⟨s.ip, s.instr⟩], after, by simpa using hl, rfl, rfl, rfl⟩
      exact of_step hmem hrip hlevel

end Stands

section
variable {code : Bytes} {layout : Layout} (hl : Layout.ofCode (some code) = .ok layout)
  (hsize : layout.nativeLen < 2 ^ 31) {h : Host}
  (hi : h.image.toList = Expected.image h.helpers (Scan.ofCode code).instrs) {n n' : X64.State}
include hl hsize hi

theorem size_image : h.image.size = span 0 (Scan.ofCode code).instrs ∧ h.image.size < 2 ^ 31 := by
  obtain ⟨-, hf, hlayout, -⟩ := Layout.ofCode_eq_ok hl
  have hlong : layout.nativeLen = span 0 (Scan.ofCode code).instrs := by rw [hlayout]; rfl
  rw [← Array.length_toList, hi, Expected.length_image (Scan.instrs_ascending hf)]
  omega

theorem fetch_inside {s : Step} (hs : s ∈ Step.along 0 0 (Scan.ofCode code).instrs)
    {done rest : List Insn} {i : Insn}
    (hcode : s.code h.helpers (Scan.ofCode code).instrs = done ++ i :: rest)
    (hrip : n.rip = h.base + UInt64.ofNat (s.nativeIp + (Insn.encodeAll done).length)) :
    h.fetch n.rip = some (i, i.encode.length) := by
  obtain ⟨-, hf, -, -⟩ := Layout.ofCode_eq_ok hl
  obtain ⟨-, hlt⟩ := size_image hl hsize hi
  have hmem : i ∈ s.code h.helpers (Scan.ofCode code).instrs := by simp [hcode]
  have hc := Step.hasCode (Scan.instrs_ascending hf) hs hi
  rw [hcode] at hc
  have hc := hc.drop
  rw [UInt64.add_assoc, ← UInt64.ofNat_add, ← hrip] at hc
  exact hc.fetch (by omega) (Block.encodable_fill _ _ _ i hmem)

theorem fetch_ended (hrip : n.rip = h.base + UInt64.ofNat (span 0 (Scan.ofCode code).instrs)) :
    h.fetch n.rip = none := by
  obtain ⟨hspan, hlt⟩ := size_image hl hsize hi
  have hpos : (n.rip - h.base).toNat = h.image.size := by
    rw [hrip, ← hspan, UInt64.add_comm, UInt64.add_sub_cancel]
    exact UInt64.toNat_ofNat_of_lt' (Nat.lt_trans hlt (by decide))
  have hwindow : (h.image.extract h.image.size (h.image.size + maxLength)).toList = [] := by
    simp
  simp only [Host.fetch, hpos, hwindow]
  rfl

omit hl hsize hi in
/-- In front of a call its register has just been loaded. -/
theorem ready_of_call {s : Step} {ls : List Located} {done rest : List Insn} {i j : Insn}
    {next : UInt64} (hcode : s.code h.helpers ls = (done ++ [i]) ++ j :: rest)
    (hx : n.execute h next i = .goes n') : n'.Ready h j := by
  rintro r rfl
  obtain ⟨-, front, helper, hload⟩ := Block.call_split hcode
  obtain ⟨-, hi⟩ := List.append_inj' hload rfl
  obtain rfl := List.singleton_inj.mp hi
  cases hx
  have hr : (n.regs.set r (h.helpers.addr helper)).get r = h.helpers.addr helper :=
    Regs.get_set_self ..
  cases helper with
  | input => exact .inl hr
  | output => exact .inr hr

omit hl hsize hi in
theorem Stands.of_fall {ls : List Located} (hasc : ls.Pairwise fun a b => a.ip < b.ip) {s : Step}
    (hs : s ∈ Step.along 0 0 ls) {done rest : List Insn} {i : Insn} {next : UInt64}
    (hcode : s.code h.helpers ls = done ++ i :: rest) (hx : n.execute h next i = .goes n')
    (hrip : n'.rip = h.base + UInt64.ofNat (s.nativeIp + (Insn.encodeAll (done ++ [i])).length))
    (hlevel : Level n' (s.depth + 1 + Insn.lifts (done ++ [i]))) : Stands h ls n' := by
  cases rest with
  | nil =>
      have hlen := Step.length_encodeAll_code hasc hs h.helpers
      have hdelta : Insn.lifts (s.code h.helpers ls) = s.instr.opcode.stackDelta :=
        Block.lifts_code ..
      rw [hcode] at hlen hdelta
      rw [hlen] at hrip
      rw [hdelta, Int.add_right_comm] at hlevel
      exact .of_behind hs hrip hlevel
  | cons j rest =>
      have hcode' : s.code h.helpers ls = (done ++ [i]) ++ j :: rest := by simpa using hcode
      exact .inside hs hcode' hrip hlevel (ready_of_call hcode' hx)

theorem jump_lands {s : Step} (hs : s ∈ Step.along 0 0 (Scan.ofCode code).instrs) {b : Branch}
    {t : Int32} (hb : s.instr = .branch b t) :
    ∃ k ∈ Step.along 0 0 (Scan.ofCode code).instrs, (k.ip : Int) = t.toInt ∧
      h.base + UInt64.ofNat (s.nativeIp + s.desc.nativeLen) +
        signed32 (s.rel (Scan.ofCode code).instrs) = h.base + UInt64.ofNat k.nativeIp := by
  obtain ⟨-, hf, -, -⟩ := Layout.ofCode_eq_ok hl
  obtain ⟨hspan, hlt⟩ := size_image hl hsize hi
  obtain ⟨k, hk, ht⟩ := Layout.exists_target hl hs hb
  refine ⟨k, hk, ht, ?_⟩
  have htarget : s.instr.target? = some t := by rw [hb]; rfl
  have hoffset : Expected.offset (Scan.ofCode code).instrs t.toInt = k.nativeIp := by
    rw [← ht]
    exact Expected.offset_step (Scan.instrs_ascending hf) hk
  have hkend := Step.end_le hk
  have hsend := Step.end_le hs
  simp only [Step.rel, htarget, hoffset]
  rw [UInt64.add_assoc, add_signed32 (by omega) (by omega)]

/-- One even step keeps the level. -/
theorem Stands.step (hn : Stands h (Scan.ofCode code).instrs n)
    (he : Even h (Step.along 0 0 (Scan.ofCode code).instrs) n n') :
    Stands h (Scan.ofCode code).instrs n' := by
  obtain ⟨-, hf, -, -⟩ := Layout.ofCode_eq_ok hl
  have hasc := Scan.instrs_ascending hf
  obtain ⟨i, length, hfetch, hx⟩ := he.goes.exists_fetch
  cases hn with
  | ended hrip _ =>
      rw [fetch_ended hl hsize hi hrip] at hfetch
      cases hfetch
  | @inside s done rest i' hs hcode hrip hlevel hready =>
      rw [fetch_inside hl hsize hi hs hcode hrip] at hfetch
      cases hfetch
      have hmem : i ∈ s.code h.helpers (Scan.ofCode code).instrs := by simp [hcode]
      have hholds : s.Holds h n.rip := ⟨_, Step.length_done_lt hasc hs hcode, hrip⟩
      have hsteady := Block.steady_code _ _ _ _ (he.unlinked s hs hholds) i hmem
      obtain ⟨hlevel', hleaves⟩ := hlevel.execute hsteady hready hx
      have hlifts : s.depth + 1 + Insn.lifts done + i.lift =
          s.depth + 1 + Insn.lifts (done ++ [i]) := by simp [Int.add_assoc]
      have hnext : n.rip + UInt64.ofNat i.encode.length =
          h.base + UInt64.ofNat (s.nativeIp + (Insn.encodeAll (done ++ [i])).length) := by
        rw [hrip, UInt64.add_assoc, ← UInt64.ofNat_add]
        simp [Insn.encodeAll, Nat.add_assoc]
      rw [hlifts] at hlevel'
      rcases hleaves with hfall | ⟨rel, hrel, hjump⟩
      · exact .of_fall hasc hs hcode hx (hfall.trans hnext) hlevel'
      · obtain ⟨rfl, rfl, b, t, hb⟩ := Block.jump_split hcode hrel
        obtain ⟨k, hk, ht, hland⟩ := jump_lands hl hsize hi hs hb
        have hlen := Step.length_encodeAll_code hasc hs h.helpers
        have hdelta : Insn.lifts (s.code h.helpers (Scan.ofCode code).instrs) =
            s.instr.opcode.stackDelta := Block.lifts_code ..
        rw [hcode] at hlen
        rw [hnext, hlen, hland] at hjump
        have hparity := he.parity s hs hholds k hk t (by rw [hb]; rfl) ht hjump
        rw [hcode] at hdelta
        rw [hdelta] at hlevel'
        exact .of_step hk hjump (hlevel'.congr (by omega))

/-- Whatever the run, the machine stands where the walk says. -/
theorem Stands.run (hn : Stands h (Scan.ofCode code).instrs n)
    (hr : ReflTransGen (Even h (Step.along 0 0 (Scan.ofCode code).instrs)) n n') :
    Stands h (Scan.ofCode code).instrs n' := by
  induction hr with
  | refl => exact hn
  | tail _ he ih => exact ih.step hl hsize hi he

end

/-! ## Levels where the walk knows the depth -/

theorem offset_inj {base : UInt64} {a b : Nat} (ha : a < 2 ^ 64) (hb : b < 2 ^ 64)
    (h : base + UInt64.ofNat a = base + UInt64.ofNat b) : a = b := by
  have h := congrArg UInt64.toNat ((UInt64.add_right_inj base).mp h)
  rwa [UInt64.toNat_ofNat_of_lt' ha, UInt64.toNat_ofNat_of_lt' hb] at h

namespace Stands

variable {code : Bytes} {layout : Layout} (hl : Layout.ofCode (some code) = .ok layout)
  (hsize : layout.nativeLen < 2 ^ 31) {h : Host}
  (hi : h.image.toList = Expected.image h.helpers (Scan.ofCode code).instrs) {n : X64.State}
  (hn : Stands h (Scan.ofCode code).instrs n)
include hl hsize hi hn

theorem level_step {s : Step} (hs : s ∈ Step.along 0 0 (Scan.ofCode code).instrs)
    (hrip : n.rip = h.base + UInt64.ofNat s.nativeIp) : Level n (s.depth + 1) := by
  obtain ⟨-, hf, -, -⟩ := Layout.ofCode_eq_ok hl
  have hasc := Scan.instrs_ascending hf
  obtain ⟨hspan, hlt⟩ := size_image hl hsize hi
  have hlen := Step.nativeLen_pos hs
  have hend := Step.end_le hs
  cases hn with
  | ended hrip' _ =>
      have := offset_inj (by omega) (by omega) (hrip'.symm.trans hrip)
      omega
  | @inside k done rest i hk hcode hrip' hlevel _ =>
      have hin := Step.length_done_lt hasc hk hcode
      have hkend := Step.end_le hk
      have hat := offset_inj (by omega) (by omega) (hrip'.symm.trans hrip)
      obtain rfl := Step.eq_of_starts_in hs hk hlen (by omega) (by omega)
      have hfront : done = [] := Insn.eq_nil_of_length (by omega)
      simpa [hfront] using hlevel

theorem level_end (hrip : n.rip = h.base + UInt64.ofNat (span 0 (Scan.ofCode code).instrs)) :
    Level n (rise (Scan.ofCode code).instrs + 1) := by
  obtain ⟨-, hf, -, -⟩ := Layout.ofCode_eq_ok hl
  obtain ⟨hspan, hlt⟩ := size_image hl hsize hi
  cases hn with
  | ended _ hlevel => exact hlevel
  | inside hs hcode hrip' _ _ =>
      have hin := Step.length_done_lt (Scan.instrs_ascending hf) hs hcode
      have hend := Step.end_le hs
      have := offset_inj (by omega) (by omega) (hrip'.symm.trans hrip)
      omega

theorem level_call {r : Reg} {length : Nat} (hfetch : h.fetch n.rip = some (.callReg r, length)) :
    Level n 0 := by
  cases hn with
  | ended hrip _ =>
      rw [fetch_ended hl hsize hi hrip] at hfetch
      cases hfetch
  | inside hs hcode hrip hlevel _ =>
      rw [fetch_inside hl hsize hi hs hcode hrip] at hfetch
      cases hfetch
      obtain ⟨heven, -⟩ := Block.call_split hcode
      exact hlevel.congr heven

end Stands

theorem Stands.start {h : Host} {n : X64.State} (ls : List Located) (hrip : n.rip = h.base)
    (hlevel : Level n 1) : Stands h ls n := by
  have hrip : n.rip = h.base + UInt64.ofNat 0 := by simpa using hrip
  cases ls with
  | nil => exact .ended hrip hlevel
  | cons l ls => exact .of_step (.head _) hrip hlevel

/-- Along every run of even steps that is entered at level one, the stack pointer is at the
level of the depth wherever an instruction or the end is reached, and it is aligned wherever a
helper is called. -/
theorem stack_aligned_along_runs {code : Bytes} {layout : Layout}
    (hl : Layout.ofCode (some code) = .ok layout) (hsize : layout.nativeLen < 2 ^ 31)
    (helpers : Helpers) :
    ∃ img, Image.ofCode (some code) helpers = .ok img ∧ ∀ (h : Host) (n n' : X64.State),
      h.helpers = helpers → h.image = img.native.toArray → n.rip = h.base →
      n.rsp.toNat % 16 = 8 → ReflTransGen (Even h (Walk.ofCode (some code)).steps) n n' →
      (∀ s ∈ (Walk.ofCode (some code)).steps, n'.rip = h.base + UInt64.ofNat s.nativeIp →
        (n'.rsp.toNat : Int) % 16 = 8 * (s.depth + 1) % 16) ∧
      (n'.rip = h.base + UInt64.ofNat (Walk.ofCode (some code)).nativeLen →
        (n'.rsp.toNat : Int) % 16 = 8 * ((Walk.ofCode (some code)).depth + 1) % 16) ∧
      ∀ r length, h.fetch n'.rip = some (.callReg r, length) → n'.rsp.toNat % 16 = 0 := by
  obtain ⟨hne, -, -, -⟩ := Layout.ofCode_eq_ok hl
  refine ⟨_, Image.ofCode_eq helpers hl, ?_⟩
  rintro h n n' rfl himage hrip hrsp hrun
  have hi : h.image.toList = Expected.image h.helpers (Scan.ofCode code).instrs := by rw [himage]
  rw [Walk.ofCode_eq hne] at hrun ⊢
  have hlevel : Level n 1 := by
    unfold Level
    omega
  have hn := (Stands.start (Scan.ofCode code).instrs hrip hlevel).run hl hsize hi hrun
  refine ⟨fun s hs hat => hn.level_step hl hsize hi hs hat, hn.level_end hl hsize hi,
    fun r length hfetch => ?_⟩
  have haligned := hn.level_call hl hsize hi hfetch
  unfold Level at haligned
  omega

namespace Even

/-- No calls or returns, and all jumps between depths of one parity. -/
def Throughout (steps : List Step) : Prop :=
  ∀ s ∈ steps, s.instr.links = false ∧ ∀ k ∈ steps, s.instr.target?.map Int32.toInt = some ↑k.ip →
    (s.depth + s.instr.opcode.stackDelta) % 2 = k.depth % 2

instance (steps : List Step) : Decidable (Throughout steps) :=
  inferInstanceAs (Decidable (∀ s ∈ steps, _))

/-- A program that is even throughout takes no other steps. -/
theorem of_throughout {steps : List Step} (ht : Throughout steps) {h : Host} {n n' : X64.State}
    (hg : Goes h n n') : Even h steps n n' where
  goes := hg
  unlinked s hs _ := (ht s hs).1
  parity s hs _ k hk t htarget hip _ := (ht s hs).2 k hk (by rw [htarget, Option.map_some, hip])

def after (h : Host) : Nat → X64.State → Option X64.State
  | 0, n => some n
  | count + 1, n =>
      match n.step h with
      | .goes n' => after h count n'
      | _ => none

theorem goes_after {h : Host} {count : Nat} {n n' : X64.State} (ha : after h count n = some n') :
    ReflTransGen (Goes h) n n' := by
  induction count generalizing n with
  | zero =>
      cases ha
      exact .refl
  | succ count ih =>
      unfold after at ha
      split at ha
      next hg => exact .head hg (ih ha)
      next => cases ha

/-- A push, a jump over two more pushes, and a number read: the walk is at depth three there,
the run at depth one. -/
def sample : Bytes :=
  [.push (.reg .ax), .branch .jmp 17, .push (.reg .ax), .push (.reg .ax), .input].flatMap
    Instr.encode

def sampleLayout : Layout :=
  ⟨18, 40, 5, 4, [(0, 0), (4, 1), (9, 6), (13, 7), (17, 8), (18, 40)], [⟨4, 17, 2, .direct⟩],
    [⟨24, .input⟩]⟩

def sampleHost : Host :=
  ⟨(Expected.image ⟨1, 2⟩ (Scan.ofCode sample).instrs).toArray, 0x7f0000000000, 1, 2, 0x400000,
    Binary64.ieee, fun _ => 0⟩

def sampleMachine : X64.State :=
  ⟨0x7f0000000000, Regs.zero.set .rsp 0x7ffe00000078, .zero, .clear,
    ⟨⟨0x7ffe00000000, Array.replicate 128 0⟩, .empty⟩, .ofInput [0x37]⟩

end Even

/-- Ten steps lead up to the call, with seven words on the stack. -/
theorem stack_aligned_along_runs_sample :
    ∃ n', ReflTransGen (Even Even.sampleHost (Walk.ofCode (some Even.sample)).steps)
        Even.sampleMachine n' ∧
      Even.sampleHost.fetch n'.rip = some (.callReg .r11, 3) ∧ n'.rsp.toNat % 16 = 0 := by
  have hl : Layout.ofCode (some Even.sample) = .ok Even.sampleLayout := rfl
  obtain ⟨img, himg, haligned⟩ := stack_aligned_along_runs hl (by decide) ⟨1, 2⟩
  rw [Image.ofCode_eq ⟨1, 2⟩ hl] at himg
  cases himg
  have hten : (Even.after Even.sampleHost 10 Even.sampleMachine).bind
      (fun n' => Even.sampleHost.fetch n'.rip) = some (.callReg .r11, 3) := by decide +kernel
  obtain ⟨n', hafter, hfetch⟩ := Option.bind_eq_some_iff.mp hten
  have hthroughout : Even.Throughout (Walk.ofCode (some Even.sample)).steps := by decide +kernel
  have hrun := ReflTransGen.mono (fun _ _ => Even.of_throughout hthroughout) _ _
    (Even.goes_after hafter)
  exact ⟨n', hrun, hfetch,
    (haligned Even.sampleHost _ _ rfl rfl rfl (by decide +kernel) hrun).2.2 _ _ hfetch⟩

end StackCode.Lowering
