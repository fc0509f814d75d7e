import StackCode.Proofs.Lowering.Placement

/-!
# Lowered programs do what the program does

A machine state corresponds to a bytecode state if the instruction pointer is at the code of
the current instruction and the registers, the stack, the data and the streams are the same.
From corresponding states, a step of the bytecode machine and the code of the instruction
lead to corresponding states again; returning and halting are matched by returning and by
ending the process. By induction a run of any length is followed.

The stack of the machine has a size. How far a program can push is therefore bounded, and
the code of each instruction needs some bytes below the stack pointer for itself.
-/
namespace StackCode.Bytecode

/-- A step goes to the next instruction, to the target of a branch or to a place that a
word on the stack stands for. -/
theorem State.ip_of_execute {a : Arithmetic} {links : Links} {code : Bytes} {s t : State}
    {next : Nat} {i : Instr} (h : s.execute a links code next i = .goes t) :
    t.ip = next ∨ (∃ b target, i = .branch b target ∧ t.ip = target.toInt.toNat) ∨
      t.ip ∈ (Scan.ofCode code).starts ++ [code.length] := by
  cases i with
  | hlt => cases h
  | branch b target =>
      cases b with
      | jmp | call =>
          cases h
          exact .inr (.inl ⟨_, target, rfl, rfl⟩)
      | cond c =>
          simp only [execute] at h
          split at h
          next y x rest hw =>
            cases h
            by_cases hc : c.holds x y
            · exact .inr (.inl ⟨_, target, rfl, if_pos hc⟩)
            · exact .inl (if_neg hc)
          next => cases h
  | ret =>
      simp only [execute] at h
      split at h
      next => cases h
      next w rest hw =>
        split at h
        next => cases h
        next =>
          split at h
          next ip hfind =>
            cases h
            exact .inr (.inr (List.mem_of_find?_eq_some hfind))
          next => cases h
  | input =>
      cases h
      exact .inl rfl
  | pop dst =>
      left
      simp only [execute, goAt] at h
      split at h
      next => cases h
      next w rest hw =>
        cases dst with
        | mem c =>
            simp only at h
            split at h
            next => cases h; rfl
            next => cases h
        | _ => cases h; rfl
  | push src | arith op | sqrt | output =>
      left
      simp only [execute, goAt] at h
      split at h
      next => cases h; rfl
      next => cases h

end StackCode.Bytecode

namespace StackCode.Lowering

open Bytecode X64 Memory Relation

/-- The machine holds what a bytecode state holds, with the stack in its place. -/
structure Agrees (e : Extent) (b : Bytecode.State) (n : X64.State) : Prop where
  regs : ∀ r, n.regs.get (Block.home r) = b.regs.get r
  base : n.memory.stack.base = e.base
  size : n.memory.stack.bytes.size = e.size
  fits : 8 * b.stack.length ≤ e.bottom
  stack : n.memory.stack.Live n.rsp (e.bottom - 8 * b.stack.length) b.stack
  data : n.memory.data = b.data
  streams : n.streams = b.streams
  apart : Space.Apart n.memory.stack n.memory.data

/-- The machine is also at the code of the current instruction, or at the end. -/
structure Corresponds (h : Host) (layout : Layout) (e : Extent) (b : Bytecode.State)
    (n : X64.State) : Prop extends Agrees e b n where
  rip : ∃ native, layout.offset? b.ip = some native ∧ n.rip = h.base + UInt64.ofNat native

/-- What the machine does from `n` on where the bytecode machine takes a step. -/
def Follows (h : Host) (layout : Layout) (e : Extent) (n : X64.State) :
    Transition Bytecode.State → Prop
  | .goes b => ∃ n', TransGen (Goes h) n n' ∧ Corresponds h layout e b n'
  | .returned b => ∃ n', TransGen (Goes h) n n' ∧ n'.step h = .returned n' ∧ Agrees e b n'
  | .halted b => ∃ n' last, ReflTransGen (Goes h) n n' ∧ n'.step h = .halted last ∧
      last.regs.get .rdi = 0 ∧ last.memory.data = b.data ∧ last.streams = b.streams
  | .stuck => True

/-- Bytes that the code of the instruction at `ip` uses below the stack pointer. -/
def frameAt (code : Bytes) (ip : Nat) : Nat :=
  match Instr.read (code.drop ip) with
  | .ok i => Block.frame i
  | .error _ => 0

/-- The image of a program is in the machine. The outside routines and the place where a
run ends are not in it, and the words for offsets are their addresses. -/
structure Loaded (layout : Layout) (native : Bytes) (h : Host) (links : Links) : Prop where
  image : h.image = native.toArray
  outside : ∀ pos < native.length, h.base + UInt64.ofNat pos ∉ [h.home, h.input, h.output]
  routines : h.output ≠ h.input
  address : ∀ (ip offset : Nat), layout.offset? ip = some offset →
    links.address ip = h.base + UInt64.ofNat offset
  home : links.home = h.home

namespace Agrees

variable {e : Extent} {b : Bytecode.State} {n : X64.State}

theorem exists_view (ha : Agrees e b n) :
    ∃ v, Shows n v ∧ Represents e v b ∧ v.below + 8 * b.stack.length = e.bottom := by
  refine ⟨⟨n.regs.get, n.xmm.get, n.memory.stack.base, n.memory.stack.bytes.size,
    e.bottom - 8 * b.stack.length, b.stack, n.memory.data, n.streams⟩, ?_, ?_, ?_⟩
  · exact ⟨fun _ _ _ => rfl, fun _ _ => rfl, rfl, rfl, ha.stack, rfl, rfl, ha.apart⟩
  · exact ⟨ha.base, ha.size, Nat.sub_add_cancel ha.fits, ha.regs, rfl, ha.data, ha.streams⟩
  · exact Nat.sub_add_cancel ha.fits

theorem of_view {v : View} (hs : Shows n v) (hb : Represents e v b) : Agrees e b n where
  regs r := hb.get_home hs r
  base := hs.base.trans hb.base
  size := hs.size.trans hb.size
  fits := by
    have := hb.bottom
    rw [hb.stack] at this
    omega
  stack := by
    have hlive := hs.live
    have hbottom := hb.bottom
    rw [hb.stack] at hlive hbottom
    have hbelow : v.below = e.bottom - 8 * b.stack.length := by omega
    rwa [hbelow] at hlive
  data := hs.data.trans hb.data
  streams := hs.streams.trans hb.streams
  apart := hs.apart

end Agrees

/-! ## One step -/

/-- Where a step goes on there is code. -/
theorem Layout.offset?_of_execute {code : Bytes} {layout : Layout}
    (hl : Layout.ofCode (some code) = .ok layout) {s : Step}
    (hs : s ∈ Step.along 0 0 (Scan.ofCode code).instrs) {a : Arithmetic} {links : Links}
    {b b' : Bytecode.State}
    (hstep : b.execute a links code (s.ip + s.instr.len) s.instr = .goes b') :
    ∃ native, layout.offset? b'.ip = some native := by
  obtain ⟨-, hf, hlayout, -⟩ := Layout.ofCode_eq_ok hl
  rw [hlayout]
  rcases State.ip_of_execute hstep with hip | ⟨br, t, hi, hip⟩ | hip
  · rw [hip]
    exact ⟨_, Layout.offset?_next hf hs⟩
  · obtain ⟨k, hk, ht⟩ := Layout.exists_target hl hs hi
    rw [hip, ← ht, Int.toNat_natCast]
    exact ⟨_, Layout.offset?_step hf hk⟩
  · rcases List.mem_append.mp hip with hip | hip
    · obtain ⟨l, hmem, hlip⟩ := List.mem_map.mp hip
      rw [← Step.map_along 0 0 (Scan.ofCode code).instrs] at hmem
      obtain ⟨k, hk, rfl⟩ := List.mem_map.mp hmem
      rw [← hlip]
      exact ⟨_, Layout.offset?_step hf hk⟩
    · rw [List.mem_singleton.mp hip]
      exact ⟨_, Layout.offset?_end hf⟩

section
variable {code : Bytes} {layout : Layout} {h : Host} {links : Links}
  (hl : Layout.ofCode (some code) = .ok layout) (hsmall : layout.nativeLen < 2 ^ 31)
  (hload : Loaded layout (Expected.image h.helpers (Scan.ofCode code).instrs) h links)
include hl hsmall hload

theorem Loaded.closed : h.Closed := by
  obtain ⟨-, hf, -⟩ := Layout.ofCode_eq_ok hl
  have hlen : h.image.size = layout.nativeLen := by
    rw [hload.image, List.size_toArray, Expected.length_image (Scan.instrs_ascending hf),
      Layout.nativeLen_eq hl]
  refine ⟨by omega, fun pos hpos heq => ?_⟩
  rw [hload.image, List.size_toArray] at hpos
  have := hload.outside pos hpos
  simp [heq] at this

/-- The code of every instruction stands where the offsets say. -/
theorem Loaded.linked {s : Step} (hs : s ∈ Step.along 0 0 (Scan.ofCode code).instrs)
    {n : X64.State} (hrip : n.rip = h.base + UInt64.ofNat s.nativeIp) :
    Linked h links s.instr (s.ip + s.instr.len) (s.rel (Scan.ofCode code).instrs)
      (s.code h.helpers (Scan.ofCode code).instrs) n := by
  obtain ⟨-, hf, hlayout, -⟩ := Layout.ofCode_eq_ok hl
  have hasc := Scan.instrs_ascending hf
  have hlen := Layout.nativeLen_eq hl
  have hbehind : Block.behind (s.code h.helpers (Scan.ofCode code).instrs) n =
      h.base + UInt64.ofNat (s.nativeIp + s.desc.nativeLen) := by
    rw [Block.behind, Step.length_encodeAll_code hasc hs, hrip, UInt64.ofNat_add, UInt64.add_assoc]
  have htarget (b : Branch) (t : Int32) (hi : s.instr = .branch b t) :
      ∃ k ∈ Step.along 0 0 (Scan.ofCode code).instrs, (k.ip : Int) = t.toInt ∧
        links.address t.toInt.toNat = h.base + UInt64.ofNat k.nativeIp := by
    obtain ⟨k, hk, hip⟩ := Layout.exists_target hl hs hi
    refine ⟨k, hk, hip, ?_⟩
    rw [← hip, Int.toNat_natCast]
    exact hload.address _ _ (hlayout ▸ Layout.offset?_step hf hk)
  refine ⟨?_, fun b t hi => ?_, fun b t hi => ?_⟩
  · rw [hbehind]
    exact hload.address _ _ (hlayout ▸ Layout.offset?_next hf hs)
  -- both ends of the branch lie in the image, so the distance fits the field
  · obtain ⟨k, hk, hip, haddr⟩ := htarget b t hi
    have hkend := Step.end_le hk
    have hsend := Step.end_le hs
    have hoffset : Expected.offset (Scan.ofCode code).instrs t.toInt = k.nativeIp := by
      rw [← hip]
      exact Expected.offset_step hasc hk
    have hrel : s.rel (Scan.ofCode code).instrs =
        .ofInt ((k.nativeIp : Int) - (s.nativeIp + s.desc.nativeLen : Nat)) := by
      simp only [Step.rel, hi, Instr.target?, hoffset]
    rw [haddr, hbehind, hrel, UInt64.add_assoc, add_signed32 (by omega) (by omega)]
  · obtain ⟨k, hk, -, haddr⟩ := htarget b t hi
    have hkend := Step.end_le hk
    have hkpos := Step.nativeLen_pos hk
    have hout := hload.outside k.nativeIp (by rw [Expected.length_image hasc]; omega)
    rw [haddr]
    simp only [List.mem_cons, List.not_mem_nil, or_false, not_or] at hout
    exact hout.2

theorem Loaded.follows_step {e : Extent} {b : Bytecode.State} {n : X64.State}
    (hc : Corresponds h layout e b n)
    (hroom : 8 * b.stack.length + frameAt code b.ip ≤ e.bottom) :
    Follows h layout e n (b.step h.arithmetic links code) := by
  obtain ⟨-, hf, hlayout, -⟩ := Layout.ofCode_eq_ok hl
  have hasc := Scan.instrs_ascending hf
  obtain ⟨native, hoffset, hrip⟩ := hc.rip
  rw [hlayout] at hoffset
  rcases Layout.exists_step_of_offset? hoffset with ⟨s, hs, hip, rfl⟩ | hend
  · obtain ⟨before, after, hcut, -⟩ := Step.mem_along.mp hs
    obtain hip : s.ip = b.ip := Int.ofNat.inj hip
    have hread : Instr.read (code.drop b.ip) = .ok s.instr := hip ▸ Scan.read_drop hf hcut
    have hframe : frameAt code b.ip = Block.frame s.instr := by rw [frameAt, hread]
    rw [Bytecode.State.step, hread, ← hip]
    obtain ⟨v, hshow, hrep, hbelow⟩ := hc.exists_view
    have hans := hrep.answers hshow hload.routines (i := s.instr) (by omega)
      (hload.linked hl hsmall hs hrip) code
    have hrun (tr : Transition X64.State)
        (hr : Runs h (s.code h.helpers (Scan.ofCode code).instrs) n tr) :
        ∃ u, ReflTransGen (Goes h) n u ∧ u.step h = tr := by
      refine hr.steps (hload.closed hl hsmall) ?_ (Block.encodable_fill _ _ _)
      rw [hrip]
      exact Step.hasCode hasc hs (by rw [hload.image])
    simp only
    cases hexec : b.execute h.arithmetic links code (s.ip + s.instr.len) s.instr with
    | goes b' =>
        rw [hexec] at hans
        obtain ⟨t, v', hr, hshow', hrep', hrip'⟩ := hans
        obtain ⟨u, hsteps, hlast⟩ := hrun _ hr
        obtain ⟨native, hoffset'⟩ := Layout.offset?_of_execute hl hs hexec
        exact ⟨t, .tail' hsteps hlast, .of_view hshow' hrep',
          native, hoffset', hrip'.trans (hload.address _ _ hoffset')⟩
    | returned b' =>
        rw [hexec] at hans
        obtain ⟨t, v', hr, hshow', hrep', hrip'⟩ := hans
        obtain ⟨u, hsteps, hlast⟩ := hrun _ hr
        have hhome : t.step h = .returned t := if_pos (hrip'.trans hload.home)
        exact ⟨t, .tail' hsteps hlast, hhome, .of_view hshow' hrep'⟩
    | halted b' =>
        rw [hexec] at hans
        obtain ⟨t, hr, hfinal⟩ := hans
        obtain ⟨u, hsteps, hlast⟩ := hrun _ hr
        exact ⟨u, t, hsteps, hlast, hfinal⟩
    | stuck => trivial
  -- the end has an offset but no instruction: the bytecode machine is stuck there
  · have hend : b.ip = code.length := Int.ofNat.inj hend
    have hread : Instr.read (code.drop b.ip) = Instr.read [] := by rw [hend, List.drop_length]
    rw [Bytecode.State.step, hread]
    trivial

/-! ## Runs -/

/-- A run of the bytecode machine that keeps to the room on the stack is followed. -/
theorem Loaded.follows_run {e : Extent} {b b' : Bytecode.State} {n : X64.State}
    (hc : Corresponds h layout e b n)
    (hrun : ReflTransGen (fun b b' => b.step h.arithmetic links code = .goes b' ∧
      8 * b.stack.length + frameAt code b.ip ≤ e.bottom) b b') :
    ∃ n', ReflTransGen (Goes h) n n' ∧ Corresponds h layout e b' n' := by
  induction hrun with
  | refl => exact ⟨n, .refl, hc⟩
  | tail _ hstep ih =>
      obtain ⟨m, hm, hcm⟩ := ih
      have hfollow := hload.follows_step hl hsmall hcm hstep.2
      rw [hstep.1] at hfollow
      obtain ⟨n', hn', hcn'⟩ := hfollow
      exact ⟨n', hm.trans hn'.to_reflTransGen, hcn'⟩

end

/-- Lowering keeps the meaning of every program: the passes produce an image, and a machine
that has it loaded anywhere follows each step of the bytecode machine from every pair of
corresponding states. -/
theorem lowering_preserves_meaning {code : Bytes} {layout : Layout}
    (hl : Layout.ofCode (some code) = .ok layout) (hsmall : layout.nativeLen < 2 ^ 31)
    (helpers : Helpers) :
    ∃ img, Image.ofCode (some code) helpers = .ok img ∧ img.layout = layout ∧
      ∀ h links, h.helpers = helpers → Loaded layout img.native h links →
        ∀ (e : Extent) b n, Corresponds h layout e b n →
          8 * b.stack.length + frameAt code b.ip ≤ e.bottom →
          Follows h layout e n (b.step h.arithmetic links code) := by
  refine ⟨_, Image.ofCode_eq helpers hl, rfl, ?_⟩
  rintro h links rfl hload e b n hc hroom
  exact hload.follows_step hl hsmall hc hroom

namespace Expected

def sampleHost : Host :=
  ⟨(image ⟨1, 2⟩ (Scan.ofCode sample).instrs).toArray, 0x7f0000000000, 1, 2, 0x400000,
    Binary64.ieee, fun _ => 0⟩

def sampleLinks : Links :=
  ⟨fun ip => 0x7f0000000000 + UInt64.ofNat ((sampleLayout.offset? ip).getD 0), 0x400000⟩

/-- One word on a stack of 128 bytes, and a digit to be read. -/
def sampleState : Bytecode.State := ⟨12, .zero, [0], .empty, .ofInput [0x37]⟩

def sampleMachine : X64.State :=
  ⟨0x7f000000000b, Regs.zero.set .rsp 0x7ffe00000078, .zero, .clear,
    ⟨⟨0x7ffe00000000, Array.replicate 128 0⟩, .empty⟩, .ofInput [0x37]⟩

theorem sample_loaded : Loaded sampleLayout (image ⟨1, 2⟩ (Scan.ofCode sample).instrs)
    sampleHost sampleLinks where
  image := rfl
  outside := by
    have hf : (Scan.ofCode sample).fault = none := by decide
    have hlen : (image ⟨1, 2⟩ (Scan.ofCode sample).instrs).length = 57 := by
      rw [length_image (Scan.instrs_ascending hf)]
      rfl
    rw [hlen]
    decide +kernel
  routines := by decide
  address ip offset h := by
    simp only [sampleLinks, h, Option.getD_some]
    rfl
  home := rfl

theorem sample_corresponds :
    Corresponds sampleHost sampleLayout ⟨0x7ffe00000000, 128, 128⟩ sampleState sampleMachine where
  regs r := by cases r <;> rfl
  base := rfl
  size := rfl
  fits := by decide
  stack := by
    refine ⟨rfl, by decide +kernel, by decide +kernel, fun k w hk => ?_⟩
    cases k with
    | zero =>
        cases hk
        decide +kernel
    | succ k => cases hk
  data := rfl
  streams := rfl
  apart addr ha := by simp [sampleMachine, Region.index?, Region.empty] at ha
  rip := ⟨11, rfl, rfl⟩

end Expected

/-- Reading a number at odd depth, with the extra word on the stack. -/
theorem lowering_preserves_meaning_sample :
    ∃ n', TransGen (Goes Expected.sampleHost) Expected.sampleMachine n' ∧
      Corresponds Expected.sampleHost Expected.sampleLayout ⟨0x7ffe00000000, 128, 128⟩
        ⟨13, .zero, [(Streams.ofInput [0x37]).read.1, 0], .empty,
          (Streams.ofInput [0x37]).read.2⟩ n' := by
  have hl : Layout.ofCode (some Expected.sample) = .ok Expected.sampleLayout := rfl
  obtain ⟨img, himg, -, hfollows⟩ := lowering_preserves_meaning hl (by decide) ⟨1, 2⟩
  rw [Image.ofCode_eq ⟨1, 2⟩ hl] at himg
  cases himg
  exact hfollows Expected.sampleHost Expected.sampleLinks rfl Expected.sample_loaded _ _ _
    Expected.sample_corresponds (by decide)

end StackCode.Lowering
