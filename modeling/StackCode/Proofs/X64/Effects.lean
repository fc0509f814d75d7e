import Mathlib.Logic.Function.Basic
import Mathlib.Tactic.Simps.Basic
import StackCode.Proofs.Memory.Words
import StackCode.Proofs.X64.Execution

/-!
# What each instruction does

A `View` is the part of a machine state that lowered code works on: the registers but the
stack pointer, the words from the stack pointer upwards and the room below, the data and
the streams. `Shows` relates a state to it. One lemma per instruction says how the view
changes when the instruction falls through; a call of an outside routine is one of them.
-/
namespace StackCode.X64

open Memory

/-- What is known of a machine state. The stack is a region of `size` bytes at `base`, of
which `below` lie under the stack pointer. -/
structure View where
  regs : Reg → UInt64
  xmm : Reg → UInt64
  base : UInt64
  size : Nat
  below : Nat
  words : List UInt64
  data : Region
  streams : Streams

structure Shows (s : State) (v : View) : Prop where
  regs : ∀ r : Reg, r < 16 → r ≠ .rsp → s.regs.get r = v.regs r
  xmm : ∀ r : Reg, r < 16 → s.xmm.get r = v.xmm r
  base : s.memory.stack.base = v.base
  size : s.memory.stack.bytes.size = v.size
  live : s.memory.stack.Live s.rsp v.below v.words
  data : s.memory.data = v.data
  streams : s.streams = v.streams
  apart : Space.Apart s.memory.stack s.memory.data

namespace View

@[simps]
def setReg (v : View) (r : Reg) (w : UInt64) : View :=
  { v with regs := Function.update v.regs r w }

@[simps]
def setXmm (v : View) (r : Reg) (w : UInt64) : View :=
  { v with xmm := Function.update v.xmm r w }

/-- A word is pushed, into the room below. -/
@[simps]
def push (v : View) (w : UInt64) : View :=
  { v with below := v.below - 8, words := w :: v.words }

@[simps]
def drop (v : View) : View := { v with below := v.below + 8, words := v.words.tail }

/-- An outside routine has used the registers that it may change. -/
@[simps]
def scratched (h : Host) (v : View) : View :=
  { v with regs := fun r => if r ∈ Host.callerSaved then h.scratch r else v.regs r }

@[simps]
def setWord (v : View) (k : Nat) (w : UInt64) : View := { v with words := v.words.set k w }

def slot (v : View) (k : Nat) : UInt64 := v.base + UInt64.ofNat (v.below + 8 * k)

end View

namespace Regs

theorem get_foldl_set (f : Reg → UInt64) {l : List Reg} (hl : ∀ r ∈ l, r < 16) (rs : Regs)
    {q : Reg} (hq : q < 16) :
    (l.foldl (fun rs r => rs.set r (f r)) rs).get q = if q ∈ l then f q else rs.get q := by
  induction l generalizing rs with
  | nil => rfl
  | cons r l ih =>
      rw [List.foldl_cons, ih fun r hr => hl r (.tail _ hr)]
      by_cases hrq : r = q
      · simp [hrq]
      · simp [Ne.symm hrq, get_set_of_ne _ (hl r (.head _)) hq hrq]

end Regs

namespace State

theorem storing_eq {s : State} {addr w : UInt64} {m : Space} (h : s.memory.store? addr w = some m)
    (next : UInt64) (rs : Regs) :
    s.storing next rs addr w = .goes { s with rip := next, regs := rs, memory := m } := by
  simp only [storing, h]

theorem loading_eq {s : State} {addr w : UInt64} (h : s.memory.load? addr = some w)
    (next : UInt64) (r : Reg) :
    s.loading next r addr = .goes { s with rip := next, regs := s.regs.set r w } := by
  simp only [loading, h, withRegs]

end State

namespace Shows

variable {h : Host} {s : State} {v : View}

theorem rsp_add (hs : Shows s v) (k : Nat) : s.rsp + UInt64.ofNat (8 * k) = v.slot k := by
  rw [View.slot, ← hs.base]
  exact hs.live.address_add k

theorem load?_slot (hs : Shows s v) {k : Nat} {w : UInt64} (hw : v.words[k]? = some w) :
    s.memory.load? (v.slot k) = some w := by
  rw [← hs.rsp_add]
  exact Space.load?_stack (hs.live.load?_add hw)

theorem index?_slot (hs : Shows s v) {k : Nat} (hk : k < v.words.length) :
    s.memory.stack.index? (v.slot k) = some (v.below + 8 * k) := by
  rw [← hs.rsp_add]
  exact hs.live.index?_add hk

/-- Registers, vector registers, flags and the instruction pointer can change without
touching memory. -/
theorem of_regs (hs : Shows s v) {rs : Regs} {rf : Reg → UInt64}
    (hregs : ∀ r : Reg, r < 16 → r ≠ .rsp → rs.get r = rf r) (hrsp : rs.get .rsp = s.rsp)
    (rip : UInt64) (flags : Flags) :
    Shows { s with rip := rip, regs := rs, flags := flags } { v with regs := rf } where
  regs := hregs
  xmm := hs.xmm
  base := hs.base
  size := hs.size
  live := by
    have hl := hs.live
    rwa [← hrsp] at hl
  data := hs.data
  streams := hs.streams
  apart := hs.apart

theorem set_reg (hs : Shows s v) {r : Reg} (hr : r < 16) (hne : r ≠ .rsp) (w rip : UInt64)
    (flags : Flags) :
    Shows { s with rip := rip, regs := s.regs.set r w, flags := flags } (v.setReg r w) := by
  refine hs.of_regs (fun q hq hqne => ?_) ?_ rip flags
  · by_cases hrq : r = q
    · subst q
      rw [Regs.get_set_self, Function.update_self]
    · rw [Regs.get_set_of_ne _ hr hq hrq, Function.update_of_ne (Ne.symm hrq), hs.regs q hq hqne]
  · exact Regs.get_set_of_ne _ hr (by decide) hne w

theorem movImm64 (hs : Shows s v) {r : Reg} (hr : r < 16) (hne : r ≠ .rsp) (imm : UInt64) :
    ∃ t, Falls h (.movImm64 r imm) s t ∧ Shows t (v.setReg r imm) :=
  ⟨_, ⟨rfl, rfl⟩, hs.set_reg hr hne imm _ s.flags⟩

theorem movImm32 (hs : Shows s v) {r : Reg} (hr : r < 16) (hne : r ≠ .rsp) (imm : Int32) :
    ∃ t, Falls h (.movImm32 r imm) s t ∧ Shows t (v.setReg r imm.toUInt32.toUInt64) :=
  ⟨_, ⟨rfl, rfl⟩, hs.set_reg hr hne _ _ s.flags⟩

theorem leaRsp (hs : Shows s v) {r : Reg} (hr : r < 16) (hne : r ≠ .rsp) {d : Int8} {k : Nat}
    (hd : signed8 d = UInt64.ofNat (8 * k)) :
    ∃ t, Falls h (.leaRsp r d) s t ∧ Shows t (v.setReg r (v.slot k)) := by
  have ht := hs.set_reg hr hne (s.rsp + signed8 d)
    (s.rip + UInt64.ofNat (Insn.leaRsp r d).encode.length)
    s.flags
  rw [hd, hs.rsp_add] at ht
  refine ⟨_, ⟨?_, rfl⟩, ht⟩
  rw [State.execute, hd, hs.rsp_add]
  rfl

theorem xorSelf (hs : Shows s v) {r : Reg} (hr : r < 16) (hne : r ≠ .rsp) :
    ∃ t, Falls h (.xor r r) s t ∧ Shows t (v.setReg r 0) := by
  have hx : s.regs.get r ^^^ s.regs.get r = 0 := UInt64.xor_self
  refine ⟨_, ⟨rfl, rfl⟩, ?_⟩
  rw [hx]
  exact hs.set_reg hr hne 0 _ _

theorem cmp (hs : Shows s v) {a b : Reg} (ha : a < 16) (hb : b < 16) (hane : a ≠ .rsp)
    (hbne : b ≠ .rsp) :
    ∃ t, Falls h (.cmp a b) s t ∧ Shows t v ∧ t.flags = .ofSub (v.regs a) (v.regs b) := by
  refine ⟨_, ⟨rfl, rfl⟩, hs.of_regs hs.regs rfl _ _, ?_⟩
  rw [← hs.regs a ha hane, ← hs.regs b hb hbne]

theorem of_stack (hs : Shows s v) {sp : UInt64} {stack : Region} {below : Nat}
    {ws : List UInt64} (hbase : stack.base = s.memory.stack.base)
    (hsize : stack.bytes.size = s.memory.stack.bytes.size) (hlive : stack.Live sp below ws)
    (rip : UInt64) (flags : Flags) :
    Shows ⟨rip, s.regs.set .rsp sp, s.xmm, flags, ⟨stack, s.memory.data⟩, s.streams⟩
      { v with below := below, words := ws } where
  regs r hr hne := (Regs.get_set_of_ne _ (by decide) hr (Ne.symm hne) sp).trans (hs.regs r hr hne)
  xmm := hs.xmm
  base := hbase.trans hs.base
  size := hsize.trans hs.size
  live := by rwa [State.rsp, Regs.get_set_self]
  data := hs.data
  streams := hs.streams
  apart addr ha := by
    have := hs.apart addr ha
    rwa [Region.index?, hbase, hsize]

theorem push (hs : Shows s v) {r : Reg} (hr : r < 16) (hne : r ≠ .rsp) (hroom : 8 ≤ v.below) :
    ∃ t, Falls h (.push r) s t ∧ Shows t (v.push (v.regs r)) := by
  have hl := hs.live
  rw [← Nat.sub_add_cancel hroom] at hl
  have hstore := Space.store?_stack hl.index?_sub (s.regs.get r)
  have hlive := hl.push (s.regs.get r)
  refine ⟨_, ⟨State.storing_eq hstore _ _, rfl⟩, ?_⟩
  rw [← hs.regs r hr hne]
  exact hs.of_stack (Region.base_put ..) (Region.size_put ..) hlive _ s.flags

theorem pop (hs : Shows s v) {r : Reg} (hr : r < 16) (hne : r ≠ .rsp) {w : UInt64}
    {ws : List UInt64} (hw : v.words = w :: ws) :
    ∃ t, Falls h (.pop r) s t ∧ Shows t (v.drop.setReg r w) := by
  have hl := hs.live
  rw [hw] at hl
  have hload : s.memory.load? s.rsp = some w := Space.load?_stack hl.load?_top
  have hmoved := hs.of_stack rfl rfl hl.pop
    (s.rip + UInt64.ofNat (Insn.pop r).encode.length) s.flags
  refine ⟨_, ⟨by simp only [State.execute, hload, State.withRegs]; rfl, rfl⟩, ?_⟩
  have ht := hmoved.set_reg hr hne w (s.rip + UInt64.ofNat (Insn.pop r).encode.length) s.flags
  rwa [← show v.words.tail = ws by rw [hw]; rfl] at ht

/-- The stack pointer moves down over a word that is not known. -/
theorem subRsp (hs : Shows s v) (hroom : 8 ≤ v.below) :
    ∃ t w, Falls h (.subImm .rsp 8) s t ∧ Shows t (v.push w) := by
  have hl := hs.live
  rw [← Nat.sub_add_cancel hroom] at hl
  exact ⟨_, _, ⟨rfl, rfl⟩, hs.of_stack rfl rfl hl.grow _ _⟩

theorem addRsp (hs : Shows s v) {w : UInt64} {ws : List UInt64} (hw : v.words = w :: ws) :
    ∃ t, Falls h (.addImm .rsp 8) s t ∧ Shows t v.drop := by
  have hl := hs.live
  rw [hw] at hl
  refine ⟨_, ⟨rfl, rfl⟩, ?_⟩
  have ht := hs.of_stack rfl rfl hl.pop (s.rip + UInt64.ofNat (Insn.addImm .rsp 8).encode.length)
    (.ofAdd (s.regs.get .rsp) (signed8 8))
  rwa [← show v.words.tail = ws by rw [hw]; rfl] at ht

theorem loads (hs : Shows s v) {i : Insn} {r : Reg} (hr : r < 16) (hne : r ≠ .rsp)
    {addr w : UInt64} (hi : ∀ next, s.execute h next i = s.loading next r addr)
    (hd : v.data.load? addr = some w) :
    ∃ t, Falls h i s t ∧ Shows t (v.setReg r w) := by
  have hload := Space.load?_data hs.apart (hs.data ▸ hd)
  exact ⟨_, ⟨(hi _).trans (State.loading_eq hload _ _), rfl⟩, hs.set_reg hr hne w _ s.flags⟩

theorem stores (hs : Shows s v) {i : Insn} {addr w : UInt64} {k : Nat}
    (hi : ∀ next, s.execute h next i = s.storing next s.regs addr w)
    (hd : v.data.index? addr = some k) :
    ∃ t, Falls h i s t ∧ Shows t { v with data := v.data.put k w } := by
  have hstore := Space.store?_data hs.apart (hs.data ▸ hd) w
  refine ⟨_, ⟨(hi _).trans (State.storing_eq hstore _ _), rfl⟩, ?_⟩
  exact
    { regs := hs.regs
      xmm := hs.xmm
      base := hs.base
      size := hs.size
      live := hs.live
      data := by rw [hs.data]
      streams := hs.streams
      apart := fun addr ha => hs.apart addr (by rwa [Region.index?_put] at ha) }

/-! ## Doubles -/

theorem set_xmm (hs : Shows s v) {x : Reg} (hx : x < 16) (w rip : UInt64) :
    Shows { s with rip := rip, xmm := s.xmm.set x w } (v.setXmm x w) where
  regs := hs.regs
  xmm q hq := by
    by_cases hxq : x = q
    · subst q
      rw [View.setXmm_xmm, Regs.get_set_self, Function.update_self]
    · rw [View.setXmm_xmm, Regs.get_set_of_ne _ hx hq hxq, Function.update_of_ne (Ne.symm hxq),
        hs.xmm q hq]
  base := hs.base
  size := hs.size
  live := hs.live
  data := hs.data
  streams := hs.streams
  apart := hs.apart

theorem movsdLoad (hs : Shows s v) {x : Reg} (hx : x < 16) {d : Int8} {k : Nat} {w : UInt64}
    (hd : signed8 d = UInt64.ofNat (8 * k)) (hw : v.words[k]? = some w) :
    ∃ t, Falls h (.movsdLoad x d) s t ∧ Shows t (v.setXmm x w) := by
  have hload := hs.load?_slot hw
  rw [← hs.rsp_add, ← hd] at hload
  exact ⟨_, ⟨by simp only [State.execute, hload], rfl⟩, hs.set_xmm hx w _⟩

theorem sqrtsd (hs : Shows s v) {x : Reg} (hx : x < 16) {d : Int8} {k : Nat} {w : UInt64}
    (hd : signed8 d = UInt64.ofNat (8 * k)) (hw : v.words[k]? = some w) :
    ∃ t, Falls h (.sqrtsd x d) s t ∧ Shows t (v.setXmm x (h.arithmetic.sqrt w)) := by
  have hload := hs.load?_slot hw
  rw [← hs.rsp_add, ← hd] at hload
  exact ⟨_, ⟨by simp only [State.execute, hload], rfl⟩, hs.set_xmm hx _ _⟩

theorem arithsd (hs : Shows s v) {op : UInt8} {x y : Reg} (hx : x < 16) (hy : y < 16)
    {f : UInt64 → UInt64 → UInt64} (hf : h.scalar? op = some f) :
    ∃ t, Falls h (.arithsd op x y) s t ∧ Shows t (v.setXmm x (f (v.xmm x) (v.xmm y))) := by
  refine ⟨_, ⟨by simp only [State.execute, hf]; rfl, rfl⟩, ?_⟩
  rw [← hs.xmm x hx, ← hs.xmm y hy]
  exact hs.set_xmm hx _ _

theorem put_slot (hs : Shows s v) {k : Nat} (hk : k < v.words.length) (w rip : UInt64) :
    Shows { s with rip := rip, memory := ⟨s.memory.stack.put (v.below + 8 * k) w, s.memory.data⟩ }
      (v.setWord k w) where
  regs := hs.regs
  xmm := hs.xmm
  base := (Region.base_put ..).trans hs.base
  size := (Region.size_put ..).trans hs.size
  live := hs.live.put_add hk w
  data := hs.data
  streams := hs.streams
  apart addr ha := by
    rw [Region.index?_put]
    exact hs.apart addr ha

theorem movsdStore (hs : Shows s v) {x : Reg} (hx : x < 16) {d : Int8} {k : Nat}
    (hd : signed8 d = UInt64.ofNat (8 * k)) (hk : k < v.words.length) :
    ∃ t, Falls h (.movsdStore d x) s t ∧ Shows t (v.setWord k (v.xmm x)) := by
  have hindex := hs.index?_slot hk
  rw [← hs.rsp_add, ← hd] at hindex
  have hstore := Space.store?_stack hindex (s.xmm.get x)
  refine ⟨_, ⟨State.storing_eq hstore _ _, rfl⟩, ?_⟩
  rw [← hs.xmm x hx]
  exact hs.put_slot hk _ _

/-! ## Calls of outside routines -/

theorem scratched (hs : Shows s v) (rip : UInt64) :
    Shows { s with rip := rip, regs := h.scratched s.regs } (v.scratched h) := by
  have hlt : ∀ r ∈ Host.callerSaved, r < 16 := by decide +kernel
  refine hs.of_regs (fun r hr hne => ?_) ?_ rip s.flags
  · rw [Host.scratched, Regs.get_foldl_set _ hlt _ hr, hs.regs r hr hne]
  · exact Regs.get_foldl_set _ hlt _ (by decide)

theorem put_below (hs : Shows s v) {i : Nat} (hi : i + 8 ≤ v.below) (w rip : UInt64) :
    Shows { s with rip := rip, memory := ⟨s.memory.stack.put i w, s.memory.data⟩ } v where
  regs := hs.regs
  xmm := hs.xmm
  base := (Region.base_put ..).trans hs.base
  size := (Region.size_put ..).trans hs.size
  live := hs.live.put_below hi w
  data := hs.data
  streams := hs.streams
  apart addr ha := by
    rw [Region.index?_put]
    exact hs.apart addr ha

theorem with_streams (hs : Shows s v) (st : Streams) :
    Shows { s with streams := st } { v with streams := st } where
  regs := hs.regs
  xmm := hs.xmm
  base := hs.base
  size := hs.size
  live := hs.live
  data := hs.data
  streams := rfl
  apart := hs.apart

/-- The return address of an outside routine goes below the stack pointer. -/
theorem store?_return (hs : Shows s v) (hroom : 8 ≤ v.below) (w : UInt64) :
    s.memory.store? (s.regs.get .rsp - 8) w =
      some ⟨s.memory.stack.put (v.below - 8) w, s.memory.data⟩ := by
  have hl := hs.live
  rw [← Nat.sub_add_cancel hroom] at hl
  exact Space.store?_stack hl.index?_sub w

section
variable (hs : Shows s v) {r : Reg} (hr : r < 16) (hne : r ≠ .rsp) (hroom : 8 ≤ v.below)
  {k : Nat} (hrdi : v.regs .rdi = v.slot k)
include hs hr hne hroom hrdi

theorem callInput (hin : v.regs r = h.input) (hk : k < v.words.length) :
    ∃ t, Falls h (.callReg r) s t ∧
      Shows t { (v.setWord k v.streams.read.1).scratched h with streams := v.streams.read.2 } := by
  have hs' := hs.put_below (i := v.below - 8) (by omega)
    (s.rip + UInt64.ofNat (Insn.callReg r).encode.length) s.rip
  have htarget : s.regs.get r = h.input := (hs.regs r hr hne).trans hin
  have hptr : s.regs.get .rdi = v.slot k := (hs.regs .rdi (by decide) (by decide)).trans hrdi
  have hstore := Space.store?_stack (hs'.index?_slot hk) v.streams.read.1
  refine ⟨_, ⟨?_, rfl⟩, ((hs'.put_slot hk _ s.rip).scratched _).with_streams _⟩
  simp only [State.execute, State.calling, htarget, true_or, if_pos, hs.store?_return hroom,
    State.readNumber, hs.streams, hptr, hstore]

theorem callOutput (hout : v.regs r = h.output) (hio : h.output ≠ h.input)
    {w : UInt64} (hw : v.words[k]? = some w) :
    ∃ t, Falls h (.callReg r) s t ∧
      Shows t { v.scratched h with streams := v.streams.print w } := by
  have hs' := hs.put_below (i := v.below - 8) (by omega)
    (s.rip + UInt64.ofNat (Insn.callReg r).encode.length) s.rip
  have htarget : s.regs.get r = h.output := (hs.regs r hr hne).trans hout
  have hptr : s.regs.get .rdi = v.slot k := (hs.regs .rdi (by decide) (by decide)).trans hrdi
  have hload := hs'.load?_slot hw
  refine ⟨_, ⟨?_, rfl⟩, (hs'.scratched _).with_streams _⟩
  simp only [State.execute, State.calling, htarget, or_true, if_pos, if_neg hio,
    hs.store?_return hroom, State.printNumber, hs.streams, hptr, hload]

end

/-! ## Saving and restoring registers -/

theorem pushes (hs : Shows s v) {rs : List Reg} (hrs : ∀ r ∈ rs, r < 16 ∧ r ≠ .rsp)
    (hroom : 8 * rs.length ≤ v.below) :
    ∃ t, Through h (rs.map .push) s t ∧
      Shows t { v with below := v.below - 8 * rs.length,
                       words := rs.reverse.map v.regs ++ v.words } := by
  induction rs generalizing s v with
  | nil => exact ⟨s, .nil s, hs⟩
  | cons r rs ih =>
      rw [List.length_cons] at hroom
      obtain ⟨hr, hne⟩ := hrs r (.head _)
      obtain ⟨t, hf, ht⟩ := hs.push (h := h) hr hne (by omega)
      obtain ⟨u, hthrough, hu⟩ := ih ht (fun q hq => hrs q (.tail _ hq))
        (by simp only [View.push_below]; omega)
      refine ⟨u, .cons hf hthrough, ?_⟩
      have hbelow : v.below - 8 - 8 * rs.length = v.below - 8 * (rs.length + 1) := by omega
      simpa [View.push, hbelow] using hu

/-- Popping registers one by one, where the words on top are the values of `f` at them. -/
theorem pops (hs : Shows s v) {rs : List Reg} (hrs : ∀ r ∈ rs, r < 16 ∧ r ≠ .rsp)
    {f : Reg → UInt64} {ws : List UInt64} (hw : v.words = rs.map f ++ ws) :
    ∃ t, Through h (rs.map .pop) s t ∧
      Shows t { v with regs := fun r => if r ∈ rs then f r else v.regs r,
                       below := v.below + 8 * rs.length, words := ws } := by
  induction rs generalizing s v with
  | nil =>
      refine ⟨s, .nil s, ?_⟩
      obtain rfl : v.words = ws := hw
      simpa using hs
  | cons r rs ih =>
      obtain ⟨hr, hne⟩ := hrs r (.head _)
      obtain ⟨t, hf, ht⟩ := hs.pop (h := h) hr hne hw
      obtain ⟨u, hthrough, hu⟩ := ih ht (fun q hq => hrs q (.tail _ hq))
        (by simp [hw])
      refine ⟨u, .cons hf hthrough, ?_⟩
      have hregs : (fun q => if q ∈ rs then f q else Function.update v.regs r (f r) q) =
          fun q => if q ∈ r :: rs then f q else v.regs q := by
        funext q
        by_cases hq : q = r <;> simp [hq]
      have hbelow : v.below + 8 + 8 * rs.length = v.below + 8 * (rs.length + 1) := by omega
      simpa [View.setReg, View.drop, hregs, hbelow] using hu

/-! ## Going elsewhere -/

theorem go (hs : Shows s v) (rip : UInt64) : Shows { s with rip := rip } v :=
  hs.of_regs hs.regs rfl rip s.flags

theorem call (hs : Shows s v) (hroom : 8 ≤ v.below) {next : UInt64} {rel : Int32}
    (hin : next + signed32 rel ≠ h.input) (hout : next + signed32 rel ≠ h.output) :
    ∃ t, s.execute h next (.call rel) = .goes t ∧ Shows t (v.push next) ∧
      t.rip = next + signed32 rel := by
  have hl := hs.live
  rw [← Nat.sub_add_cancel hroom] at hl
  have hstore := Space.store?_stack hl.index?_sub next
  refine ⟨_, ?_, hs.of_stack (Region.base_put ..) (Region.size_put ..) (hl.push next) _ s.flags,
    rfl⟩
  rw [State.execute, State.calling, if_neg (not_or.mpr ⟨hin, hout⟩)]
  exact State.storing_eq hstore _ _

theorem ret (hs : Shows s v) {w : UInt64} {ws : List UInt64} (hw : v.words = w :: ws)
    (next : UInt64) : ∃ t, s.execute h next .ret = .goes t ∧ Shows t v.drop ∧ t.rip = w := by
  have hl := hs.live
  rw [hw] at hl
  have hload : s.memory.load? s.rsp = some w := Space.load?_stack hl.load?_top
  have ht := hs.of_stack rfl rfl hl.pop w s.flags
  rw [← show v.words.tail = ws by rw [hw]; rfl] at ht
  exact ⟨_, by simp only [State.execute, hload, State.withRegs], ht, rfl⟩

end Shows

end StackCode.X64
