import StackCode.Bytecode.Machine
import StackCode.Proofs.Lowering.Catalog
import StackCode.Proofs.X64.Effects

/-!
# What the code of an instruction does

The machine instructions of a bytecode instruction, with values in their fields, do what
the instruction means: started on a view of the machine that represents a bytecode state,
they end in one that represents the next state, on the same stack. Registers other than
the four that hold bytecode registers may change, and so may the words below the stack
pointer, of which the code uses a bounded number.
-/
namespace StackCode

def X64.Host.helpers (h : X64.Host) : Lowering.Helpers := ⟨h.input, h.output⟩

namespace Lowering

open Bytecode X64 Memory

-- Unfolding what is stored would only show bytes.
attribute [local irreducible] Region.put

/-- Where a stack lies: its region, and the offset in it behind the word pushed first. -/
structure Extent where
  base : UInt64
  size : Nat
  bottom : Nat
deriving DecidableEq, Repr

/-- A view of the machine represents a bytecode state, with the stack in its place. -/
structure Represents (e : Extent) (v : View) (b : Bytecode.State) : Prop where
  base : v.base = e.base
  size : v.size = e.size
  bottom : v.below + 8 * v.words.length = e.bottom
  regs : ∀ r, v.regs (Block.home r) = b.regs.get r
  stack : v.words = b.stack
  data : v.data = b.data
  streams : v.streams = b.streams

/-- What the passes put into the field of an instruction's code: `rel` for a branch. -/
def Block.field (h : Helpers) (rel : Int32) : Instr → Field
  | .push (.imm bits) => .word64 bits
  | .push (.mem (.abs d)) | .push (.mem (.off _ d)) => .word32 d
  | .pop (.mem (.abs d)) | .pop (.mem (.off _ d)) => .word32 d
  | .input => .word64 h.input
  | .output => .word64 h.output
  | .branch _ _ => .word32 rel
  | .push (.reg _) | .push (.mem (.ptr _)) => .word32 0
  | .pop .discard | .pop (.reg _) | .pop (.mem (.ptr _)) => .word32 0
  | .hlt | .arith _ | .sqrt | .ret => .word32 0

namespace Block

def code (h : Helpers) (rel : Int32) (i : Instr) (padded : Bool) : List Insn :=
  (ofInstr i padded).fill (field h rel i)

/-- Bytes that an instruction's code uses below the stack pointer. -/
def frame : Instr → Nat
  | .push _ | .branch .call _ => 8
  | .input => 56
  | .output => 48
  | .branch .jmp _ | .branch (.cond _) _ => 0
  | .hlt | .pop _ | .arith _ | .sqrt | .ret => 0

theorem home_lt (r : Register) : home r < 16 ∧ home r ≠ .rsp := by
  cases r <;> decide

theorem home_ne {r : Register} {q : Reg} (hq : q ∉ saved) : home r ≠ q := by
  rintro rfl
  cases r <;> simp [home, saved] at hq

theorem home_mem (r : Register) : home r ∈ saved := by
  cases r <;> decide

theorem home_inj {q r : Register} (h : home q = home r) : q = r := by
  cases q <;> cases r <;> first | rfl | (exact absurd h (by decide))

end Block

namespace Represents

variable {e : Extent} {v : View} {b : Bytecode.State} {w : UInt64}

theorem setReg (hb : Represents e v b) {q : Reg} (hq : q ∉ Block.saved) (w : UInt64) :
    Represents e (v.setReg q w) b where
  base := hb.base
  size := hb.size
  bottom := hb.bottom
  regs r := by
    rw [View.setReg_regs, Function.update_of_ne (Block.home_ne hq), hb.regs]
  stack := hb.stack
  data := hb.data
  streams := hb.streams

theorem setHome (hb : Represents e v b) (q : Register) (w : UInt64) :
    Represents e (v.setReg (Block.home q) w) { b with regs := b.regs.set w q } where
  base := hb.base
  size := hb.size
  bottom := hb.bottom
  regs r := by
    rw [View.setReg_regs]
    by_cases hr : r = q
    · subst r
      rw [Function.update_self]
      cases q <;> rfl
    · rw [Function.update_of_ne fun h => hr (Block.home_inj h), hb.regs]
      cases r <;> cases q <;> first | rfl | (exact absurd rfl hr)
  stack := hb.stack
  data := hb.data
  streams := hb.streams

theorem setXmm (hb : Represents e v b) (x : Reg) (w : UInt64) :
    Represents e (v.setXmm x w) b where
  base := hb.base
  size := hb.size
  bottom := hb.bottom
  regs := hb.regs
  stack := hb.stack
  data := hb.data
  streams := hb.streams

theorem push (hb : Represents e v b) (hroom : 8 ≤ v.below) (w : UInt64) :
    Represents e (v.push w) { b with stack := w :: b.stack } where
  base := hb.base
  size := hb.size
  bottom := by
    have := hb.bottom
    simp only [View.push_below, View.push_words, List.length_cons]
    omega
  regs := hb.regs
  stack := congrArg _ hb.stack
  data := hb.data
  streams := hb.streams

theorem drop (hb : Represents e v b) {rest : List UInt64} (hw : b.stack = w :: rest) :
    Represents e v.drop { b with stack := rest } where
  base := hb.base
  size := hb.size
  bottom := by
    have := hb.bottom
    simp only [hb.stack, hw, List.length_cons] at this
    simp only [View.drop_below, View.drop_words, hb.stack, hw, List.tail_cons]
    omega
  regs := hb.regs
  stack := by simp only [View.drop_words, hb.stack, hw, List.tail_cons]
  data := hb.data
  streams := hb.streams

theorem setWord (hb : Represents e v b) (k : Nat) (w : UInt64) :
    Represents e (v.setWord k w) { b with stack := b.stack.set k w } where
  base := hb.base
  size := hb.size
  bottom := by
    have := hb.bottom
    simpa using this
  regs := hb.regs
  stack := by simp only [View.setWord_words, hb.stack]
  data := hb.data
  streams := hb.streams

theorem putData (hb : Represents e v b) (k : Nat) (w : UInt64) :
    Represents e { v with data := v.data.put k w } { b with data := b.data.put k w } where
  base := hb.base
  size := hb.size
  bottom := hb.bottom
  regs := hb.regs
  stack := hb.stack
  data := by rw [hb.data]
  streams := hb.streams

end Represents

/-! ## Pushing and popping -/

/-- Instructions in a row lead to a view that represents `b`. -/
def Carries (h : Host) (e : Extent) (is : List Insn) (s : X64.State) (b : Bytecode.State) :
    Prop :=
  ∃ t v, Through h is s t ∧ Shows t v ∧ Represents e v b

def Block.load : Cell → Insn
  | .abs d => .loadAbs .rdi d
  | .ptr r => .load .rdi (home r)
  | .off r d => .loadDisp .rdi (home r) d

def Block.store : Cell → Insn
  | .abs d => .storeAbs d .rdi
  | .ptr r => .store (home r) .rdi
  | .off r d => .storeDisp (home r) d .rdi

section
variable {h : Host} {e : Extent} {s : X64.State} {v : View} {b : Bytecode.State}
  {helpers : Helpers} {rel : Int32} {padded : Bool}

theorem Represents.get_home (hb : Represents e v b) (hs : Shows s v) (r : Register) :
    s.regs.get (Block.home r) = b.regs.get r := by
  obtain ⟨hlt, hne⟩ := Block.home_lt r
  rw [hs.regs _ hlt hne, hb.regs]

theorem Represents.load_cell (hb : Represents e v b) (hs : Shows s v) {c : Cell} {w : UInt64}
    (hw : b.data.load? (c.address b.regs) = some w) :
    ∃ t, Falls h (Block.load c) s t ∧ Shows t (v.setReg .rdi w) := by
  rw [← hb.data] at hw
  refine hs.loads (by decide) (by decide) (fun next => ?_) hw
  cases c with
  | abs d => rfl
  | ptr r => simp only [Block.load, X64.State.execute, hb.get_home hs, Cell.address]
  | off r d =>
      simp only [Block.load, X64.State.execute, hb.get_home hs, Cell.address]
      rfl

theorem Represents.store_cell (hb : Represents e v b) (hs : Shows s v) {c : Cell} {k : Nat}
    (hk : b.data.index? (c.address b.regs) = some k) :
    ∃ t, Falls h (Block.store c) s t ∧
      Shows t { v with data := v.data.put k (v.regs .rdi) } := by
  rw [← hb.data] at hk
  refine hs.stores (fun next => ?_) hk
  have hrdi := hs.regs .rdi (by decide) (by decide)
  cases c with
  | abs d =>
      simp only [Block.store, X64.State.execute, hrdi]
      rfl
  | ptr r => simp only [Block.store, X64.State.execute, hb.get_home hs, hrdi, Cell.address]
  | off r d =>
      simp only [Block.store, X64.State.execute, hb.get_home hs, hrdi, Cell.address]
      rfl

theorem Block.code_push_mem (c : Cell) :
    code helpers rel (.push (.mem c)) padded = [load c, .push .rdi] := by
  cases c <;> rfl

theorem Block.code_pop_mem (c : Cell) :
    code helpers rel (.pop (.mem c)) padded = [.pop .rdi, store c] := by
  cases c <;> rfl

theorem Represents.push_rdi (hb : Represents e v b) (hroom : 8 ≤ v.below)
    {i : Insn} {w : UInt64} (hi : ∃ t, Falls h i s t ∧ Shows t (v.setReg .rdi w)) :
    Carries h e [i, .push .rdi] s { b with stack := w :: b.stack } := by
  obtain ⟨t, hf, ht⟩ := hi
  have hbt := hb.setReg (q := .rdi) (by decide) w
  obtain ⟨u, hg, hu⟩ := ht.push (h := h) (r := .rdi) (by decide) (by decide) hroom
  rw [View.setReg_regs, Function.update_self] at hu
  exact ⟨u, _, .cons hf (.cons hg (.nil u)), hu, hbt.push hroom w⟩

theorem Represents.carries_push (hb : Represents e v b) (hs : Shows s v) {src : Source}
    (hroom : 8 ≤ v.below) {w : UInt64} (hw : b.value? src = some w) :
    Carries h e (Block.code helpers rel (.push src) padded) s { b with stack := w :: b.stack } := by
  cases src with
  | imm bits =>
      cases hw
      exact hb.push_rdi hroom (hs.movImm64 (by decide) (by decide) w)
  | reg r =>
      cases hw
      obtain ⟨hlt, hne⟩ := Block.home_lt r
      obtain ⟨t, hf, ht⟩ := hs.push (h := h) hlt hne hroom
      rw [hb.regs] at ht
      exact ⟨t, _, .cons hf (.nil t), ht, hb.push hroom _⟩
  | mem c =>
      rw [Block.code_push_mem]
      exact hb.push_rdi hroom (hb.load_cell hs hw)

theorem Represents.pop_into (hb : Represents e v b) (hs : Shows s v) {q : Reg} (hq : q < 16)
    (hne : q ≠ .rsp) {w : UInt64} {rest : List UInt64} (hw : b.stack = w :: rest) :
    ∃ t, Falls h (.pop q) s t ∧ Shows t (v.drop.setReg q w) :=
  hs.pop hq hne (hb.stack.trans hw)

theorem Represents.carries_discard (hb : Represents e v b) (hs : Shows s v) {w : UInt64}
    {rest : List UInt64} (hw : b.stack = w :: rest) :
    Carries h e (Block.code helpers rel (.pop .discard) padded) s { b with stack := rest } := by
  obtain ⟨t, hf, ht⟩ := hb.pop_into (h := h) hs (q := .rdi) (by decide) (by decide) hw
  exact ⟨t, _, .cons hf (.nil t), ht, (hb.drop hw).setReg (by decide) w⟩

theorem Represents.carries_pop_reg (hb : Represents e v b) (hs : Shows s v) (r : Register)
    {w : UInt64} {rest : List UInt64} (hw : b.stack = w :: rest) :
    Carries h e (Block.code helpers rel (.pop (.reg r)) padded) s
      { b with regs := b.regs.set w r, stack := rest } := by
  obtain ⟨hlt, hne⟩ := Block.home_lt r
  obtain ⟨t, hf, ht⟩ := hb.pop_into (h := h) hs hlt hne hw
  exact ⟨t, _, .cons hf (.nil t), ht, (hb.drop hw).setHome r w⟩

theorem Represents.carries_pop_mem (hb : Represents e v b) (hs : Shows s v) {c : Cell} {k : Nat}
    (hk : b.data.index? (c.address b.regs) = some k) {w : UInt64} {rest : List UInt64}
    (hw : b.stack = w :: rest) :
    Carries h e (Block.code helpers rel (.pop (.mem c)) padded) s
      { b with data := b.data.put k w, stack := rest } := by
  obtain ⟨t, hf, ht⟩ := hb.pop_into (h := h) hs (q := .rdi) (by decide) (by decide) hw
  have hbt := (hb.drop hw).setReg (q := .rdi) (by decide) w
  obtain ⟨u, hg, hu⟩ := hbt.store_cell (h := h) ht hk
  rw [View.setReg_regs, Function.update_self] at hu
  rw [Block.code_pop_mem]
  exact ⟨u, _, .cons hf (.cons hg (.nil u)), hu, hbt.putData k w⟩

/-! ## Doubles -/

theorem Block.scalar?_scalarOp (h : Host) (op : Arith) :
    h.scalar? (scalarOp op) = some (op.apply h.arithmetic) := by
  cases op <;> rfl

/-- The word pushed first is the left operand. -/
theorem Represents.carries_arith (hb : Represents e v b) (hs : Shows s v) (op : Arith)
    {x y : UInt64} {rest : List UInt64} (hw : b.stack = y :: x :: rest) :
    Carries h e (Block.code helpers rel (.arith op) padded) s
      { b with stack := op.apply h.arithmetic x y :: rest } := by
  have hwords : v.words = y :: x :: rest := hb.stack.trans hw
  have hx : v.words[1]? = some x := by rw [hwords]; rfl
  obtain ⟨s₁, f₁, h₁⟩ := hs.movsdLoad (h := h) (x := 1) (d := 8) (by decide) rfl hx
  have hy : (v.setXmm 1 x).words[0]? = some y := by rw [View.setXmm_words, hwords]; rfl
  obtain ⟨s₂, f₂, h₂⟩ := h₁.movsdLoad (h := h) (x := 2) (d := 0) (by decide) rfl hy
  obtain ⟨s₃, f₃, h₃⟩ := h₂.addRsp (h := h) hwords
  obtain ⟨s₄, f₄, h₄⟩ := h₃.arithsd (x := 1) (y := 2) (by decide) (by decide)
    (Block.scalar?_scalarOp h op)
  have hb₄ := (((hb.setXmm 1 x).setXmm 2 y).drop hw).setXmm 1 (op.apply h.arithmetic x y)
  have hxmm : op.apply h.arithmetic (((v.setXmm 1 x).setXmm 2 y).drop.xmm 1)
      (((v.setXmm 1 x).setXmm 2 y).drop.xmm 2) = op.apply h.arithmetic x y := by
    simp [View.drop_xmm, View.setXmm_xmm]
  rw [hxmm] at h₄
  obtain ⟨s₅, f₅, h₅⟩ := h₄.movsdStore (h := h) (x := 1) (d := 0) (k := 0) (by decide) rfl
    (by rw [hb₄.stack]; exact Nat.succ_pos _)
  have hb₅ := hb₄.setWord 0 (op.apply h.arithmetic x y)
  rw [View.setXmm_xmm, Function.update_self] at h₅
  exact ⟨s₅, _, .cons f₁ (.cons f₂ (.cons f₃ (.cons f₄ (.cons f₅ (.nil s₅))))), h₅, hb₅⟩

theorem Represents.carries_sqrt (hb : Represents e v b) (hs : Shows s v) {x : UInt64}
    {rest : List UInt64} (hw : b.stack = x :: rest) :
    Carries h e (Block.code helpers rel .sqrt padded) s
      { b with stack := h.arithmetic.sqrt x :: rest } := by
  have hx : v.words[0]? = some x := by rw [hb.stack, hw]; rfl
  obtain ⟨s₁, f₁, h₁⟩ := hs.sqrtsd (h := h) (x := 1) (d := 0) (by decide) rfl hx
  have hb₁ := hb.setXmm 1 (h.arithmetic.sqrt x)
  obtain ⟨s₂, f₂, h₂⟩ := h₁.movsdStore (h := h) (x := 1) (d := 0) (k := 0) (by decide) rfl
    (by rw [hb₁.stack, hw]; exact Nat.succ_pos _)
  have hb₂ := hb₁.setWord 0 (h.arithmetic.sqrt x)
  rw [View.setXmm_xmm, Function.update_self] at h₂
  rw [hw] at hb₂
  exact ⟨s₂, _, .cons f₁ (.cons f₂ (.nil s₂)), h₂, hb₂⟩

/-! ## Calls of the outside routines -/

/-- What an outside routine does to the word that it is given, and to the streams. -/
def Helper.act (helper : Helper) (w : UInt64) (st : Streams) : UInt64 × Streams :=
  match helper with
  | .input => st.read
  | .output => (w, st.print w)

/-- The address of the word at depth `k` is handed to an outside routine. -/
theorem call_helper (hs : Shows s v) (hio : h.output ≠ h.input) (helper : Helper)
    (hroom : 8 ≤ v.below) {k : Nat} {w : UInt64} (hrdi : v.regs .rdi = v.slot k)
    (hw : v.words[k]? = some w) :
    ∃ t rf, Through h [.movImm64 .r11 (h.helpers.addr helper),
        .callReg .r11] s t ∧
      Shows t { v with
        regs := rf
        words := v.words.set k (helper.act w v.streams).1
        streams := (helper.act w v.streams).2 } := by
  have hk : k < v.words.length := (List.getElem?_eq_some_iff.mp hw).choose
  obtain ⟨s₁, f₁, h₁⟩ := hs.movImm64 (h := h) (r := .r11) (by decide) (by decide)
    (h.helpers.addr helper)
  have hr11 : (v.setReg .r11 (h.helpers.addr helper)).regs .r11 =
      h.helpers.addr helper := by
    rw [View.setReg_regs, Function.update_self]
  have hrdi' : (v.setReg .r11 (h.helpers.addr helper)).regs .rdi = v.slot k := by
    rw [View.setReg_regs, Function.update_of_ne (by decide), hrdi]
  cases helper with
  | input =>
      obtain ⟨s₂, f₂, h₂⟩ := h₁.callInput (by decide) (by decide) hroom hrdi' hr11 hk
      exact ⟨s₂, _, .cons f₁ (.cons f₂ (.nil s₂)), h₂⟩
  | output =>
      obtain ⟨s₂, f₂, h₂⟩ := h₁.callOutput (by decide) (by decide) hroom hrdi' hr11 hio hw
      have hset : v.words.set k w = v.words := by
        obtain ⟨_, hget⟩ := List.getElem?_eq_some_iff.mp hw
        rw [← hget, List.set_getElem_self]
      simp only [Helper.act, hset]
      exact ⟨s₂, _, .cons f₁ (.cons f₂ (.nil s₂)), h₂⟩

theorem call_padded (hs : Shows s v) (hio : h.output ≠ h.input) (helper : Helper)
    (padded : Bool) (hroom : 16 ≤ v.below) {k : Nat} {w : UInt64}
    (hrdi : v.regs .rdi = v.slot k) (hw : v.words[k]? = some w) :
    ∃ t rf, Through h ((if padded then [.push .rdi] else []) ++
        ([.movImm64 .r11 (h.helpers.addr helper), .callReg .r11] ++
          (if padded then [.pop .rdi] else []))) s t ∧
      Shows t { v with
        regs := rf
        words := v.words.set k (helper.act w v.streams).1
        streams := (helper.act w v.streams).2 } := by
  cases padded with
  | false =>
      exact call_helper hs hio helper (by omega) hrdi hw
  | true =>
      obtain ⟨s₁, f₁, h₁⟩ := hs.push (h := h) (r := .rdi) (by decide) (by decide) (by omega)
      -- the extra word moves the one that is handed over one deeper, at the same address
      have hslot : (v.push (v.regs .rdi)).regs .rdi = (v.push (v.regs .rdi)).slot (k + 1) := by
        have hsum : v.below + 8 * k = v.below - 8 + 8 * (k + 1) := by omega
        rw [View.push_regs, hrdi, View.slot, View.slot, View.push_base, View.push_below, hsum]
      obtain ⟨s₂, rf, t₂, h₂⟩ := call_helper h₁ hio helper (by simp only [View.push_below]; omega)
        hslot hw
      obtain ⟨s₃, f₃, h₃⟩ := h₂.pop (h := h) (r := .rdi) (by decide) (by decide) rfl
      refine ⟨s₃, Function.update rf .rdi (v.regs .rdi),
        .cons f₁ (t₂.append (.cons f₃ (.nil s₃))), ?_⟩
      have hbelow : v.below - 8 + 8 = v.below := by omega
      simpa only [View.drop, View.setReg, View.push, hbelow, List.set_cons_succ,
        List.tail_cons] using h₃

/-- The code around a call of an outside routine: the registers are saved and restored. -/
def Block.guarded (addr : UInt64) (padded : Bool) : List Insn :=
  saved.map .push ++ ([.leaRsp .rdi 32] ++
    (((if padded then [.push .rdi] else []) ++
      ([.movImm64 .r11 addr, .callReg .r11] ++ (if padded then [.pop .rdi] else []))) ++
    saved.reverse.map .pop))

theorem Represents.carries_guarded (hb : Represents e v b) (hs : Shows s v)
    (hio : h.output ≠ h.input) (helper : Helper) (padded : Bool) (hroom : 48 ≤ v.below)
    {w : UInt64} {rest : List UInt64} (hw : b.stack = w :: rest) :
    Carries h e (Block.guarded (h.helpers.addr helper) padded) s
      { b with
        stack := (helper.act w b.streams).1 :: rest
        streams := (helper.act w b.streams).2 } := by
  have hwords : v.words = w :: rest := hb.stack.trans hw
  have hsaved : ∀ r ∈ Block.saved, r < 16 ∧ r ≠ .rsp := by decide +kernel
  have hback : ∀ r ∈ Block.saved.reverse, r < 16 ∧ r ≠ .rsp := by decide +kernel
  obtain ⟨s₁, t₁, h₁⟩ := hs.pushes (h := h) hsaved
    (show 8 * 4 ≤ v.below by omega)
  obtain ⟨s₂, f₂, h₂⟩ := h₁.leaRsp (h := h) (r := .rdi) (d := 32) (k := 4) (by decide) (by decide)
    rfl
  obtain ⟨s₃, rf, t₃, h₃⟩ := call_padded (k := 4) (w := w) h₂ hio helper padded
    (show 16 ≤ v.below - 8 * 4 by omega) (by rw [View.setReg_regs, Function.update_self]; rfl)
    (by rw [View.setReg_words, hwords]; rfl)
  obtain ⟨s₄, t₄, h₄⟩ := h₃.pops (h := h) hback
    (show _ = Block.saved.reverse.map v.regs ++ (helper.act w v.streams).1 :: rest by
      rw [View.setReg_words, hwords]; rfl)
  refine ⟨s₄, _, t₁.append (.cons f₂ (t₃.append t₄)), h₄, ?_⟩
  exact
    { base := hb.base
      size := hb.size
      bottom := by
        have hbot := hb.bottom
        have hlen : Block.saved.reverse.length = 4 := rfl
        have hlen' : Block.saved.length = 4 := rfl
        simp only [hwords, View.setReg_below, List.length_cons, hlen, hlen'] at hbot ⊢
        omega
      regs := fun r => by
        have hr : Block.home r ∈ Block.saved.reverse := List.mem_reverse.mpr (Block.home_mem r)
        simp only [if_pos hr, hb.regs]
      stack := by rw [hb.streams]
      data := hb.data
      streams := by simp only [View.setReg_streams, hb.streams] }

theorem Represents.carries_input (hb : Represents e v b) (hs : Shows s v)
    (hio : h.output ≠ h.input) (hroom : 56 ≤ v.below) :
    Carries h e (Block.code h.helpers rel .input padded) s
      { b with stack := b.streams.read.1 :: b.stack, streams := b.streams.read.2 } := by
  have hcode : Block.code h.helpers rel .input padded =
      .subImm .rsp 8 :: Block.guarded (h.helpers.addr .input) padded := by
    cases padded <;> rfl
  obtain ⟨s₁, w, f₁, h₁⟩ := hs.subRsp (h := h) (by omega)
  obtain ⟨t, v', ht, hshow, hb'⟩ := (hb.push (by omega) w).carries_guarded h₁ hio .input padded
    (by rw [View.push_below]; omega) rfl
  rw [hcode]
  exact ⟨t, v', .cons f₁ ht, hshow, hb'⟩

theorem Represents.carries_output (hb : Represents e v b) (hs : Shows s v)
    (hio : h.output ≠ h.input) (hroom : 48 ≤ v.below) {w : UInt64} {rest : List UInt64}
    (hw : b.stack = w :: rest) :
    Carries h e (Block.code h.helpers rel .output padded) s
      { b with stack := rest, streams := b.streams.print w } := by
  have hcode : Block.code h.helpers rel .output padded =
      Block.guarded (h.helpers.addr .output) padded ++ [.addImm .rsp 8] := by
    cases padded <;> rfl
  obtain ⟨t, v', ht, hshow, hb'⟩ := hb.carries_guarded hs hio .output padded hroom hw
  obtain ⟨u, hf, hu⟩ := hshow.addRsp (h := h) hb'.stack
  rw [hcode]
  exact ⟨u, _, ht.append (.cons hf (.nil u)), hu, hb'.drop rfl⟩

/-! ## Branches -/

theorem Block.holds_condition (c : Comparison) (x y : UInt64) :
    (Flags.ofSub x y).holds (condition c) = c.holds x y := by
  have hzero : (x - y == 0) = (x == y) := by
    rw [Bool.eq_iff_iff, beq_iff_eq, beq_iff_eq, UInt64.sub_eq_iff_eq_add, UInt64.zero_add]
  cases c with
  | b => rfl
  | ae =>
      change (!decide (x < y)) = decide (y ≤ x)
      rw [← decide_not, decide_eq_decide]
      exact UInt64.not_lt
  | e => exact hzero
  | ne => exact congrArg (! ·) hzero
  | be =>
      change (decide (x < y) || (x - y == 0)) = decide (x ≤ y)
      rw [hzero]
      grind
  | a =>
      change (!(decide (x < y) || (x - y == 0))) = decide (y < x)
      rw [hzero]
      grind

def Block.behind (is : List Insn) (s : X64.State) : UInt64 :=
  s.rip + UInt64.ofNat (Insn.encodeAll is).length

theorem Represents.runs_cond (hb : Represents e v b) (hs : Shows s v) (c : Comparison)
    (target : Int32) {x y : UInt64} {rest : List UInt64} (hw : b.stack = y :: x :: rest) :
    ∃ t v', Runs h (Block.code helpers rel (.branch (.cond c) target) padded) s (.goes t) ∧
      Shows t v' ∧ Represents e v' { b with stack := rest } ∧
      t.rip =
        let next := Block.behind (Block.code helpers rel (.branch (.cond c) target) padded) s
        if c.holds x y then next + signed32 rel else next := by
  obtain ⟨s₁, f₁, h₁⟩ := hb.pop_into (h := h) hs (q := .rsi) (by decide) (by decide) hw
  have hb₁ := (hb.drop hw).setReg (q := .rsi) (by decide) y
  obtain ⟨s₂, f₂, h₂⟩ := hb₁.pop_into (h := h) h₁ (q := .rdi) (by decide) (by decide) rfl
  have hb₂ := (hb₁.drop rfl).setReg (q := .rdi) (by decide) x
  obtain ⟨s₃, f₃, h₃, hflags⟩ := h₂.cmp (h := h) (a := .rdi) (b := .rsi) (by decide) (by decide)
    (by decide) (by decide)
  have hrip := Through.rip_eq (.cons f₁ (.cons f₂ (.cons f₃ (.nil s₃))))
  simp only [View.setReg_regs, View.drop_regs, Function.update_self,
    Function.update_of_ne (show Reg.rsi ≠ Reg.rdi by decide)] at hflags
  have hcode : Block.code helpers rel (.branch (.cond c) target) padded =
      [.pop .rsi, .pop .rdi, .cmp .rdi .rsi, .jcc (Block.condition c) rel] := rfl
  have hnext : s₃.rip + UInt64.ofNat (Insn.jcc (Block.condition c) rel).encode.length =
      Block.behind (Block.code helpers rel (.branch (.cond c) target) padded) s := by
    rw [hrip, UInt64.add_assoc, ← UInt64.ofNat_add]
    rfl
  rw [hcode] at hnext ⊢
  refine ⟨_, _, .cons f₁ (.cons f₂ (.cons f₃ (.last rfl))), h₃.go _, hb₂, ?_⟩
  simp only [hflags, Block.holds_condition, hnext]

theorem Represents.runs_jmp (hb : Represents e v b) (hs : Shows s v) (target : Int32) :
    ∃ t v', Runs h (Block.code helpers rel (.branch .jmp target) padded) s (.goes t) ∧
      Shows t v' ∧ Represents e v' b ∧
      t.rip = Block.behind (Block.code helpers rel (.branch .jmp target) padded) s +
        signed32 rel :=
  ⟨_, v, .last rfl, hs.go _, hb, rfl⟩

theorem Represents.runs_call (hb : Represents e v b) (hs : Shows s v) (target : Int32)
    (hroom : 8 ≤ v.below) {next : UInt64}
    (hnext : next = Block.behind (Block.code helpers rel (.branch .call target) padded) s)
    (hin : next + signed32 rel ≠ h.input) (hout : next + signed32 rel ≠ h.output) :
    ∃ t v', Runs h (Block.code helpers rel (.branch .call target) padded) s (.goes t) ∧
      Shows t v' ∧ Represents e v' { b with stack := next :: b.stack } ∧
      t.rip = next + signed32 rel := by
  obtain ⟨t, hx, ht, hrip⟩ := hs.call hroom hin hout
  refine ⟨t, _, .last ?_, ht, hb.push hroom next, hrip⟩
  rw [← hx, hnext]
  rfl

theorem Represents.runs_ret (hb : Represents e v b) (hs : Shows s v) {w : UInt64}
    {rest : List UInt64} (hw : b.stack = w :: rest) :
    ∃ t v', Runs h (Block.code helpers rel .ret padded) s (.goes t) ∧
      Shows t v' ∧ Represents e v' { b with stack := rest } ∧ t.rip = w := by
  obtain ⟨t, hx, ht, hrip⟩ := hs.ret (h := h) (hb.stack.trans hw) (s.rip + 1)
  exact ⟨t, _, .last hx, ht, hb.drop hw, hrip⟩

/-- Halting ends the process with status zero; only registers have changed. -/
theorem Represents.runs_hlt (hb : Represents e v b) (hs : Shows s v) :
    ∃ t, Runs h (Block.code helpers rel .hlt padded) s (.halted t) ∧
      t.regs.get .rdi = 0 ∧ t.memory.data = b.data ∧ t.streams = b.streams := by
  obtain ⟨s₁, f₁, h₁⟩ := hs.movImm32 (h := h) (r := .rax) (by decide) (by decide) Block.exitGroup
  obtain ⟨s₂, f₂, h₂⟩ := h₁.xorSelf (h := h) (r := .rdi) (by decide) (by decide)
  have hrax : s₂.regs.get .rax = X64.exitGroup := by
    rw [h₂.regs _ (by decide) (by decide)]
    rfl
  have hrdi : s₂.regs.get .rdi = 0 := h₂.regs _ (by decide) (by decide)
  exact ⟨s₂, .cons f₁ (.cons f₂ (.last (if_pos hrax))), hrdi, h₂.data.trans hb.data,
    h₂.streams.trans hb.streams⟩

end

/-! ## Every instruction -/

/-- What carrying out `is` answers to a step of the bytecode machine. A step without a
meaning asks for nothing. -/
def Answers (h : Host) (links : Links) (e : Extent) (is : List Insn) (s : X64.State) :
    Transition Bytecode.State → Prop
  | .goes b => ∃ t v, Runs h is s (.goes t) ∧ Shows t v ∧ Represents e v b ∧
      t.rip = links.address b.ip
  | .returned b => ∃ t v, Runs h is s (.goes t) ∧ Shows t v ∧ Represents e v b ∧
      t.rip = links.home
  | .halted b => ∃ t, Runs h is s (.halted t) ∧ t.regs.get .rdi = 0 ∧
      t.memory.data = b.data ∧ t.streams = b.streams
  | .stuck => True

/-- The code `is` of instruction `i` stands where the offsets say: the next instruction is
behind it and `rel` leads to the target, which is no outside routine. -/
structure Linked (h : Host) (links : Links) (i : Instr) (next : Nat) (rel : Int32)
    (is : List Insn) (s : X64.State) : Prop where
  next : links.address next = Block.behind is s
  target : ∀ b t, i = .branch b t →
    links.address t.toInt.toNat = Block.behind is s + signed32 rel
  inside : ∀ b t, i = .branch b t →
    links.address t.toInt.toNat ≠ h.input ∧ links.address t.toInt.toNat ≠ h.output

theorem Represents.goAt {e : Extent} {v : View} {b : Bytecode.State} (hb : Represents e v b)
    (ip : Nat) : Represents e v { b with ip := ip } where
  base := hb.base
  size := hb.size
  bottom := hb.bottom
  regs := hb.regs
  stack := hb.stack
  data := hb.data
  streams := hb.streams

theorem Block.code_ne_nil (helpers : Helpers) (rel : Int32) (i : Instr) (padded : Bool) :
    code helpers rel i padded ≠ [] := by
  cases i with
  | push src =>
      cases src with
      | mem c => cases c <;> exact List.cons_ne_nil _ _
      | _ => exact List.cons_ne_nil _ _
  | pop dst =>
      cases dst with
      | mem c => cases c <;> exact List.cons_ne_nil _ _
      | _ => exact List.cons_ne_nil _ _
  | branch b t => cases b <;> exact List.cons_ne_nil _ _
  | _ => exact List.cons_ne_nil _ _

theorem Carries.answers {h : Host} {links : Links} {e : Extent} {s : X64.State}
    {b : Bytecode.State} {helpers : Helpers} {rel : Int32} {i : Instr} {padded : Bool}
    {next : Nat} (hc : Carries h e (Block.code helpers rel i padded) s b)
    (hnext : links.address next = Block.behind (Block.code helpers rel i padded) s) :
    Answers h links e (Block.code helpers rel i padded) s (.goes { b with ip := next }) := by
  obtain ⟨t, v, ht, hshow, hb⟩ := hc
  exact ⟨t, v, ht.runs (Block.code_ne_nil _ _ _ _), hshow, hb.goAt next, ht.rip_eq.trans hnext.symm⟩

/-- The code of an instruction does what the instruction means. -/
theorem Represents.answers {h : Host} {links : Links} {e : Extent} {s : X64.State} {v : View}
    {b : Bytecode.State} {i : Instr} {next : Nat} {rel : Int32} {padded : Bool}
    (hb : Represents e v b) (hs : Shows s v) (hio : h.output ≠ h.input)
    (hroom : Block.frame i ≤ v.below)
    (hl : Linked h links i next rel (Block.code h.helpers rel i padded) s)
    (code : Bytes) :
    Answers h links e (Block.code h.helpers rel i padded) s
      (b.execute h.arithmetic links code next i) := by
  cases i with
  | hlt => exact hb.runs_hlt hs
  | push src =>
      rw [Bytecode.State.execute]
      cases hw : b.value? src with
      | none => trivial
      | some w => exact (hb.carries_push hs hroom hw).answers hl.next
  | pop dst =>
      rw [Bytecode.State.execute]
      cases hw : b.stack with
      | nil => trivial
      | cons w rest =>
          cases dst with
          | discard => exact (hb.carries_discard hs hw).answers hl.next
          | reg r => exact (hb.carries_pop_reg hs r hw).answers hl.next
          | mem c =>
              simp only
              cases hk : b.data.index? (c.address b.regs) with
              | none => trivial
              | some k => exact (hb.carries_pop_mem hs hk hw).answers hl.next
  | arith op =>
      rw [Bytecode.State.execute]
      split
      next y x rest hw => exact (hb.carries_arith hs op hw).answers hl.next
      next => trivial
  | sqrt =>
      rw [Bytecode.State.execute]
      split
      next x rest hw => exact (hb.carries_sqrt hs hw).answers hl.next
      next => trivial
  | input => exact (hb.carries_input hs hio hroom).answers hl.next
  | output =>
      rw [Bytecode.State.execute]
      split
      next w rest hw => exact (hb.carries_output hs hio hroom hw).answers hl.next
      next => trivial
  | branch br target =>
      have htarget := hl.target br target rfl
      cases br with
      | jmp =>
          obtain ⟨t, v', hr, hshow, hb', hrip⟩ := hb.runs_jmp hs target
          exact ⟨t, v', hr, hshow, hb'.goAt _, hrip.trans htarget.symm⟩
      | cond c =>
          rw [Bytecode.State.execute]
          split
          next y x rest hw =>
            obtain ⟨t, v', hr, hshow, hb', hrip⟩ := hb.runs_cond hs c target hw
            refine ⟨t, v', hr, hshow, hb'.goAt _, hrip.trans ?_⟩
            split
            · exact htarget.symm
            · exact hl.next.symm
          next => trivial
      | call =>
          obtain ⟨hin, hout⟩ := hl.inside .call target rfl
          rw [htarget, ← hl.next] at hin hout
          obtain ⟨t, v', hr, hshow, hb', hrip⟩ := hb.runs_call hs target hroom hl.next hin hout
          exact ⟨t, v', hr, hshow, hb'.goAt _, by rw [hrip, htarget, hl.next]⟩
  | ret =>
      rw [Bytecode.State.execute]
      cases hw : b.stack with
      | nil => trivial
      | cons w rest =>
          obtain ⟨t, v', hr, hshow, hb', hrip⟩ := hb.runs_ret hs hw
          simp only
          split
          next hreturn => exact ⟨t, v', hr, hshow, hb', hrip.trans hreturn⟩
          next =>
            split
            next ip hfind =>
              have hip : links.address ip = w := by simpa using List.find?_some hfind
              exact ⟨t, v', hr, hshow, hb'.goAt ip, hrip.trans hip.symm⟩
            next => trivial

end Lowering

end StackCode
